import GDScript.Proofs.Pairing.Following
import GDScript.Proofs.Pairing.Itself

/-!
# Items of a line

An item that is read without a block stays on its line (`Cursor.OnLine`), and one with a block ends at
the end of a line (`Script.yieldsIn_lineItem_end`). In either case it closes what it opens, and its last
unit is no return (`Script.yieldsIn_lineItem_closes`). Where two texts are read in front of the same text,
an item of the one follows an item of the other if what it is made of does (`InFront.follows_spanned`).
-/

namespace GDScript

open Grammar

/-! ### Where an item ends -/

/-- What stands between the cursors stays on its line. -/
def Cursor.OnLine (start d : Cursor) : Prop :=
  ∃ s, start.ahead = s ++ d.ahead ∧ Scan.staysOnLine (.code []) s = true

namespace Script

variable {room : Nat}

/-- The tokens between two cursors stay on a line. -/
def lineTokens (start : Cursor) : TokenPairing :=
  (Cursor.inFront Scan.staysOnLine start Scan.Piece.staysOnLine_eq).tokens

/-- Tokens of a line, outside of brackets, leave its end ahead. -/
theorem onLine_of_inside {start d d' : Cursor} (h : Cursor.Inside Scan.staysOnLine start [] d d') :
    start.OnLine d := by
  obtain ⟨-, s, hs, -⟩ := h
  have hscan := hs.scan_eq (List.nil_prefix)
  rw [List.append_nil, Scan.staysOnLine_nil] at hscan
  exact ⟨s, hs.ahead_eq, hscan.symm⟩

/-- What is read without a block stays on its line. -/
theorem yieldsIn_plain {α : Type} (room : Nat) (rule : Rule α) (hrule : rule.IsPlain)
    (hfits : TokenPairing.Fits rule []) (start : Cursor)
    (hsame : (lineTokens start).rule rule = rule) :
    YieldsIn room 0 (call rule) start fun _ d => start.OnLine d := by
  have hpairs := (lineTokens start).plainCarry room rule [] start start hrule hfits
    (Cursor.inside_start _ start)
  rw [hsame] at hpairs
  exact Pairs.yieldsIn hpairs fun _ _ _ _ h => onLine_of_inside h.2

/-- What is read with a block ends at the end of a line. -/
theorem yieldsIn_block {α : Type} (room : Nat) {rule : Rule α} (start : Cursor)
    (henters : (Cursor.pairing start).Enters rule start start)
    (hsame : (Cursor.pairing start).blockRule rule = rule)
    (hleaves : ∀ v d d', (Cursor.pairing start).Leaves rule v d d' →
      (Cursor.pairing start).Ended d d') :
    YieldsIn room 0 (call rule) start fun _ d => d.ahead.atLineEnd = true := by
  have hpairs := (Cursor.pairing start).blockCarry room rule start start henters
  rw [hsame] at hpairs
  refine Pairs.yieldsIn hpairs fun v _ d d' h => ?_
  rcases h with h | hspent
  · exact (hleaves v d d' h.2).2
  · exact hspent.gone.elim

/-- An item ends where what it is made of does. -/
theorem yieldsIn_spanned {α : Type} {g : Grammar Rule α} {item : α → Span → Line} {start : Location}
    {c : Cursor} {E : Cursor → Prop} (hg : YieldsIn room 0 g c fun _ d => E d) :
    YieldsIn room 0 (spanned g item start) c fun _ d => E d :=
  hg.bind fun _ _ hd => yieldsIn_here_bind ((yields_pure hd).inside 0)

/-- An item ends at the end of a line, or it stays on its line. -/
theorem yieldsIn_lineItem_end (room : Nat) (start : Cursor) :
    YieldsIn room 0 (lineItem 0) start fun _ d => d.ahead.atLineEnd = true ∨ start.OnLine d := by
  -- an item without a block stays on its line, one with a block ends at a line end
  have hplain : ∀ {α : Type} (room : Nat) (rule : Rule α), rule.IsPlain →
      TokenPairing.Fits rule [] → (lineTokens start).rule rule = rule →
        YieldsIn room 0 (call rule) start fun _ d => d.ahead.atLineEnd = true ∨ start.OnLine d :=
    fun room rule hrule hfits hsame => (yieldsIn_plain room rule hrule hfits start hsame).mono fun _ _ => .inr
  have hinside : (Cursor.pairing start).inside [] start start := Cursor.inside_start _ start
  have hblock : ∀ {α : Type} (room : Nat) (rule : Rule α),
      (Cursor.pairing start).Enters rule start start → (Cursor.pairing start).blockRule rule = rule →
      (∀ v d d', (Cursor.pairing start).Leaves rule v d d' → (Cursor.pairing start).Ended d d') →
        YieldsIn room 0 (call rule) start fun _ d => d.ahead.atLineEnd = true ∨ start.OnLine d :=
    fun room rule henters hsame hleaves =>
      (yieldsIn_block room start henters hsame hleaves).mono fun _ _ => .inl
  rw [lineItem_eq]
  refine yieldsIn_here_bind (yieldsIn_choice fun g hg => ?_)
  simp only [List.mem_cons, List.not_mem_nil, or_false] at hg
  rcases hg with rfl | rfl | rfl
  · refine yieldsIn_spanned (yieldsIn_call fun room' _ => yieldsIn_choice fun g hg => ?_)
    simp only [List.mem_cons, List.not_mem_nil, or_false] at hg
    rcases hg with rfl | rfl | rfl | rfl | rfl | rfl | rfl | rfl
    case inr.inr.inr.inr.inl => exact hblock room' _ hinside rfl fun _ _ _ h => h
    case inr.inr.inr.inr.inr.inl => exact hblock room' _ hinside rfl fun _ _ _ h => h
    all_goals exact hplain room' _ trivial rfl rfl
  · refine yieldsIn_spanned (yieldsIn_call fun room' _ => yieldsIn_choice fun g hg => ?_)
    simp only [List.mem_cons, List.not_mem_nil, or_false] at hg
    rcases hg with rfl | rfl | rfl | rfl | rfl | rfl | rfl
    · exact hblock room' _ ⟨.inl (.inr trivial), hinside⟩ rfl fun _ _ _ h => h
    case inr.inr.inr.inr.inl => exact hplain room' _ trivial rfl rfl
    case inr.inr.inr.inr.inr.inl => exact hplain room' _ trivial rfl rfl
    case inr.inr.inr.inr.inr.inr => exact hplain room' _ trivial trivial rfl
    all_goals exact hblock room' _ hinside rfl fun _ _ _ h => h
  · exact yieldsIn_spanned (hplain room .expr trivial trivial rfl)

/-- What an item takes closes what it opens, and its last unit is no return. -/
theorem yieldsIn_lineItem_closes (room : Nat) (start : Cursor) :
    YieldsIn room 0 (lineItem 0) start fun _ d => ∃ s, start.ahead = s ++ d.ahead ∧
      Scan.closes (.code []) s = true ∧ s.getLast? ≠ some CodeUnit.carriageReturn := by
  let p := Cursor.pairing start
  have hitem : Pairs p.reports room 0 (lineItem 0) (lineItem (p.width 0)) start start _ :=
    Pairing.pairs_lineItem (p.blockCarry room) (.inl (.inr trivial)) (Cursor.inside_start _ start)
  refine Pairs.yieldsIn hitem fun _ _ d d' h => ?_
  obtain ⟨-, -, s, hs, hreturn⟩ := h.resolve_right fun hspent => hspent.gone.elim
  have hcloses := hs.scan_eq (List.nil_prefix)
  rw [List.append_nil] at hcloses
  exact ⟨s, hs.ahead_eq, hcloses.symm, hreturn rfl⟩

end Script

/-! ### Items in two texts -/

namespace InFront

variable {x : InFront} {room : Nat} {strict : Prop} {E : Cursor → Prop} {c c' : Cursor}

/-- An item follows another one if what it is made of does. -/
theorem follows_spanned {α : Type} {g g' : Grammar Rule α} {V : α → α → Prop}
    {item : α → Span → Line} {start start' : Location}
    (hitem : ∀ {start start' stop stop' : Location} {v v' : α}, x.place start start' →
      x.place stop stop' → V v v' →
        x.tokens.SameItem (item v ⟨start, stop⟩) (item v' ⟨start', stop'⟩))
    (hstart : x.place start start')
    (hg : Follows x.place room 0 strict E g g' c c' fun v v' d d' => V v v' ∧ x.inside [] d d') :
    Follows x.place room 0 strict E (Script.spanned g item start) (Script.spanned g' item start') c c'
      fun l l' d d' => x.tokens.SameItem l l' ∧ x.inside [] d d' := by
  refine Follows.bind hg (fun v v' d d' h => ?_) (fun _ _ hd => yields_here_bind (yields_pure hd))
    fun _ _ _ _ => stays_here_bind (stays_pure trivial)
  have hstop : x.place d.location d'.location := x.tokens.place_inside h.2
  -- the place behind the item is read on both sides
  have hrest : Pairs (.loose x.place) room 0
      (do let stop ← here; return item v ⟨start, stop⟩ : Grammar Rule Line)
      (do let stop ← here; return item v' ⟨start', stop⟩) d d' fun l l' e e' =>
        x.tokens.SameItem l l' ∧ x.inside [] e e' :=
    pairs_here_bind (pairs_pure ⟨hitem hstart hstop h.1, h.2⟩)
  exact hrest.follows fun _ _ _ _ => .inl

end InFront

end GDScript
