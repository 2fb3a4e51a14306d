import GDScript.Grammar.Language
import GDScript.Proofs.Program.Balance
import GDScript.Proofs.Program.Run
import Mathlib.Data.Fin.VecNotation
import Mathlib.Data.List.Induction

/-!
# What a choice comes to

Nothing that a step finds or leaves depends on the failure that got furthest, apart from that failure
itself (`Program.isBlind_exec`). So each alternative of a choice does what it would do if it were the
only one: those before it have failed recoverably, which has changed nothing else. A choice finds what
the first alternative finds that finds something, and when all fail it fails as the first one does of
those that got furthest.
-/

namespace GDScript

namespace Machine

/-- The machine with another failure that got furthest. -/
def withFurthest (best : Option ParseError) (m : Machine) : Machine := { m with furthest := best }

end Machine

namespace Action

open Machine

variable {α β : Type} {a : Action α} {m : Machine}

/-- What the step finds and where it leaves the machine does not depend on what got furthest. -/
def IsBlind (a : Action α) : Prop :=
  ∀ m best, ∃ best', a (m.withFurthest best) = ((a m).1, (a m).2.withFurthest best')

theorem exists_raise_withFurthest (e : ParseError) (m : Machine) (best : Option ParseError) :
    ∃ best', (raise e (m.withFurthest best) : Ended α)
      = ((raise e m : Ended α).1, (raise e m : Ended α).2.withFurthest best') := by
  obtain ⟨x, hx⟩ := record_eq false e m
  obtain ⟨y, hy⟩ := record_eq false e (m.withFurthest best)
  refine ⟨y, ?_⟩
  rw [raise, hy, raise, hx]
  rfl

theorem isBlind_read (reader : Reader α) (strays : Text → Nat) : IsBlind (read reader strays) := by
  intro m best
  rw [read, read, show (m.withFurthest best).cursor = m.cursor from rfl]
  cases reader m.cursor.ahead with
  | took v n => exact ⟨best, rfl⟩
  | fault complaint => exact exists_raise_withFurthest _ { m with cursor := _ } best

theorem isBlind_gap : IsBlind gap := by
  intro m best
  rw [gap, gap, show (m.withFurthest best).nesting = m.nesting from rfl]
  split <;> exact isBlind_read _ _ m best

theorem isBlind_fail (request : Except Misuse Complaint) (place : Option Location) :
    IsBlind (fail request place : Action α) := by
  intro m best
  cases request with
  | ok complaint => exact exists_raise_withFurthest _ m best
  | error misuse => exact ⟨best, rfl⟩

theorem isBlind_note (request : Except Misuse Complaint) (place : Option Location) :
    IsBlind (note request place) := by
  intro m best
  cases request with
  | ok complaint =>
    obtain ⟨x, hx⟩ := record_eq true (errorAt complaint place m) m
    obtain ⟨y, hy⟩ := record_eq true (errorAt complaint place m) (m.withFurthest best)
    refine ⟨y, ?_⟩
    show (Except.ok (), (m.withFurthest best).record true (errorAt complaint place m))
      = (_, withFurthest y (m.record true (errorAt complaint place m)))
    rw [hy, hx]
    rfl
  | error misuse => exact ⟨best, rfl⟩

theorem IsBlind.bind {f : α → Action β} (ha : IsBlind a) (hf : ∀ v, IsBlind (f v)) :
    IsBlind (bind a f) := by
  intro m best
  obtain ⟨best', ha⟩ := ha m best
  rw [Action.bind, Action.bind, ha]
  cases a m with
  | mk result m' =>
    cases result with
    | error failure => exact ⟨best', rfl⟩
    | ok v => exact hf v m' best'

theorem IsBlind.between {enter leave : Machine → Machine} (ha : IsBlind a)
    (henter : ∀ m best, enter (m.withFurthest best) = (enter m).withFurthest best)
    (hleave : ∀ m best, leave (m.withFurthest best) = (leave m).withFurthest best) :
    IsBlind (between enter leave a) := by
  intro m best
  obtain ⟨best', ha⟩ := ha (enter m) best
  refine ⟨best', ?_⟩
  simp only [Action.between, henter, ha, hleave]

theorem IsBlind.within (label : Text) (ha : IsBlind a) : IsBlind (within label a) := by
  intro m best
  by_cases hroom : m.limit ≤ m.contexts.length
  · have hroom' : (m.withFurthest best).limit ≤ (m.withFurthest best).contexts.length := hroom
    rw [within_of_full hroom, within_of_full hroom']
    exact ⟨some (m.scope.tooDeep m.cursor.location), rfl⟩
  · have hroom' : ¬(m.withFurthest best).limit ≤ (m.withFurthest best).contexts.length := hroom
    rw [within_of_room hroom, within_of_room hroom']
    exact ha.between (fun _ _ => rfl) (fun _ _ => rfl) m best

theorem IsBlind.bracketed (ha : IsBlind a) : IsBlind (bracketed a) :=
  ha.between (fun _ _ => rfl) fun _ _ => rfl

theorem IsBlind.attempt (ha : IsBlind a) : IsBlind (attempt a) := by
  intro m best
  obtain ⟨best', ha⟩ := ha m best
  refine ⟨best', ?_⟩
  cases hrun : a m with
  | mk result m' =>
    rw [hrun] at ha
    cases result with
    | ok v => rw [attempt_of_finished hrun, attempt_of_finished ha]
    | error failure =>
      cases hrec : failure.recoverable? with
      | none => rw [attempt_of_final hrun hrec, attempt_of_final ha hrec]
      | some e =>
        rw [attempt_of_recoverable hrun hrec, attempt_of_recoverable ha hrec]
        rfl

theorem isBlind_tries {actions : List (Action α)} (h : ∀ a ∈ actions, IsBlind a)
    (best : Option ParseError) : IsBlind (tries actions best) := by
  induction actions generalizing best with
  | nil => cases best <;> exact fun m x => ⟨x, rfl⟩
  | cons a rest ih =>
    intro m x
    obtain ⟨x', ha⟩ := h a List.mem_cons_self m x
    cases hrun : a m with
    | mk result m' =>
      rw [hrun] at ha
      cases result with
      | ok v => exact ⟨x', by rw [tries_of_finished hrun, tries_of_finished ha]⟩
      | error failure =>
        -- only a failure that is recovered from goes on to the next action
        cases hrec : failure.recoverable? with
        | none => exact ⟨x', by rw [tries_of_final hrun hrec, tries_of_final ha hrec]⟩
        | some e =>
          rw [tries_of_recoverable hrun hrec, tries_of_recoverable ha hrec]
          exact ih (fun b hb => h b (List.mem_cons_of_mem a hb)) _ { m' with cursor := m.cursor } x'

end Action

/-- No program depends on the failure that got furthest. -/
theorem Program.isBlind_exec {α : Type} (p : Program α) : Action.IsBlind p.exec := by
  induction p with
  | pure v => exact fun m best => ⟨best, rfl⟩
  | bind p f ih ihf => exact ih.bind ihf
  | here => exact fun m best => ⟨best, rfl⟩
  | gap => exact Action.isBlind_gap
  | read reader strays => exact Action.isBlind_read reader strays
  | fail request place => exact Action.isBlind_fail request place
  | note request place => exact Action.isBlind_note request place
  | within label p ih => exact ih.within label
  | bracketed p ih => exact ih.bracketed
  | attempt p ih => exact ih.attempt
  | choice alternatives ih =>
    refine Action.isBlind_tries (fun a ha => ?_) none
    obtain ⟨i, -, rfl⟩ := List.mem_map.mp ha
    exact ih i

/-! ### The first alternative that finds something -/

namespace Action

open Machine

variable {α : Type} {m m' : Machine} {actions : List (Action α)}

/-- The step fails recoverably. -/
def Fails (a : Action α) (m : Machine) (e : ParseError) : Prop :=
  (a m).1 = .error (.parse e) ∧ e.recoverable = true

/-- After a step that fails recoverably, the others start from the same state as it did. -/
theorem tries_of_fails {a : Action α} {e : ParseError} (hbalanced : IsBalanced a) (hblind : IsBlind a)
    (h : a.Fails m e) (rest : List (Action α)) (best x : Option ParseError) :
    ∃ x', tries (a :: rest) best (m.withFurthest x)
      = tries rest (some (better best e)) (m.withFurthest x') := by
  obtain ⟨y, hy⟩ := hblind m x
  have hrun : a (m.withFurthest x) = (.error (.parse e), (a m).2.withFurthest y) := by
    rw [hy, h.1]
  refine ⟨y, ?_⟩
  rw [tries_of_recoverable hrun (Failure.recoverable?_parse h.2)]
  obtain ⟨hcontexts, hnesting, hlimit⟩ := (hbalanced m).back
  congr 1
  simp only [withFurthest, hcontexts, hnesting, hlimit]

theorem tries_eq_of_first {before rest : List (Action α)} {a : Action α} {v : α}
    (hbalanced : ∀ b ∈ before, IsBalanced b) (hblind : ∀ b ∈ before, IsBlind b) (ha : IsBlind a)
    (hfails : ∀ b ∈ before, ∃ e, b.Fails m e) (hrun : a m = (.ok v, m'))
    (best x : Option ParseError) :
    ∃ x', tries (before ++ a :: rest) best (m.withFurthest x) = (.ok v, m'.withFurthest x') := by
  -- each action that fails leaves the machine as it was, but for the furthest failure
  induction before generalizing best x with
  | nil =>
    obtain ⟨x', hx'⟩ := ha m x
    rw [hrun] at hx'
    exact ⟨x', tries_of_finished hx'⟩
  | cons b before ih =>
    obtain ⟨e, he⟩ := hfails b List.mem_cons_self
    obtain ⟨x', hx'⟩ := tries_of_fails (hbalanced b List.mem_cons_self)
      (hblind b List.mem_cons_self) he (before ++ a :: rest) best x
    rw [List.cons_append, hx']
    exact ih (fun c hc => hbalanced c (List.mem_cons_of_mem b hc))
      (fun c hc => hblind c (List.mem_cons_of_mem b hc))
      (fun c hc => hfails c (List.mem_cons_of_mem b hc)) _ x'

/-! ### The failure of all alternatives -/

/-- The best of some failures. -/
def bestOf (best : Option ParseError) (es : List ParseError) : Option ParseError :=
  es.foldl (fun best e => some (better best e)) best

theorem bestOf_concat (best : Option ParseError) (es : List ParseError) (e : ParseError) :
    bestOf best (es ++ [e]) = some (better (bestOf best es) e) := by
  rw [bestOf, List.foldl_append]
  rfl

theorem fst_tries_of_all_fail {es : List ParseError} (hbalanced : ∀ a ∈ actions, IsBalanced a)
    (hblind : ∀ a ∈ actions, IsBlind a) (h : List.Forall₂ (fun a e => Fails a m e) actions es)
    (best x : Option ParseError) {b : ParseError} (hbest : bestOf best es = some b) :
    (tries actions best (m.withFurthest x)).1 = .error (.parse b) := by
  induction h generalizing best x with
  | nil =>
    obtain rfl : best = some b := hbest
    rfl
  | cons ha _ ih =>
    obtain ⟨x', hx'⟩ := tries_of_fails (hbalanced _ List.mem_cons_self)
      (hblind _ List.mem_cons_self) ha _ best x
    rw [hx']
    exact ih (fun c hc => hbalanced c (List.mem_cons_of_mem _ hc))
      (fun c hc => hblind c (List.mem_cons_of_mem _ hc)) _ x' hbest

/-- The best failure is the first one of those that got furthest. -/
theorem exists_bestOf {es : List ParseError} (h : es ≠ []) :
    ∃ before e after, es = before ++ e :: after ∧ bestOf none es = some e ∧
      (∀ d ∈ before, d.location.offset < e.location.offset) ∧
      ∀ d ∈ after, d.location.offset ≤ e.location.offset := by
  -- from the end, since a later failure replaces the best one only where it lies further
  induction es using List.reverseRecOn with
  | nil => exact absurd rfl h
  | append_singleton es e ih =>
    rw [bestOf_concat]
    cases hes : es with
    | nil => exact ⟨[], e, [], rfl, rfl, by simp, by simp⟩
    | cons d ds =>
      rw [← hes]
      obtain ⟨before, b, after, heq, hbest, hbefore, hafter⟩ := ih (by simp [hes])
      rw [hbest, better, Parser.further]
      split
      · next hlt =>
        refine ⟨es, e, [], rfl, rfl, fun c hc => ?_, by simp⟩
        rw [heq, List.mem_append, List.mem_cons] at hc
        rcases hc with hc | rfl | hc
        · exact Nat.lt_trans (hbefore c hc) hlt
        · exact hlt
        · exact Nat.lt_of_le_of_lt (hafter c hc) hlt
      · next hle =>
        refine ⟨before, b, after ++ [e], by rw [heq, List.append_assoc]; rfl, rfl, hbefore, ?_⟩
        exact List.forall_mem_append.mpr ⟨hafter, List.forall_mem_singleton.mpr (by omega)⟩

end Action

/-! ### Choices -/

namespace Program

variable {α : Type} {n : Nat} (alternatives : Fin n → Program α) (m : Machine)

/-- In the order of the alternatives, those before one come before it. -/
theorem order_of_split {i : Fin n} {l l' : List (Fin n)} (h : List.finRange n = l ++ i :: l') :
    (∀ j ∈ l, j < i) ∧ ∀ j ∈ l', i < j := by
  have hsorted := List.pairwise_lt_finRange n
  rw [h, List.pairwise_append, List.pairwise_cons] at hsorted
  exact ⟨fun j hj => hsorted.2.2 j hj i List.mem_cons_self, hsorted.2.1.1⟩

/-- A choice does what its first alternative does that finds something. -/
theorem exec_choice_of_first {i : Fin n} {v : α} {m' : Machine}
    (hrun : (alternatives i).exec m = (.ok v, m'))
    (hfails : ∀ j < i, ∃ e, Action.Fails (alternatives j).exec m e) :
    ∃ best, (choice alternatives).exec m = (.ok v, m'.withFurthest best) := by
  obtain ⟨l, l', hsplit⟩ := List.append_of_mem (List.mem_finRange i)
  have hmap : (List.finRange n).map (fun i => (alternatives i).exec)
      = l.map (fun i => (alternatives i).exec) ++ (alternatives i).exec
        :: l'.map (fun i => (alternatives i).exec) := by
    rw [hsplit, List.map_append, List.map_cons]
  rw [exec, hmap]
  refine Action.tries_eq_of_first ?_ ?_ (alternatives i).isBlind_exec ?_ hrun none m.furthest
  · exact List.forall_mem_map.mpr fun j _ => (alternatives j).isBalanced_exec
  · exact List.forall_mem_map.mpr fun j _ => (alternatives j).isBlind_exec
  · exact List.forall_mem_map.mpr fun j hj => hfails j ((order_of_split hsplit).1 j hj)

/-- When all alternatives fail, a choice fails as the first of those that got furthest. -/
theorem exec_choice_of_all_fail (hn : 0 < n) {es : Fin n → ParseError}
    (hfails : ∀ i, Action.Fails (alternatives i).exec m (es i)) :
    ∃ i, ((choice alternatives).exec m).1 = .error (.parse (es i)) ∧
      ∀ j, (es j).location.offset ≤ (es i).location.offset ∧
        (j < i → (es j).location.offset < (es i).location.offset) := by
  have hne : (List.finRange n).map es ≠ [] := by
    simpa [List.finRange_eq_nil_iff] using hn.ne'
  obtain ⟨before, e, after, hsplit, hbest, hbefore, hafter⟩ := Action.exists_bestOf hne
  -- the failure that is raised is that of an alternative, with those before and behind it
  obtain ⟨l, l₁, hl, rfl, hl₁⟩ := List.map_eq_append_iff.mp hsplit
  obtain ⟨i, l', rfl, rfl, rfl⟩ := List.map_eq_cons_iff.mp hl₁
  obtain ⟨horder, horder'⟩ := order_of_split hl
  refine ⟨i, ?_, fun j => ?_⟩
  · refine Action.fst_tries_of_all_fail ?_ ?_ ?_ none m.furthest hbest
    · exact List.forall_mem_map.mpr fun j _ => (alternatives j).isBalanced_exec
    · exact List.forall_mem_map.mpr fun j _ => (alternatives j).isBlind_exec
    · rw [List.forall₂_map_left_iff, List.forall₂_map_right_iff, List.forall₂_same]
      exact fun j _ => hfails j
  · have hj : j ∈ l ++ i :: l' := hl ▸ List.mem_finRange j
    rcases List.mem_append.mp hj with hj | hj
    · have hlt := List.forall_mem_map.mp hbefore j hj
      exact ⟨hlt.le, fun _ => hlt⟩
    · rcases List.mem_cons.mp hj with rfl | hj
      · exact ⟨Nat.le_refl _, fun hlt => absurd hlt (lt_irrefl _)⟩
      · exact ⟨List.forall_mem_map.mp hafter j hj, fun hlt => absurd hlt (horder' j hj).asymm⟩

/--
Programs are transactions on the state of a machine, however they are nested. Whether one finishes or
fails, in whatever way, the active rules and the open brackets are those that it started with; one
that finishes goes on, one that fails recoverably is kept or has been overtaken, and only an exceeded
limit makes what got furthest lie less far. An attempt that gives up puts the cursor back. A choice
does what its first alternative does that finds something, from where the choice has started, and when
all fail it fails as the first one of those that got furthest. And a run of the grammar of a program
does the same.
-/
theorem balances_exec :
    (∀ {α : Type} (p : Program α) (m : Machine), m.Balances (p.exec m)) ∧
    (∀ {α : Type} (p : Program α) (m : Machine) e, Action.Fails p.exec m e →
      (attempt p).exec m = (.ok none, { (p.exec m).2 with cursor := m.cursor })) ∧
    (∀ {α : Type} {n : Nat} (alternatives : Fin n → Program α) (m m' : Machine) i v,
      (alternatives i).exec m = (.ok v, m') →
      (∀ j < i, ∃ e, Action.Fails (alternatives j).exec m e) →
        ∃ best, (choice alternatives).exec m = (.ok v, { m' with furthest := best })) ∧
    (∀ {α : Type} {n : Nat} (alternatives : Fin n → Program α) (m : Machine)
      (es : Fin n → ParseError), 0 < n →
      (∀ i, Action.Fails (alternatives i).exec m (es i)) →
        ∃ i, ((choice alternatives).exec m).1 = .error (.parse (es i)) ∧
          ∀ j, (es j).location.offset ≤ (es i).location.offset ∧
            (j < i → (es j).location.offset < (es i).location.offset)) ∧
    ∀ {R : Type → Type} [RuleSet R] {α : Type} (p : Program α), p.IsLocal →
      Action.Simulates p.exec (p.grammar R) := by
  refine ⟨fun p => p.isBalanced_exec, fun p m e h => ?_, fun alternatives m m' i v => ?_,
    fun alternatives m es hn => exec_choice_of_all_fail alternatives m hn,
    fun p => p.simulates_exec⟩
  · have hrun : p.exec m = (.error (.parse e), (p.exec m).2) := Prod.ext h.1 rfl
    exact Action.attempt_of_recoverable hrun (Failure.recoverable?_parse h.2)
  · exact exec_choice_of_first alternatives m

/-- A text in brackets that are never closed. -/
def unclosed : Program Unit :=
  .bracketed (.bind (.read (Reader.expect "(") fun _ => 0) fun _ =>
    .read (Reader.expect ")") fun _ => 0)

/-- An opening bracket, taken as such. -/
def opener : Program Unit := .read (Reader.expect "(") fun _ => 0

/-- A letter that is not there. -/
def letter : Program Unit := .read (Reader.expect "a") fun _ => 0

/-- A machine before an opening bracket that no other one closes. -/
def atBracket : Machine := ⟨Cursor.ofText "(a", [], 0, none, 512⟩

/-- What has been taken of unclosed brackets is given back, and the brackets count no more. -/
theorem balances_exec_unclosed :
    ((attempt unclosed).exec atBracket).1 = .ok none ∧
    ((attempt unclosed).exec atBracket).2.cursor = Cursor.ofText "(a" ∧
    ((attempt unclosed).exec atBracket).2.nesting = 0 ∧
    ((choice ![letter, unclosed, opener]).exec atBracket).1 = .ok () ∧
    (∃ e, ((choice ![letter, unclosed]).exec atBracket).1 = .error (.parse e) ∧
      e.location.offset = 1) ∧
    (Grammar.run 512 (unclosed.grammar Rule) ⟨[], 0, 512⟩ (Cursor.ofText "(a") []).Agrees atBracket
      (unclosed.exec atBracket) := by
  obtain ⟨hbalances, hattempt, hfirst, hall, hsimulates⟩ := balances_exec
  -- the bracket is never closed, so this alternative fails behind the letter
  obtain ⟨e, he, hoffset⟩ : ∃ e, Action.Fails unclosed.exec atBracket e ∧ e.location.offset = 1 :=
    ⟨_, ⟨rfl, rfl⟩, rfl⟩
  obtain ⟨d, hd, hoffset'⟩ : ∃ d, Action.Fails letter.exec atBracket d ∧ d.location.offset = 0 :=
    ⟨_, ⟨rfl, rfl⟩, rfl⟩
  have hgiven := hattempt unclosed atBracket e he
  refine ⟨congrArg Prod.fst hgiven, by rw [hgiven]; rfl, ?_, ?_, ?_, ?_⟩
  · exact (hbalances (attempt unclosed) atBracket).back.nesting_eq
  · obtain ⟨best, hbest⟩ := hfirst ![letter, unclosed, opener] atBracket _ 2 () rfl fun j hj => by
      match j with
      | 0 => exact ⟨d, hd⟩
      | 1 => exact ⟨e, he⟩
    exact congrArg Prod.fst hbest
  · obtain ⟨i, hfails, hbest⟩ := hall ![letter, unclosed] atBracket ![d, e] (by decide) fun j => by
      match j with
      | 0 => exact hd
      | 1 => exact he
    match i with
    | 0 => exact absurd (hbest 1).1 (by show ¬e.location.offset ≤ d.location.offset; omega)
    | 1 => exact ⟨e, hfails, hoffset⟩
  · exact hsimulates unclosed ⟨trivial, fun _ => trivial⟩ atBracket [] rfl

end Program

end GDScript
