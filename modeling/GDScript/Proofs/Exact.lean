import GDScript.Proofs.Between.Spaced
import GDScript.Proofs.Invariant
import GDScript.Proofs.Pairing.File
import GDScript.Proofs.Report.Script

/-!
# Places are exact

Line and column of a place are counted unit by unit; they are exact when they can be told from its
offset alone (`Location.IsExact`). The place of every cursor that stands in a text is
(`Cursor.StandsIn.isExact`), and cursors stand in the text all through a run, whatever is read,
skipped, taken back or tried again. So what a run reports is exact, with the frames around it.

For the places of the tree a script is paired with itself: the one run keeps its places, in the other
one each of them is told from its offset, and both find the same tree.
-/

namespace GDScript

open Grammar

/-! ### Exact places -/

/-- The index of the last line of a text: behind the last line feed, or zero. -/
def Text.lineStart (t : Text) : Nat := (t.reverse.dropWhile (· != CodeUnit.lineFeed)).length

/-- Line and column of the place are those of its offset in the text. -/
structure Location.IsExact (source : Text) (l : Location) : Prop where
  offset_le : l.offset ≤ source.length
  line_eq : l.line = 1 + (source.take l.offset).count CodeUnit.lineFeed
  column_eq : l.column = 1 + l.offset - Text.lineStart (source.take l.offset)

/-- Both ends of the stretch are exact. -/
structure Span.IsExact (source : Text) (s : Span) : Prop where
  start : s.start.IsExact source
  stop : s.stop.IsExact source

/-- The places of the error, and of the rules around it, are exact. -/
structure ParseError.IsExact (source : Text) (e : ParseError) : Prop where
  location : e.location.IsExact source
  frames : ∀ frame ∈ e.frames, frame.location.IsExact source

namespace Location

/-- The column counts from behind the last line feed. -/
theorem column_behind (s : Text) :
    (behind s.reverse).column = 1 + s.length - Text.lineStart s := by
  induction s using List.reverseRecOn with
  | nil => rfl
  | append_singleton s u ih =>
    have hle : Text.lineStart s ≤ s.length := by
      have hlen : s.reverse.length = s.length := List.length_reverse
      rw [Text.lineStart, ← hlen]
      exact (List.dropWhile_suffix _).length_le
    rw [behind_reverse_concat, Text.lineStart, List.reverse_append, List.reverse_singleton,
      List.singleton_append, List.dropWhile_cons, List.length_append, List.length_singleton]
    -- behind a line feed a line starts, behind any other unit the column is one more
    by_cases hu : u = CodeUnit.lineFeed
    · rw [hu, after_lineFeed, if_neg (by decide), List.length_cons, List.length_reverse]
      dsimp only
      omega
    · rw [after_of_ne hu, if_pos (by simpa using hu), ← Text.lineStart, ih]
      dsimp only
      omega

/-- The place at the offset of another one, told from the offset alone. -/
def exact (source : Text) (l : Location) : Location := behind (source.take l.offset).reverse

theorem isExact_exact (source : Text) (l : Location) : (l.exact source).IsExact source := by
  have hoffset : (l.exact source).offset = (source.take l.offset).length := offset_behind _
  have htake : source.take (l.exact source).offset = source.take l.offset := by
    rw [hoffset, List.length_take, ← List.take_eq_take_min]
  refine ⟨?_, ?_, ?_⟩
  · rw [hoffset]
    exact (List.take_prefix _ _).length_le
  · rw [htake, exact, line_behind]
  · rw [htake, hoffset, exact, column_behind]

end Location

/-! ### Cursors -/

namespace Cursor

variable {source : Text} {c c' : Cursor}

theorem StandsIn.eq_exact (h : c.StandsIn source) : c.location = c.location.exact source := by
  have hsource : c.behind.reverse ++ c.ahead = source := h.source_eq
  have hlocation : c.location = Location.behind c.behind.reverse.reverse := by
    rw [List.reverse_reverse]
    exact h.location_eq
  have hoffset : c.location.offset = c.behind.reverse.length := by
    rw [hlocation, Location.offset_behind]
  rw [Location.exact, hoffset, ← hsource, List.take_left]
  exact hlocation

/-- The place of a cursor that stands in the text is exact. -/
theorem StandsIn.isExact (h : c.StandsIn source) : c.location.IsExact source :=
  h.eq_exact ▸ Location.isExact_exact source c.location

/-- What a reader leaves stands in the text, whatever it takes, and so does what it complains of. -/
theorem StandsIn.read {α : Type} (h : c.StandsIn source) (reader : Reader α) :
    (∀ v c', c.read reader = .ok (v, c') → c'.StandsIn source) ∧
      ∀ complaint l, c.read reader = .error (complaint, l) → l.IsExact source := by
  rw [Cursor.read]
  cases reader c.ahead with
  | took v n =>
    refine ⟨fun v' c' heq => ?_, fun complaint l heq => by cases heq⟩
    cases heq
    exact h.advanceBy n
  | fault complaint =>
    refine ⟨fun v' c' heq => (by cases heq), fun complaint' l heq => ?_⟩
    cases heq
    exact (h.advanceBy complaint.distance).isExact

end Cursor

/-! ### Runs -/

/-- Cursors stand in the text, and everything that is written down is exact. -/
def Invariant.exact (source : Text) : Invariant where
  scope _ s := ∀ frame ∈ s.frames, frame.location.IsExact source
  cursor c := c.StandsIn source
  journal j := ∀ e ∈ j.failures, e.IsExact source
  failure f j := (∀ e ∈ j.failures, e.IsExact source) ∧ ∀ e, f = .parse e → e.IsExact source
  enter _ hs hc := List.forall_mem_cons.mpr ⟨hc.isExact, hs⟩
  nest hs := hs
  advance hc n := hc.advanceBy n
  raise complaint hs hc hj := by
    have he : ParseError.IsExact source (complaint.error _ _) :=
      ⟨(hc.advanceBy complaint.distance).isExact, hs⟩
    exact ⟨List.forall_mem_cons.mpr ⟨he, hj⟩, fun e heq => Failure.parse.inj heq ▸ he⟩
  note complaint hs hc hj :=
    List.forall_mem_cons.mpr ⟨⟨(hc.advanceBy complaint.distance).isExact, hs⟩, hj⟩
  -- an exceeded limit is raised where the cursor stands
  exceed {s c _} hs hc hj := by
    have he : (s.tooDeep c.location).IsExact source := ⟨hc.isExact, hs⟩
    exact ⟨List.forall_mem_cons.mpr ⟨he, hj⟩, fun e heq => Failure.parse.inj heq ▸ he⟩
  abort defect hj := ⟨hj, fun e heq => by cases defect <;> cases heq⟩
  resume _ h := h.1
  raiseAgain _ h hj := ⟨hj, h.2⟩
  abandon _ hj := hj
  blame hbest hj :=
    ⟨hj, fun e heq => Failure.parse.inj heq ▸ hj _ (Journal.mem_failures_of_furthest hbest)⟩
  watch _ hj := hj
  watch_failure _ h := h

/-! ### Trees -/

theorem Line.bodies_map (f : Text → Text) (p : Location → Location) (l : Line) :
    (l.map f p).bodies = l.bodies.map (Block.map f p) := by
  cases l with
  | decl d span =>
    cases d <;> simp [Line.map, Decl.map, Line.bodies, Decl.bodies, Line.mapAll_eq_map]
  | stmt s span =>
    have hblock : ∀ b : Condition, (b.map f p).block = b.block.map f p := by
      rintro ⟨e, body⟩
      exact Line.mapAll_eq_map f p body
    -- only an `if` has a last branch without a condition
    cases s with
    | ifStmt branch elifs otherwise =>
      cases otherwise <;> simp [Line.map, Stmt.map, Line.bodies, Stmt.bodies, Line.mapAll_eq_map,
        Condition.mapAll_eq_map, hblock]
    | _ => simp [Line.map, Stmt.map, Line.bodies, Stmt.bodies, Condition.mapAll_eq_map, hblock]
  | expr e span => rfl
  | comment text span => rfl

/-- A block in a tree with other places is a block of the tree with other places. -/
theorem Block.Within.exists_map {f : Text → Text} {p : Location → Location} {inner outer : Block}
    (h : inner.Within (outer.map f p)) : ∃ block : Block, inner = block.map f p := by
  generalize houter : outer.map f p = mapped at h
  induction h generalizing outer with
  | body hl hinner =>
    obtain ⟨l, -, rfl⟩ := List.mem_map.mp (houter ▸ hl)
    rw [Line.bodies_map] at hinner
    obtain ⟨block, -, rfl⟩ := List.mem_map.mp hinner
    exact ⟨block, rfl⟩
  | deeper hl hmiddle _ ih =>
    obtain ⟨l, -, rfl⟩ := List.mem_map.mp (houter ▸ hl)
    rw [Line.bodies_map] at hmiddle
    obtain ⟨block, -, rfl⟩ := List.mem_map.mp hmiddle
    exact ih rfl

theorem Line.span_map (f : Text → Text) (p : Location → Location) (l : Line) :
    (l.map f p).span = l.span.map p := by
  cases l <;> rfl

/-- A script and itself, with the places of the second run told from their offsets. -/
def Pairing.exact (source : Text) : Pairing where
  reports := .loose fun l l' => l = l' ∧ l.exact source = l
  quoted text := text
  width level := level
  view := id
  view' := Location.exact source
  inside _ c c' := c = c' ∧ c.StandsIn source
  between c c' := c = c' ∧ c.StandsIn source
  gone _ := False
  fresh := True
  view_eq h := h.1 ▸ h.2
  complaint_eq _ _ _ := trivial
  unexpected _ := trivial
  complaint_indentation _ _ := trivial
  width_zero := rfl
  width_lt h := h
  quoted_nil := TokenPairing.id_nil
  quoted_cons _ := TokenPairing.id_cons _ _
  quoted_concat _ := TokenPairing.id_concat _ _
  place_inside h := ⟨congrArg _ h.1, h.2.eq_exact.symm⟩
  place_between h := ⟨congrArg _ h.1, h.2.eq_exact.symm⟩
  sameStart h := h.1 ▸ .line (.refl _)
  sameToken h := h.1 ▸ .refl _
  plain h _ := ⟨congrArg _ h.1, h.2.advanceBy _⟩
  spaces h := ⟨congrArg (fun c => c.advanceBy c.ahead.gapLength) h.1, h.2.advanceBy _⟩
  endsItem h := by rw [h.1]
  isDefault h _ := by rw [h.1]
  default h _ _ := ⟨congrArg (fun c => c.advanceBy c.ahead.defaultDistance) h.1, h.2.advanceBy _⟩
  opener h _ _ := ⟨congrArg _ h.1, h.2.advanceBy 1⟩
  closer h _ _ := ⟨congrArg _ h.1, h.2.advanceBy 1⟩
  layout h := ⟨congrArg (fun c => c.advanceBy (c.ahead.layoutLength false)) h.1, h.2.advanceBy _⟩
  -- both cursors are the same one, so both readings are
  string {_ c _} h := by
    obtain ⟨rfl, hc⟩ := h
    cases Reader.string c.ahead with
    | took v n => exact .took ⟨by cases v <;> rfl, rfl, hc.advanceBy n⟩
    | fault complaint =>
      exact .fault trivial ⟨rfl, (hc.advanceBy complaint.distance).eq_exact.symm⟩
  comment h _ := ⟨congrArg _ h.1, h.2.advanceBy _⟩
  between_of_inside h _ := h
  opens {c _} h := by
    obtain ⟨rfl, hc⟩ := h
    by_cases hnil : c.ahead = []
    · exact .ended hnil hnil
    · exact .line hnil hnil rfl ⟨rfl, hc.advanceBy _⟩ (fun _ => ⟨rfl, hc.advanceBy _⟩) Iff.rfl
  gone_advanceBy h _ := h

namespace Script

variable {source : Text} {depth : Option Int} {block : Block}

/-- Every place of a tree is told from its offset. -/
theorem map_exact_of_parse (h : parse source depth = .ok block) :
    block.map id (Location.exact source) = block := by
  have htogether : (Pairing.exact source).EndTogether :=
    ⟨fun hc hnil => hc.1 ▸ hnil, fun _ h => h, trivial⟩
  have hstart : (Pairing.exact source).between (Cursor.ofText source) (Cursor.ofText source) :=
    ⟨rfl, Cursor.standsIn_ofText source⟩
  obtain ⟨block', hparse, hsame⟩ := exists_of_pairs (r := (Pairing.exact source).reports)
    (Q := (Pairing.exact source).SameBlock) rfl trivial (fun room _ =>
      (Pairing.pairs_topLines htogether hstart).mono fun _ _ d d' hlines hnil =>
        ⟨hlines.1, Pairing.nextCode_eq_nil htogether hlines.2.1 hnil⟩) h
  -- both runs read the same text, so they find the same tree
  obtain rfl : block = block' := Except.ok.inj (h.symm.trans hparse)
  exact hsame.trans block.map_id

theorem isExact_of_mem_map {lines : Block} {l : Line}
    (hl : l ∈ lines.map id (Location.exact source)) : l.span.IsExact source := by
  obtain ⟨m, -, rfl⟩ := List.mem_map.mp hl
  rw [Line.span_map]
  exact ⟨Location.isExact_exact source _, Location.isExact_exact source _⟩

/--
Every place in the tree of a script is exact, at every depth, and so are the places of the error that
is reported for it and of the rules around it. A cursor in a text stays in it, at an exact place,
wherever a reader or a run of a grammar leads it and wherever a run takes it back to.
-/
theorem isExact_of_parse (source : Text) (depth : Option Int) :
    (∀ block, parse source depth = .ok block → (∀ l ∈ block, l.span.IsExact source) ∧
      ∀ inner : Block, inner.Within block → ∀ l ∈ inner, l.span.IsExact source) ∧
    (∀ e, parse source depth = .error (.parse e) → e.IsExact source) ∧
    (Cursor.ofText source).StandsIn source ∧
    ∀ c : Cursor, c.StandsIn source → c.location.IsExact source ∧
      (∀ n, (c.advanceBy n).StandsIn source) ∧
      (∀ {α : Type} (reader : Reader α) v c', c.read reader = .ok (v, c') → c'.StandsIn source) ∧
      ∀ {α : Type} (g : Grammar Rule α) room scope journal v c' journal',
        Grammar.run room g scope c journal = .finished v c' journal' → c'.StandsIn source := by
  refine ⟨fun block h => ?_, fun e h => ?_, Cursor.standsIn_ofText source, fun c hc =>
    ⟨hc.isExact, hc.advanceBy, fun reader => (hc.read reader).1,
      fun g room scope journal v c' journal' h => ?_⟩⟩
  · -- a span that is not exact would be moved by correcting every place in the tree
    have hmap := map_exact_of_parse h
    refine ⟨fun l hl => isExact_of_mem_map (hmap.symm ▸ hl), fun inner hinner l hl => ?_⟩
    rw [← hmap] at hinner
    obtain ⟨lines, rfl⟩ := hinner.exists_map
    exact isExact_of_mem_map hl
  · have hmeets := keeps (.exact source) (depthLimit depth).toNat (call Rule.file)
      ⟨[], 0, depthLimit depth⟩ (Cursor.ofText source) [] (fun _ h => absurd h List.not_mem_nil)
      (Cursor.standsIn_ofText source) fun _ h => absurd h List.not_mem_nil
    rw [parse, run, start] at h
    split at h
    · exact absurd h (by simp)
    · next failure journal hrun =>
      rw [hrun] at hmeets
      exact hmeets.2 e (Except.error.inj h)
  · obtain ⟨n, -, rfl⟩ := yields_reaches room g c scope journal v c' journal' h
    exact hc.advanceBy n

/-- A line feed in a string starts a line, behind which the next item stands, or what is no item. -/
theorem isExact_of_parse_string :
    (∃ block, parse "a = 'b\n'; c\n" none = .ok block ∧
      List.map (fun l : Line => l.span.start) block = [⟨1, 1, 0⟩, ⟨2, 4, 10⟩] ∧
        ∀ l ∈ block, l.span.IsExact "a = 'b\n'; c\n") ∧
      ∃ e, parse "a = 'b\n' c\n" none = .error (.parse e) ∧ e.location = ⟨2, 3, 9⟩ ∧
        e.IsExact "a = 'b\n' c\n" := by
  -- the line feed within the string starts a line, so the second item is on line 2
  have hstarts : (parse "a = 'b\n'; c\n" none).toOption.map
      (List.map fun l : Line => l.span.start) = some [⟨1, 1, 0⟩, ⟨2, 4, 10⟩] := by decide +kernel
  obtain ⟨e, hfailed, hplace⟩ : ∃ e, parse "a = 'b\n' c\n" none = .error (.parse e) ∧
      e.location = ⟨2, 3, 9⟩ := by decide +kernel
  constructor
  · obtain ⟨block, hparse, hblock⟩ := Option.map_eq_some_iff.mp hstarts
    cases hread : parse "a = 'b\n'; c\n" none with
    | error failure =>
      rw [hread] at hparse
      cases hparse
    | ok read =>
      rw [hread] at hparse
      cases hparse
      exact ⟨block, rfl, hblock, ((isExact_of_parse _ none).1 block hread).1⟩
  · exact ⟨e, hfailed, hplace, (isExact_of_parse _ none).2.1 e hfailed⟩

end Script

end GDScript
