import GDScript.Proofs.Expression.Value
import GDScript.Proofs.Expression.WellFormed
import GDScript.Proofs.Room

/-!
# Expressions are read back

Every text that spells an expression is read as that expression, up to its end, wherever what
follows does not go on with it (`Expression.takes_written`). The induction is on how the text is
written. A level that is read by a loop needs more than that the expression itself is read: in
`Reads` a binary level is described together with the turns `t` that its loop still takes behind the
text, since the text may be the left operand of what `t` goes on with; a subscripted value is
described together with the rest of its chain for the same reason.
-/

namespace GDScript

open Grammar Expression Text

/-- The text is read as the phrase, in every way in which the place of the phrase is read. -/
def Phrase.Reads (room : Nat) : Phrase → Text → Prop
  | .expr b level e, s => ∀ (n : Nat) (rest : Text), (n != 0) = b →
      (level ≤ 2 → ∀ (t : Text) (Q : Expr → Prop), (t ++ rest).EndsExpr b (level + 1) →
        -- the operators of the level may go on behind the operand
        Loops room n (binaryTurn level) t rest (· = e) Q →
          Takes room n (atLevel level) (s ++ t) rest Q) ∧
      -- so may calls, indices and members behind a value
      (level = 5 → ∀ (t : Text) (Q : Expr → Prop), (t ++ rest).EndsExpr b 6 →
        Chains room n e t rest Q → Takes room n postfixed (s ++ t) rest Q) ∧
      (level = 3 ∨ level = 4 ∨ level = 6 → rest.EndsExpr b level →
        Takes room n (atLevel level) s rest (· = e))
  | .link e, s => ∀ (n : Nat) (rest t : Text) (Q : Expr → Prop) (r : Nat), room = r + 1 →
      (t ++ rest).EndsExpr true 6 → Chains r n e t rest Q →
        Takes room n memberChain (s ++ t) rest Q
  | .member e, s => ∀ (n : Nat) (rest : Text), rest.EndsExpr true 4 →
      Takes room n memberChain s rest (· = e)
  | .arguments es, s => ∀ (n : Nat) (rest : Text), Takes room n callArguments s rest (· = es)
  | .items true es, s => ∀ (n : Nat) (rest : Text) (found : List Expr), (n != 0) = true →
      Loops room n (itemsTurn [0x5D] Expression.expr) (s ++ [0x5D]) rest (· = found) (· = es.reverse ++ found)
  | .items false es, s => ∀ (n : Nat) (rest : Text) (found : List Expr), (n != 0) = true →
      Loops room n (commaTurn Expression.expr) s (0x29 :: rest) (· = found) (· = es.reverse ++ found)
  | .pairs ps, s => ∀ (n : Nat) (rest : Text) (found : List (Expr × Expr)), (n != 0) = true →
      Loops room n (itemsTurn [0x7D] (call Rule.pair)) (s ++ [0x7D]) rest (· = found)
        (· = ps.reverse ++ found)

namespace Phrase

variable {words : List Text} {room n level : Nat} {b : Bool} {e : Expr} {s rest : Text}

/-! ### Places -/

/-- An expression that nothing goes on with is read by the grammar of its level. -/
theorem Reads.takes (h : Reads room (.expr b level e) s) (hn : (n != 0) = b) (hlevel : level ≤ 6)
    (hne : level ≠ 5) (hrest : rest.EndsExpr b level) :
    Takes room n (atLevel level) s rest (· = e) := by
  obtain ⟨hbinary, -, hother⟩ := h n rest hn
  by_cases hle : level ≤ 2
  · have hdone : Loops room n (binaryTurn level) [] rest (· = e) (· = e) := by
      refine loops_done fun x hx => ?_
      refine (takes_binaryTurn_done hle (by rw [hn]; exact hrest)).mono ?_
      rintro _ rfl
      exact ⟨x, rfl, hx⟩
    have htakes := hbinary hle [] _ (hrest.mono (by omega)) hdone
    rwa [List.append_nil] at htakes
  · exact hother (by omega) hrest

theorem reads_of_primary
    (h : ∀ n rest, (n != 0) = b → EndsExpr b 6 rest → Takes room n primary s rest (· = e)) :
    Reads room (.expr b 6 e) s := by
  intro n rest hn
  refine ⟨fun hle => absurd hle (by omega), fun heq => absurd heq (by omega), fun _ hrest => ?_⟩
  exact h n rest hn hrest

theorem reads_tighter (hlevel : level ≤ 5) (hw : Written words room (.expr b (level + 1) e) s)
    (hnot : ("not" : Text) ∈ words) (h : Reads room (.expr b (level + 1) e) s) :
    Reads room (.expr b level e) s := by
  intro n rest hn
  -- a level with a loop reads the tighter operand first, and then takes its turns
  refine ⟨fun hle t Q hends hloops => ?_, ?_, ?_⟩
  · have htakes := h.takes hn (by omega) (by omega) hends
    rw [atLevel_eq hle]
    refine Takes.bind htakes fun v hv => ?_
    exact hloops.takes hv
  · -- level 5 starts a chain with a value
    rintro rfl t Q hends hchains
    refine Takes.bind (h.takes hn (by omega) (by omega) hends) fun v hv => ?_
    rw [hv]
    exact hchains.takes
  · rintro (rfl | rfl | rfl) hrest
    · -- an operand without an operator before it
      have hvalue : s.StartsWith CodeUnit.startsValue := hw.starts.2 (by omega)
      have hsign : (s ++ rest).Avoids (List.contains ("-+!" : Text)) := by
        refine (hvalue.append rest).avoids fun u hu => ?_
        have hmem : u ∈ ([0x2D, 0x2B, 0x21] : Text) := List.contains_iff_mem.mp hu
        simp only [List.mem_cons, List.not_mem_nil, or_false] at hmem
        rcases hmem with rfl | rfl | rfl <;> rfl
      have hword : startsWord "not" (s ++ rest) = false :=
        hw.avoidsWords "not" hnot (by decide) (by decide) (fun hlt => absurd hlt (by omega)) rest
          hrest.word
      refine Takes.look_bind (takes_operator_nothing (Spelling.find?_unary_eq_none hsign hword))
        fun found hfound => ?_
      rw [hfound]
      exact h.takes hn (by omega) (by omega) (hrest.mono (by omega))
    · -- a subscripted value without members
      have htakes := (h n rest hn).2.1 rfl [] _ (hrest.mono (by omega)) (chains_done hrest)
      rwa [List.append_nil] at htakes
    · exact absurd hlevel (by omega)

/-! ### Brackets -/

theorem reads_parens {g g' : Text} (hg : g.IsGap true) (hg' : g'.IsGap true)
    (hw : Written words room (.expr true 0 e) s) (h : Reads room (.expr true 0 e) s) :
    Reads (room + 2) (.expr b 6 e) ("(" ++ g ++ s ++ g' ++ ")") := by
  refine reads_of_primary fun n rest _ _ => ?_
  simp only [List.append_assoc]
  refine Takes.look_bind (takes_check "(") fun found hfound => ?_
  rw [hfound]
  refine takes_call (takes_enclosed hg hg' (by decide) hw.avoids_gap ?_)
  exact h.takes rfl (by omega) (by omega) (endsExpr_separator hg' (by decide))

/-- A written subscript goes on with a chain. -/
theorem chains_index {base i : Expr} {t g g' w : Text} {Q : Expr → Prop} (hg : g.IsGap true)
    (hg' : g'.IsGap true) (hw : Written words room (.expr true 0 i) t)
    (hi : Reads room (.expr true 0 i) t)
    (h : Chains (room + 2) n (.binary .index base i) w rest Q) :
    Chains (room + 2) n base ("[" ++ (g ++ (t ++ (g' ++ ("]" ++ w))))) rest Q := by
  have hindex : Takes (room + 2) n (call Rule.index) ("[" ++ (g ++ (t ++ (g' ++ "]"))))
      (w ++ rest) (· = i) := by
    refine takes_call (takes_enclosed hg hg' (by decide) hw.avoids_gap ?_)
    exact hi.takes rfl (by omega) (by omega) (endsExpr_separator hg' (by decide))
  have hopen : StartsWith (· == 0x5B) ("[" ++ (g ++ (t ++ (g' ++ "]")))) := rfl
  simpa only [List.append_assoc] using Chains.index hopen hindex h

theorem reads_index {base i : Expr} {t g g' : Text} (hg : g.IsGap true) (hg' : g'.IsGap true)
    (hw : Written words room (.expr true 0 i) t)
    (hbase : Reads (room + 2) (.expr b 5 base) s) (hi : Reads room (.expr true 0 i) t) :
    Reads (room + 2) (.expr b 5 (.binary .index base i)) (s ++ "[" ++ g ++ t ++ g' ++ "]") := by
  intro n rest hn
  refine ⟨fun hle => absurd hle (by omega), fun _ w Q hends hchains => ?_, fun h => ?_⟩
  · simp only [List.append_assoc]
    exact (hbase n rest hn).2.1 rfl _ Q endsExpr_index (chains_index hg hg' hw hi hchains)
  · exact absurd h (by omega)

theorem reads_linkIndex {base i : Expr} {t g g' : Text} (hg : g.IsGap true) (hg' : g'.IsGap true)
    (hw : Written words room (.expr true 0 i) t)
    (hbase : Reads (room + 3) (.link base) s) (hi : Reads room (.expr true 0 i) t) :
    Reads (room + 3) (.link (.binary .index base i)) (s ++ "[" ++ g ++ t ++ g' ++ "]") := by
  intro n rest w Q r hr hends hchains
  obtain rfl : r = room + 2 := by omega
  simp only [List.append_assoc]
  exact hbase n rest _ Q _ rfl endsExpr_index (chains_index hg hg' hw hi hchains)

/-! ### Members -/

/-- A name or a call starts a chain of members. -/
theorem reads_link
    (h : ∀ n rest, EndsExpr true 6 rest → Takes (room + 1) n identOrCall s rest (· = e)) :
    Reads (room + 1) (.link e) s := by
  intro n rest t Q r hr hends hchains
  obtain rfl : r = room := by omega
  refine Takes.bind (h n _ hends) fun v hv => ?_
  rw [hv]
  exact takes_call hchains.takes

theorem reads_memberLink (hw : Written words room (.link e) s) (h : Reads room (.link e) s) :
    Reads room (.member e) s := by
  intro n rest hrest
  obtain ⟨r, hr⟩ : ∃ r, room = r + 1 := by
    cases hw with
    | linkName | linkCall | linkIndex => exact ⟨_, rfl⟩
  have htakes := h n rest [] _ r hr (hrest.mono (by omega)) (chains_done hrest)
  rwa [List.append_nil] at htakes

theorem reads_attr {base m : Expr} {t : Text} (hw : Written words room (.member m) t)
    (hbase : Reads room (.expr b 5 base) s) (hm : Reads room (.member m) t) :
    Reads room (.expr b 4 (.binary .attr base m)) (s ++ "." ++ t) := by
  intro n rest hn
  refine ⟨fun hle => absurd hle (by omega), fun h => absurd h (by omega), fun _ hrest => ?_⟩
  have hstart : t.StartsWith CodeUnit.isIdentifierStart := hw.starts
  have hmember := hm n rest (hrest.above (by omega))
  rw [List.append_assoc]
  refine (hbase n rest hn).2.1 rfl _ _ ?_ (chains_member hstart hmember)
  exact (endsExpr_member (hstart.append rest)).mono (by omega)

theorem reads_memberMore {base m : Expr} {t : Text} (hw : Written words room (.member m) t)
    (hbase : Reads (room + 1) (.link base) s) (hm : Reads room (.member m) t) :
    Reads (room + 1) (.member (.binary .attr base m)) (s ++ "." ++ t) := by
  intro n rest hrest
  have hstart : t.StartsWith CodeUnit.isIdentifierStart := hw.starts
  rw [List.append_assoc]
  refine hbase n rest _ _ room rfl ?_ (chains_member hstart (hm n rest hrest))
  exact (endsExpr_member (hstart.append rest)).mono (by omega)

/-! ### Operators -/

theorem reads_unary {row : Spelling UnaryOp} {g : Text} (hrow : row ∈ Spelling.unary)
    (hg : g.IsGap b) (hword : row.isWord = true → g ≠ [])
    (hw : Written words room (.expr b 3 e) s) (h : Reads room (.expr b 3 e) s) :
    Reads (room + 1) (.expr b 3 (.unary row.op e)) (row.text ++ g ++ s) := by
  intro n rest hn
  refine ⟨fun hle => absurd hle (by omega), fun h => absurd h (by omega), fun _ hrest => ?_⟩
  -- a sign that `=` follows would be that of an assignment or a comparison
  have hset : (g ++ (s ++ rest)).Avoids (· == 0x3D) := by
    cases g with
    | nil => exact (hw.starts.1.append rest).avoids fun u hu => by rw [beq_iff_eq.mp hu]; rfl
    | cons u g =>
      refine beq_eq_false_of_class (p := CodeUnit.startsGap true) ?_ rfl
      exact Text.startsGap_true_of hg.startsGap
  have hends : row.isWord = true → (g ++ (s ++ rest)).Avoids CodeUnit.isIdentifierChar := by
    intro hisWord
    refine ((hg.startsWith (hword hisWord)).append _).avoids fun u hu => ?_
    rw [← Bool.not_eq_true]
    intro hgap
    rw [CodeUnit.isIdentifierChar_eq_false_of_startsGap hgap] at hu
    exact Bool.noConfusion hu
  rw [List.append_assoc]
  refine Takes.bind (takes_operator ?_) fun found hfound => ?_
  · rw [List.append_assoc]
    exact Spelling.find?_unary_append hrow hends hset
  · rw [hfound]
    refine Takes.bind (takes_gap (by rw [hn]; exact hg) hw.avoids_gap) fun _ _ => takes_call ?_
    refine Takes.bind_done (h.takes hn (by omega) (by omega) hrest) fun v hv => ?_
    rw [hv]
    exact takes_pure rfl

/-- The turns of the loop go on behind the right operand. -/
theorem reads_binary {row : Spelling BinaryOp} {left right : Expr} {g g' t : Text}
    (hlevel : level ≤ 2) (hrow : row ∈ Spelling.binaryTable level) (hg : g.IsGap b) (hne : g ≠ [])
    (hg' : g'.IsGap b) (hne' : g' ≠ []) (hw : Written words room (.expr b (level + 1) right) t)
    (hleft : Reads room (.expr b level left) s)
    (hright : Reads room (.expr b (level + 1) right) t) :
    Reads room (.expr b level (.binary row.op left right)) (s ++ g ++ row.text ++ g' ++ t) := by
  intro n rest hn
  refine ⟨fun _ w Q hends hloops => ?_, fun h => absurd h (by omega), fun h => absurd h (by omega)⟩
  have hturn : ∀ x, x = left → Takes room n (binaryTurn level x) (g ++ row.text ++ (g' ++ t))
      (w ++ rest) fun next => ∃ y, next = .again y ∧ y = .binary row.op left right := by
    rintro x rfl
    refine (takes_binaryTurn_again hlevel hrow (by rwa [hn]) (by rwa [hn]) hne' hw.avoids_gap
      (hright.takes hn (by omega) (by omega) hends)).mono ?_
    rintro _ rfl
    exact ⟨_, rfl, rfl⟩
  have hnonempty : g ++ row.text ++ (g' ++ t) ≠ [] := by simp [hne]
  -- the left operand is read by the same loop, with this turn in front of those to come
  have htakes := (hleft n rest hn).1 hlevel (g ++ row.text ++ (g' ++ t) ++ w) Q ?_
    (Loops.again hturn hnonempty hloops)
  · simpa only [List.append_assoc] using htakes
  · simpa only [List.append_assoc] using endsExpr_operator hlevel hrow hg hne hg' hne'

/-! ### Lists -/

/-- An item of a list, which a comma or a closing bracket follows behind a gap. -/
theorem takes_item {g : Text} {u : CodeUnit} (hn : (n != 0) = true) (hg : g.IsGap true)
    (hu : u.separates = true) (h : Reads room (.expr true 0 e) s) :
    Takes (room + 1) n Expression.expr s (g ++ u :: rest) (· = e) :=
  takes_call (h.takes hn (by omega) (by omega) (endsExpr_separator hg hu))

/-- What is written as items starts with an operand, or is empty before a closing bracket. -/
theorem avoids_of_starts {p : CodeUnit → Bool} {t r : Text} {u : CodeUnit}
    (ht : t = [] ∨ t.StartsWith CodeUnit.startsOperand) (hu : p u = false)
    (hp : ∀ v, p v = true → v.startsOperand = false) : (t ++ u :: r).Avoids p := by
  rcases ht with rfl | ht
  · exact hu
  · exact (ht.append _).avoids hp

theorem startsOperand_of_startsGap {c : Bool} (u : CodeUnit) (hu : u.startsGap c = true) :
    u.startsOperand = false :=
  CodeUnit.startsOperand_eq_false_of_startsGap (startsGap_true_of hu)

/-- No expression starts with a sign that none of its first units is. -/
theorem avoids_of_written {c : CodeUnit} {level : Nat} (hc : c.startsOperand = false)
    (hw : Written words room (.expr b level e) s) : (s ++ rest).Avoids (· == c) := by
  refine (hw.starts.1.append _).avoids fun u hu => ?_
  rw [beq_iff_eq.mp hu, hc]

theorem reads_lastItem {m : Bool} {g : Text} (hg : g.IsGap true)
    (hw : Written words room (.expr true 0 e) s) (h : Reads room (.expr true 0 e) s) :
    Reads (room + 1) (.items m [e]) (s ++ g) := by
  cases m with
  | false =>
    intro n rest found hn
    exact loops_commaTurn_last (takes_item hn hg (by decide) h) (by rwa [hn]) (by decide) (by decide)
  | true =>
    intro n rest found hn
    rw [List.append_assoc]
    exact loops_itemsTurn_last (takes_item hn hg (by decide) h) (avoids_of_written (by decide) hw)
      (by rwa [hn]) (by decide) (by decide)

theorem reads_item {m : Bool} {g g' t : Text} {es : List Expr} (hg : g.IsGap true)
    (hg' : g'.IsGap true) (hw : Written words room (.expr true 0 e) s)
    (hws : Written words (room + 1) (.items m es) t) (h : Reads room (.expr true 0 e) s)
    (hs : Reads (room + 1) (.items m es) t) :
    Reads (room + 1) (.items m (e :: es)) (s ++ g ++ "," ++ g' ++ t) := by
  have hreverse : ∀ found, es.reverse ++ (e :: found) = (e :: es).reverse ++ found := by simp
  cases m with
  | false =>
    intro n rest found hn
    have hloops := hs n rest (e :: found) hn
    rw [hreverse] at hloops
    have hrest : (t ++ 0x29 :: rest).Avoids (CodeUnit.startsGap (n != 0)) :=
      avoids_of_starts hws.starts (by rw [hn]; rfl) startsOperand_of_startsGap
    simpa only [List.append_assoc] using loops_commaTurn_comma (takes_item hn hg (by decide) h)
      hw.starts.1.ne_nil (by rwa [hn]) (by rwa [hn]) hrest hloops
  | true =>
    intro n rest found hn
    have hloops := hs n rest (e :: found) hn
    rw [hreverse] at hloops
    have hrest : (t ++ [0x5D] ++ rest).Avoids (CodeUnit.startsGap (n != 0)) := by
      rw [List.append_assoc]
      exact avoids_of_starts hws.starts (by rw [hn]; rfl) startsOperand_of_startsGap
    simpa only [List.append_assoc] using loops_itemsTurn_comma (takes_item hn hg (by decide) h)
      (avoids_of_written (by decide) hw) hw.starts.1.ne_nil (by rwa [hn]) (by rwa [hn]) hrest hloops

/-- A key and its value, with a colon between them. -/
theorem takes_pair {k v : Expr} {h h' t g : Text} {u : CodeUnit} (hn : (n != 0) = true)
    (hg : g.IsGap true) (hu : u.separates = true) (hh : h.IsGap true) (hh' : h'.IsGap true)
    (hwv : Written words room (.expr true 0 v) t) (hk : Reads room (.expr true 0 k) s)
    (hv : Reads room (.expr true 0 v) t) :
    Takes (room + 2) n (call Rule.pair) (s ++ (h ++ (":" ++ (h' ++ t)))) (g ++ u :: rest)
      (· = (k, v)) := by
  refine takes_call (Takes.bind (P := (· = k)) ?_ fun key hkey => ?_)
  · simp only [List.append_assoc]
    exact takes_item hn hh (by decide) hk
  refine Takes.bind (takes_gap_sign (by rwa [hn]) (by decide)) fun _ _ => ?_
  refine Takes.bind (takes_expect ":") fun _ _ => ?_
  refine Takes.bind (takes_gap (by rwa [hn]) hwv.avoids_gap) fun _ _ => ?_
  refine Takes.bind_done (takes_item hn hg hu hv) fun value hvalue => ?_
  rw [hkey, hvalue]
  exact takes_pure rfl

theorem reads_lastPair {k v : Expr} {h h' t g : Text} (hh : h.IsGap true) (hh' : h'.IsGap true)
    (hg : g.IsGap true) (hwk : Written words room (.expr true 0 k) s)
    (hwv : Written words room (.expr true 0 v) t) (hk : Reads room (.expr true 0 k) s)
    (hv : Reads room (.expr true 0 v) t) :
    Reads (room + 2) (.pairs [(k, v)]) (s ++ h ++ ":" ++ h' ++ t ++ g) := by
  intro n rest found hn
  have hpair : Takes (room + 2) n (call Rule.pair) (s ++ (h ++ (":" ++ (h' ++ t))))
      (g ++ 0x7D :: rest) (· = (k, v)) := takes_pair hn hg (by decide) hh hh' hwv hk hv
  have hloops : Loops (room + 2) n (itemsTurn [0x7D] (call Rule.pair)) _ rest (· = found)
      (· = (k, v) :: found) := loops_itemsTurn_last hpair
    (by rw [List.append_assoc]; exact avoids_of_written (by decide) hwk) (by rwa [hn]) (by decide)
    (by decide)
  rw [show [(k, v)].reverse ++ found = (k, v) :: found from rfl]
  simpa only [List.append_assoc] using hloops

theorem reads_pair {k v : Expr} {ps : List (Expr × Expr)} {h h' t g g' w : Text}
    (hh : h.IsGap true) (hh' : h'.IsGap true) (hg : g.IsGap true) (hg' : g'.IsGap true)
    (hwk : Written words room (.expr true 0 k) s) (hwv : Written words room (.expr true 0 v) t)
    (hws : Written words (room + 2) (.pairs ps) w) (hk : Reads room (.expr true 0 k) s)
    (hv : Reads room (.expr true 0 v) t) (hs : Reads (room + 2) (.pairs ps) w) :
    Reads (room + 2) (.pairs ((k, v) :: ps)) (s ++ h ++ ":" ++ h' ++ t ++ g ++ "," ++ g' ++ w) := by
  intro n rest found hn
  have hreverse : ps.reverse ++ ((k, v) :: found) = ((k, v) :: ps).reverse ++ found := by simp
  have hloops := hs n rest ((k, v) :: found) hn
  rw [hreverse] at hloops
  have hrest : (w ++ [0x7D] ++ rest).Avoids (CodeUnit.startsGap (n != 0)) := by
    rw [List.append_assoc]
    exact avoids_of_starts hws.starts (by rw [hn]; rfl) startsOperand_of_startsGap
  have hpair : Takes (room + 2) n (call Rule.pair) (s ++ (h ++ (":" ++ (h' ++ t))))
      (g ++ 0x2C :: (g' ++ (w ++ [0x7D] ++ rest))) (· = (k, v)) :=
    takes_pair hn hg (by decide) hh hh' hwv hk hv
  have hagain := loops_itemsTurn_comma hpair
    (by rw [List.append_assoc]; exact avoids_of_written (by decide) hwk)
    (hwk.starts.1.append _).ne_nil (by rwa [hn]) (by rwa [hn]) hrest hloops
  simpa only [List.append_assoc] using hagain

theorem reads_noArguments {g : Text} (hg : g.IsGap true) :
    Reads room (.arguments []) (("(" : Text) ++ g ++ ")") := by
  intro n rest
  rw [List.append_assoc]
  refine Takes.bind (takes_expect "(") fun _ _ => takes_bracketed ?_
  refine Takes.bind (takes_gap_sign hg (by decide)) fun _ _ => ?_
  refine Takes.bind_done (takes_consume ")") fun found hfound => ?_
  rw [hfound]
  exact takes_pure rfl

theorem reads_arguments {es : List Expr} {g t : Text} (hg : g.IsGap true)
    (ht : t.StartsWith CodeUnit.startsOperand) (h : Reads room (.items false es) t) :
    Reads room (.arguments es) (("(" : Text) ++ g ++ t ++ ")") := by
  intro n rest
  simp only [List.append_assoc]
  refine takes_parenthesized hg ((ht.append _).avoids startsOperand_of_startsGap) ?_ ?_
  · refine (ht.append _).avoids fun u hu => ?_
    rw [beq_iff_eq.mp hu]
    rfl
  · have hloops := h (n + 1) rest [] rfl
    rwa [List.append_nil] at hloops

/-! ### Values with parts -/

theorem reads_array {es : List Expr} {g t : Text} (hg : g.IsGap true)
    (hw : Written words room (.items true es) t) (h : Reads room (.items true es) t) :
    Reads (room + 2) (.expr b 6 (.array es)) (("[" : Text) ++ g ++ t ++ "]") := by
  refine reads_of_primary fun n rest _ _ => ?_
  simp only [List.append_assoc]
  refine takes_primary_value (by decide) (takes_call ?_)
  refine Takes.bind (s := "[") (takes_expect "[") fun _ _ => ?_
  have hgap : (t ++ "]" ++ rest).Avoids (CodeUnit.startsGap true) := by
    rw [List.append_assoc]
    exact avoids_of_starts hw.starts rfl startsOperand_of_startsGap
  have hloops := h (n + 1) rest [] rfl
  rw [List.append_nil] at hloops
  refine Takes.bind_done (takes_itemsUntil hg hgap hloops) fun items hitems => ?_
  rw [hitems]
  exact takes_pure rfl

theorem reads_object {ps : List (Expr × Expr)} {g t : Text} (hg : g.IsGap true)
    (hw : Written words room (.pairs ps) t) (h : Reads room (.pairs ps) t) :
    Reads (room + 2) (.expr b 6 (.object ps)) (("\x7b" : Text) ++ g ++ t ++ "\x7d") := by
  refine reads_of_primary fun n rest _ _ => ?_
  simp only [List.append_assoc]
  refine takes_primary_value (by decide) (takes_call ?_)
  refine Takes.bind (s := "\x7b") (takes_expect "\x7b") fun _ _ => ?_
  have hgap : (t ++ "\x7d" ++ rest).Avoids (CodeUnit.startsGap true) := by
    rw [List.append_assoc]
    exact avoids_of_starts hw.starts rfl startsOperand_of_startsGap
  have hloops := h (n + 1) rest [] rfl
  rw [List.append_nil] at hloops
  refine Takes.bind_done (takes_itemsUntil hg hgap hloops) fun pairs hpairs => ?_
  rw [hpairs]
  exact takes_pure rfl

theorem reads_call {name t : Text} {es : List Expr} (hname : name.IsValueName words)
    (hw : Written words room (.arguments es) t) (h : Reads room (.arguments es) t) :
    Reads (room + 2) (.expr b 6 (.call name es)) (name ++ t) := by
  refine reads_of_primary fun n rest _ _ => ?_
  have hopen : t.StartsWith (· == 0x28) := hw.starts
  have hword : (t ++ rest).Avoids CodeUnit.isIdentifierChar :=
    (hopen.append rest).avoids fun u hu => beq_eq_false_of_class hu rfl
  exact takes_primary_name hname.isName hname.not_constant hword
    (takes_functionCall hname.isName hopen (h n rest))

/-! ### Every phrase -/

theorem reads_of_written {p : Phrase} (hnot : ("not" : Text) ∈ words)
    (h : Written words room p s) : p.Reads room s := by
  induction h with
  | constant h => exact reads_of_primary fun n rest _ hrest => takes_constant h hrest
  | int h hmax => exact reads_of_primary fun n rest _ hrest => takes_int h hmax hrest
  | float h => exact reads_of_primary fun n rest _ hrest => takes_float h hrest
  | string h => exact reads_of_primary fun n rest _ _ => takes_string h
  | nodePath h => exact reads_of_primary fun n rest _ hrest => takes_nodePath h hrest
  | @name _ room name h =>
    refine reads_of_primary fun n rest _ hrest => ?_
    have htakes : Takes (room + 1) n primary (name ++ []) rest (· = .ident name) := by
      refine takes_primary_name h.isName h.not_constant hrest.word ?_
      rw [List.append_nil]
      exact takes_ident h.isName hrest.word hrest.call
    rwa [List.append_nil] at htakes
  | call h hw ih => exact reads_call h hw ih
  | array hg hw ih => exact reads_array hg hw ih
  | object hg hw ih => exact reads_object hg hw ih
  | parens hg hw hg' ih => exact reads_parens hg hg' hw ih
  | index _ hg hw hg' ih ihi => exact reads_index hg hg' hw ih ihi
  | attr _ hw ih ihm => exact reads_attr hw ih ihm
  | unary hrow hg hword hw ih => exact reads_unary hrow hg hword hw ih
  | binary hlevel hrow _ hg hne hg' hne' hw ih ihr =>
    exact reads_binary hlevel hrow hg hne hg' hne' hw ih ihr
  | tighter hlevel hw ih => exact reads_tighter hlevel hw hnot ih
  | linkName h => exact reads_link fun n rest hrest => takes_ident h hrest.word hrest.call
  | linkCall h hw ih => exact reads_link fun n rest _ => takes_functionCall h hw.starts (ih n rest)
  | linkIndex _ hg hw hg' ih ihi => exact reads_linkIndex hg hg' hw ih ihi
  | memberLink hw ih => exact reads_memberLink hw ih
  | memberMore _ hw ih ihm => exact reads_memberMore hw ih ihm
  | noArguments hg => exact reads_noArguments hg
  | arguments hg hw ih =>
    refine reads_arguments hg ?_ ih
    cases hw with
    | lastItem he => exact he.starts.1.append _
    | item he =>
      simp only [List.append_assoc]
      exact he.starts.1.append _
  | noItems => exact fun n rest found hn => loops_itemsTurn_closer
  | lastItem hw hg ih => exact reads_lastItem hg hw ih
  | item hw hg hg' hws ih ihs => exact reads_item hg hg' hw hws ih ihs
  | noPairs => exact fun n rest found hn => loops_itemsTurn_closer
  | lastPair hwk hh hh' hwv hg ihk ihv => exact reads_lastPair hh hh' hg hwk hwv ihk ihv
  | pair hwk hh hh' hwv hg hg' hws ihk ihv ihs =>
    exact reads_pair hh hh' hg hg' hwk hwv hws ihk ihv ihs

end Phrase

/-- A written expression is read by the rule for expressions, where nothing goes on with it. -/
theorem Expression.takes_written {words : List Text} {room n : Nat} {e : Expr} {s rest : Text}
    (hnot : ("not" : Text) ∈ words) (h : Phrase.Written words room (.expr (n != 0) 0 e) s)
    (hrest : rest.EndsExpr (n != 0) 0) : Takes (room + 1) n Expression.expr s rest (· = e) :=
  takes_call ((Phrase.reads_of_written hnot h).takes rfl (by omega) (by omega) hrest)

/--
Every well-formed expression is written by some text. Every text that spells it is read as that
expression and nothing behind it is taken, at any cursor and inside any brackets, whenever there is
room for the rules that the text needs; with less room the reading may fail, but only because the
rules are nested too deeply.
-/
theorem Expression.expr_round_trip {e : Expr} (he : e.Fits ["not"] .value) :
    (∀ b, ∃ s room, Phrase.Written ["not"] room (.expr b 0 e) s) ∧
    ∀ (scope : Scope) (cursor : Cursor) (journal : Journal) (s rest : Text) (room : Nat),
      Phrase.Written ["not"] room (.expr (scope.nesting != 0) 0 e) s →
      rest.EndsExpr (scope.nesting != 0) 0 → cursor.ahead = s ++ rest →
        ∀ given, (∃ journal', run given Expression.expr scope cursor journal
            = .finished e (cursor.advanceBy s.length) journal') ∨
          given ≤ room ∧ (run given Expression.expr scope cursor journal).IsTooDeep := by
  refine ⟨fun b => he.exists_written b (Nat.zero_le 6), ?_⟩
  intro scope cursor journal s rest room hw hrest ha given
  have hreads : ∀ more, room ≤ more → ∃ journal', run (more + 1) Expression.expr scope cursor journal
      = .finished e (cursor.advanceBy s.length) journal' := by
    intro more hmore
    obtain ⟨v, journal', hrun, rfl⟩ := Expression.takes_written List.mem_cons_self (hw.mono hmore)
      hrest scope cursor journal rfl ha
    exact ⟨journal', hrun⟩
  -- with the room that the text needs the run is known; with less it differs only by ending early
  by_cases hgiven : given ≤ room
  · obtain ⟨journal', hrun⟩ := hreads room (Nat.le_refl room)
    rcases run_eq_or_isTooDeep (show given ≤ room + 1 by omega) Expression.expr scope cursor journal
      with heq | hdeep
    · exact .inl ⟨journal', heq.trans hrun⟩
    · exact .inr ⟨hgiven, hdeep⟩
  · obtain ⟨more, rfl⟩ : ∃ more, given = more + 1 := ⟨given - 1, by omega⟩
    exact .inl (hreads more (by omega))

/-- The sum `a + 1` before a colon. -/
theorem Expression.expr_round_trip_sum :
    ∃ journal, run 3 Expression.expr ⟨[], 0, 512⟩ (Cursor.ofText "a + 1:") []
      = .finished (.binary .add (.ident "a") (.int ⟨1, "1"⟩))
          ((Cursor.ofText "a + 1:").advanceBy 5) journal := by
  have hspace : IsGap false [CodeUnit.space] := fun u hu => by rw [List.mem_singleton.mp hu]; rfl
  have hname : IsValueName ["not"] "a" := ⟨by decide, by decide, by decide⟩
  have hone : IntLiteral.IsNumeral ⟨1, "1"⟩ := .decimal (show IsRun _ "1" by decide)
  have hfits : Expr.Fits ["not"] .value (.binary .add (.ident "a") (.int ⟨1, "1"⟩)) :=
    .binary (by decide) (by decide) (.ident (by decide) hname) (.int hone (by decide))
  have ha : Phrase.Written ["not"] 2 (.expr false 1 (.ident "a")) "a" :=
    (Phrase.Written.name hname).looser (by omega) (by omega)
  have hi : Phrase.Written ["not"] 2 (.expr false 2 (.int ⟨1, "1"⟩)) "1" :=
    (Phrase.Written.int hone (by decide)).looser (by omega) (by omega)
  have hplus : Spelling.signUnless "+" BinaryOp.add "=" ∈ Spelling.binaryTable 1 := by decide
  have hsum := Phrase.Written.binary (by omega) hplus ha hspace (by simp) hspace (by simp) hi
  have hends : EndsExpr false 0 ":" := endsExpr_separator (g := []) (isGap_nil false) (by decide)
  rcases (Expression.expr_round_trip hfits).2 ⟨[], 0, 512⟩ (Cursor.ofText "a + 1:") [] _ ":" 2
    (.tighter (by omega) hsum) hends rfl 3 with h | ⟨h, -⟩
  · exact h
  · exact absurd h (by decide)

end GDScript
