import GDScript.Grammar.Language
import GDScript.Proofs.Invariant
import GDScript.Proofs.Room

/-!
# The depth limit

The depth limit decides whether a script is read to the end, and nothing else
(`Script.parse_eq_of_le`). A run asks for the limit only when it exceeds it, so apart from that it
runs under every limit as it does under a higher one. And a run that exceeds the limit ends with the
error that says so: no alternative is tried after it, no attempt gives up on it, and nothing replaces
it. There are as many rules around it then as the limit allows, since each of them took one unit of
the room.
-/

namespace GDScript

/-! ### Other limits -/

namespace Parser

variable {α : Type}

theorem EqOrTooDeep.trans {p q r : Parser α} (h : EqOrTooDeep p q) (h' : EqOrTooDeep q r) :
    EqOrTooDeep p r := by
  intro scope cursor journal
  rcases h scope cursor journal with heq | hdeep
  · rw [heq]
    exact h' scope cursor journal
  · exact .inr hdeep

/-- The parser under another depth limit. -/
def under (limit : Int) (p : Parser α) : Parser α :=
  fun scope cursor journal => p { scope with limit := limit } cursor journal

theorem turns_under {σ : Type} (limit : Int) (turn : σ → Parser (Next σ)) (n : Nat) (x : σ) :
    turns (fun y => under limit (turn y)) n x = under limit (turns turn n x) := by
  induction n generalizing x with
  | zero => rfl
  | succ n ih =>
    simp only [turns, ih]
    funext scope cursor journal
    simp only [bind, under]
    cases turn x { scope with limit := limit } cursor journal with
    | finished next c j => cases next <;> rfl
    | failed failure j => rfl

theorem iterate_under {σ : Type} (limit : Int) (turn : σ → Parser (Next σ)) (x : σ) :
    iterate (fun y => under limit (turn y)) x = under limit (iterate turn x) := by
  funext scope cursor journal
  simp only [iterate, turns_under]
  rfl

end Parser

namespace Grammar

open GDScript.Parser (EqOrTooDeep under)

variable {R : Type → Type} [RuleSet R] {α : Type}

/-- A way to enter rules that does not ask for the limit makes runs that do not. -/
theorem runWith_eqOrTooDeep_under {enter : Entry R} {limit : Int}
    (h : ∀ (β : Type) (label : Text) (g : Grammar R β),
      EqOrTooDeep (enter β label g) (under limit (enter β label g))) (g : Grammar R α) :
    EqOrTooDeep (runWith enter g) (under limit (runWith enter g)) := by
  induction g with
  | pure | read | note | here | nesting | abort => exact .refl _
  | bind _ _ ih ihf => exact .bind ih ihf
  -- a rule is entered through `enter`, of which this is the hypothesis
  | call rule => exact h _ _ _
  | within label g => exact h _ _ _
  | bracketed _ ih => exact .bracketed ih
  | attempt _ ih => exact .attempt ih
  | orElse _ _ ih ih' => exact .orElse ih ih'
  | rewindIf forget _ ih => exact .rewindIf forget ih
  | iterate turn x ih =>
    have hiterate := EqOrTooDeep.iterate ih x
    rwa [Parser.iterate_under] at hiterate
  | blame _ ih => exact .blame ih
  | watch step _ ih => exact .watch step ih

theorem run_eqOrTooDeep_under (room : Nat) (limit : Int) (g : Grammar R α) :
    EqOrTooDeep (run room g) (under limit (run room g)) := by
  rw [run_eq_runWith]
  induction room generalizing α g with
  | zero => exact runWith_eqOrTooDeep_under (fun _ _ _ => Parser.eqOrTooDeep_tooDeep _) g
  | succ room ih =>
    refine runWith_eqOrTooDeep_under (fun _ label g => ?_) g
    have hbody : EqOrTooDeep (run room g) (under limit (run room g)) := by
      rw [run_eq_runWith]
      exact ih g
    -- the limit of a scope stays the same when a rule is entered
    exact hbody.within label

/-- A run ends as it does under a higher limit, or because it exceeds its own. -/
theorem start_eq_or_isTooDeep {limit limit' : Int} (hle : limit ≤ limit') (nesting : Nat)
    (c : Cursor) (g : Grammar R α) :
    start limit nesting c g = start limit' nesting c g ∨ (start limit nesting c g).IsTooDeep := by
  have hroom : EqOrTooDeep (run limit.toNat g) (run limit'.toNat g) :=
    fun scope cursor journal => run_eq_or_isTooDeep (Int.toNat_le_toNat hle) g scope cursor journal
  exact hroom.trans (run_eqOrTooDeep_under limit'.toNat limit' g) _ c []

end Grammar

/-! ### Where the limit is exceeded -/

/-- The error says that the limit is exceeded, inside so many rules. -/
structure ParseError.IsTooDeep (total : Nat) (e : ParseError) : Prop where
  code_eq : e.code = .nestingTooDeep
  recoverable_eq : e.recoverable = false
  length_frames : e.frames.length = total

/-- The limit is not exceeded until the run ends with the error for it. -/
def Invariant.limit (total : Nat) : Invariant where
  scope room s := s.frames.length + room = total
  cursor _ := True
  journal j := j.WithinLimit
  -- an exceeded limit is the last thing of a run, and it is what the run fails with
  failure f j := ∀ e, .exceeded e ∈ j → f = .parse e ∧ e.IsTooDeep total
  enter label hs _ := by
    rw [List.length_cons, ← hs]
    omega
  nest hs := hs
  advance _ _ := trivial
  raise _ _ _ hj e he := absurd he (hj.cons (by simp) e)
  note _ _ _ hj := hj.cons (by simp)
  exceed hs _ hj e he := by
    rcases List.mem_cons.mp he with heq | hmem
    · cases heq
      exact ⟨rfl, rfl, rfl, hs⟩
    · exact absurd hmem (hj e)
  abort _ hj e he := absurd he (hj e)
  -- no choice goes on behind an exceeded limit, since its error is not recoverable
  resume {e _} he h e' he' := by
    obtain ⟨heq, hdeep⟩ := h e' he'
    cases heq
    rw [hdeep.recoverable_eq] at he
    exact Bool.noConfusion he
  raiseAgain _ _ hj e' he' := absurd he' (hj e')
  abandon _ hj := hj.cons (by simp)
  blame _ hj e' he' := absurd he' (hj e')
  watch _ hj := hj.cons (by simp)
  watch_failure w h e he := h e (by simpa using he)

/-- The error lies inside no more rules than are allowed, and a final one inside just as many. -/
structure ParseError.FitsLimit (total : Nat) (e : ParseError) : Prop where
  length_le : e.frames.length ≤ total
  length_eq : e.recoverable = false → e.frames.length = total

/-- No more rules are active than are allowed. -/
def Invariant.room (total : Nat) : Invariant where
  scope room s := s.frames.length + room = total
  cursor _ := True
  journal j := ∀ e ∈ j.failures, e.FitsLimit total
  failure f j := (∀ e ∈ j.failures, e.FitsLimit total) ∧ ∀ e, f = .parse e → e.FitsLimit total
  enter label hs _ := by
    rw [List.length_cons, ← hs]
    omega
  nest hs := hs
  advance _ _ := trivial
  raise {room s c _} complaint hs _ hj := by
    have he : ∀ l, (complaint.error l s).FitsLimit total := fun l =>
      ⟨hs ▸ Nat.le_add_right _ _, fun h => Bool.noConfusion h⟩
    exact ⟨List.forall_mem_cons.mpr ⟨he _, hj⟩, fun e heq => Failure.parse.inj heq ▸ he _⟩
  note {room s c _} complaint hs _ hj :=
    List.forall_mem_cons.mpr ⟨⟨hs ▸ Nat.le_add_right _ _, fun h => Bool.noConfusion h⟩, hj⟩
  exceed {s c _} hs _ hj := by
    have he : (s.tooDeep c.location).FitsLimit total := ⟨Nat.le_of_eq hs, fun _ => hs⟩
    exact ⟨List.forall_mem_cons.mpr ⟨he, hj⟩, fun e heq => Failure.parse.inj heq ▸ he⟩
  abort defect hj := ⟨hj, fun e heq => by cases defect <;> cases heq⟩
  resume _ h := h.1
  raiseAgain _ h hj := ⟨hj, h.2⟩
  abandon _ hj := hj
  -- the furthest error is one of those that were raised before
  blame hbest hj :=
    ⟨hj, fun e heq => Failure.parse.inj heq ▸ hj _ (Journal.mem_failures_of_furthest hbest)⟩
  watch _ hj := hj
  watch_failure _ h := h

namespace Grammar

variable {R : Type → Type} [RuleSet R] {α : Type}

/-- A run that exceeds the limit ends with the error for it, inside as many rules as are allowed. -/
theorem exists_of_exceeded {limit : Int} {nesting : Nat} {c : Cursor} {g : Grammar R α}
    {e : ParseError} (h : .exceeded e ∈ (start limit nesting c g).journal) :
    (∃ journal, start limit nesting c g = .failed (.parse e) journal) ∧
      e.IsTooDeep limit.toNat := by
  have hmeets := keeps (.limit limit.toNat) limit.toNat g ⟨[], nesting, limit⟩ c []
    (Nat.zero_add _) trivial Journal.withinLimit_nil
  rw [start] at h ⊢
  cases hrun : run limit.toNat g ⟨[], nesting, limit⟩ c [] with
  | finished v c' journal =>
    rw [hrun] at h hmeets
    exact absurd h (hmeets.2 e)
  | failed failure journal =>
    rw [hrun] at h hmeets
    obtain ⟨rfl, hdeep⟩ := hmeets e h
    exact ⟨⟨journal, rfl⟩, hdeep⟩

end Grammar

/-! ### Scripts -/

namespace Script

open Grammar

/--
A script that is not nested too deeply for a limit is read alike under every higher one. Where a run
exceeds the limit, it ends with the error that says so, inside as many rules as the limit allows, and
so does the script.
-/
theorem parse_eq_of_le (source : Text) {d d' : Int} (hle : d ≤ d') (hgreatest : d' ≤ 1024) :
    ((∀ e, parse source (some d) = .error (.parse e) → e.code ≠ .nestingTooDeep) →
      parse source (some d') = parse source (some d)) ∧
    (∀ e, .exceeded e ∈ (run source (some d) (call .file)).journal →
      parse source (some d) = .error (.parse e) ∧ e.code = .nestingTooDeep ∧
        (e.frames.length : Int) = max d 0) ∧
    ∀ {α : Type} (g : Grammar Rule α) e, .exceeded e ∈ (run source (some d) g).journal →
      (∃ journal, run source (some d) g = .failed (.parse e) journal) ∧
        e.code = .nestingTooDeep ∧ (e.frames.length : Int) = max d 0 := by
  have hlimit : depthLimit (some d) ≤ depthLimit (some d') := by
    simp only [depthLimit, Option.getD_some]
    omega
  have htotal : ((depthLimit (some d)).toNat : Int) = max d 0 := by
    simp only [depthLimit, greatestDepth, Option.getD_some]
    omega
  have hall : ∀ {α : Type} (g : Grammar Rule α) e, .exceeded e ∈ (run source (some d) g).journal →
      (∃ journal, run source (some d) g = .failed (.parse e) journal) ∧
        e.code = .nestingTooDeep ∧ (e.frames.length : Int) = max d 0 := by
    intro α g e he
    obtain ⟨hfailed, hdeep⟩ := exists_of_exceeded he
    exact ⟨hfailed, hdeep.code_eq, by rw [hdeep.length_frames, htotal]⟩
  refine ⟨fun hcode => ?_, fun e he => ?_, hall⟩
  · -- the run under the smaller limit is the other one, or ends with its own limit
    rcases start_eq_or_isTooDeep hlimit 0 (Cursor.ofText source) (call Rule.file) with heq | hdeep
    · rw [parse, parse, run, run, heq]
    · obtain ⟨e, journal, hfailed, hnested, -⟩ := hdeep
      refine absurd hnested (hcode e ?_)
      rw [parse, run, hfailed]
  · obtain ⟨⟨journal, hfailed⟩, hdeep⟩ := hall (call .file) e he
    exact ⟨by rw [parse, hfailed], hdeep⟩

/-- Two parentheses are nested too deeply for seven rules, and not for twenty. -/
theorem parse_eq_of_le_parens :
    parse "((a))" (some 30) = parse "((a))" (some 20) ∧
      ∃ e, .exceeded e ∈ (run "((a))" (some 7) (call .file)).journal ∧
        parse "((a))" (some 7) = .error (.parse e) ∧ e.code = .nestingTooDeep ∧
          (e.frames.length : Int) = max 7 0 := by
  have hok : (parse "((a))" (some 20)).isOk = true := by decide +kernel
  refine ⟨(parse_eq_of_le "((a))" (by decide) (by decide)).1 fun e he => ?_, ?_⟩
  · rw [he] at hok
    exact Bool.noConfusion hok
  · -- the kernel looks for an event of the kind, of which the theorem tells the rest
    have hany : (run "((a))" (some 7) (call .file)).journal.any
        (fun | .exceeded _ => true | _ => false) = true := by decide +kernel
    obtain ⟨event, hmem, hevent⟩ := List.any_eq_true.mp hany
    cases event with
    | exceeded e =>
      exact ⟨e, hmem, (parse_eq_of_le "((a))" (Int.le_refl 7) (by decide)).2.1 e hmem⟩
    | _ => exact Bool.noConfusion hevent

end Script

end GDScript
