import GDScript.Proofs.Progress

/-!
# Loops, turn by turn

A run allows a loop one turn more than there are units ahead. Where every turn that asks for another
one takes a unit, the exact number does not matter (`Grammar.turns_eq_of_lt`). So such a loop is its
first turn, and then what this turn asks for: the same loop again from where the turn ended, or the end
(`Grammar.run_iterate_eq_run_follow`).
-/

namespace GDScript.Grammar

variable {R : Type → Type} [RuleSet R] {σ : Type} {room : Nat} {turn : σ → Grammar R (Next σ)}
  {scope : Scope} {c : Cursor}

/-- What a turn asks for: the other turns, or the end. -/
def follow (turn : σ → Grammar R (Next σ)) : Next σ → Grammar R σ
  | .again y => iterate turn y
  | .done y => Pure.pure y

/-- More turns than there are units ahead are as good as any other such number. -/
theorem turns_eq_of_lt (h : TurnsAdvance room turn) (x : σ) (journal : Journal) {m n : Nat}
    (hm : c.ahead.length < m) (hn : c.ahead.length < n) :
    Parser.turns (fun y => run room (turn y)) m x scope c journal
      = Parser.turns (fun y => run room (turn y)) n x scope c journal := by
  induction m generalizing n x c journal with
  | zero => exact absurd hm (Nat.not_lt_zero _)
  | succ m ih =>
    obtain ⟨n, rfl⟩ : ∃ k, n = k + 1 := ⟨n - 1, by omega⟩
    unfold Parser.turns Parser.bind
    cases hturn : run room (turn x) scope c journal with
    | failed failure journal' => rfl
    | finished next c' journal' =>
      have hlt := h x c scope journal next c' journal' hturn
      cases next with
      | done y => rfl
      | again y =>
        -- a unit less is ahead, which pays for the turn on both sides
        apply ih
        · exact Nat.lt_of_lt_of_le hlt (Nat.lt_succ_iff.mp hm)
        · exact Nat.lt_of_lt_of_le hlt (Nat.lt_succ_iff.mp hn)

/-- A loop is its first turn and what this turn asks for. -/
theorem run_iterate_eq_run_follow (h : TurnsAdvance room turn) (x : σ) :
    run room (iterate turn x) = run room (turn x >>= follow turn) := by
  funext scope c journal
  rw [run_iterate, Parser.iterate, Parser.turns, run_bind, Parser.bind, Parser.bind]
  cases hturn : run room (turn x) scope c journal with
  | failed failure journal' => rfl
  | finished next c' journal' =>
    have hlt := h x c scope journal next c' journal' hturn
    cases next with
    | done y => exact (congrFun (congrFun (congrFun (run_pure room y) scope) c') journal').symm
    | again y =>
      show Parser.turns _ c.ahead.length y scope c' journal' = run room (iterate turn y) scope c' journal'
      rw [run_iterate]
      exact turns_eq_of_lt h y journal' hlt (Nat.lt_succ_self _)

end GDScript.Grammar
