import GDScript.Proofs.Lexeme.Numeral
import Mathlib.Data.List.Induction
import Mathlib.Data.Nat.Digits.Defs
import Mathlib.Tactic.IntervalCases

/-!
# Digits

`Text.numeral` writes a natural number in a base, as `Text.ofNat` does in base ten, and `Text.value`
reads it back (`Text.value_numeral`). Zeros in front change nothing, so every number has integers of
any length in both spellings (`IntLiteral.isNumeral_decimal`, `IntLiteral.isNumeral_hexadecimal`).
-/

namespace GDScript

namespace Text

/-- The number that a run of digits denotes is the sum of the digits by their places. -/
theorem value_eq_ofDigits (base : Nat) (s : Text) :
    value base s = Nat.ofDigits base (s.reverse.map CodeUnit.digitValue) := by
  induction s using List.reverseRecOn with
  | nil => rfl
  | append_singleton s u ih =>
    rw [value_concat, List.reverse_append, List.reverse_singleton, List.singleton_append,
      List.map_cons, Nat.ofDigits_cons, ← ih]
    rw [Nat.mul_comm, Nat.add_comm]

/-! ### Writing a number -/

/-- The unit of a digit; letters are small ones. -/
def digit (d : Nat) : CodeUnit := UInt16.ofNat (Nat.digitChar d).toNat

/-- The numeral of a natural number in a base. -/
def numeral (base n : Nat) : Text := (Nat.toDigits base n).map fun c => UInt16.ofNat c.toNat

theorem digitValue_digit {d : Nat} (h : d < 16) : (digit d).digitValue = d := by
  interval_cases d <;> rfl

theorem isHexDigit_digit {d : Nat} (h : d < 16) : (digit d).isHexDigit = true := by
  interval_cases d <;> rfl

theorem isDigit_digit {d : Nat} (h : d < 10) : (digit d).isDigit = true := by
  interval_cases d <;> rfl

variable {base : Nat}

/-- The last digit comes off the end. -/
theorem numeral_eq (hbase : 1 < base) (n : Nat) : numeral base n =
    if n < base then [digit n] else numeral base (n / base) ++ [digit (n % base)] := by
  unfold numeral
  rw [Nat.toDigits_eq_if hbase]
  split
  · rfl
  · rw [List.map_append]
    rfl

theorem value_numeral (hbase : 1 < base) (hmax : base ≤ 16) (n : Nat) :
    value base (numeral base n) = n := by
  induction n using Nat.strong_induction_on with
  | _ n ih =>
  rw [numeral_eq hbase]
  split
  · next hlt =>
    have hdigit : (digit n).digitValue = n := digitValue_digit (by omega)
    show 0 * base + (digit n).digitValue = n
    rw [hdigit, Nat.zero_mul, Nat.zero_add]
  · next hle =>
    have hlast : n % base < base := Nat.mod_lt n (by omega)
    have hshorter : n / base < n := Nat.div_lt_self (by omega) hbase
    rw [value_concat, ih _ hshorter, digitValue_digit (by omega), Nat.mul_comm]
    exact Nat.div_add_mod n base

/-- A numeral has digits of its base only. -/
theorem isRun_numeral {p : CodeUnit → Bool} (hbase : 1 < base)
    (hp : ∀ d < base, p (digit d) = true) (n : Nat) : (numeral base n).IsRun p := by
  have hone : ∀ d < base, Text.IsRun p [digit d] := by
    intro d hd
    refine ⟨List.cons_ne_nil _ _, fun u hu => ?_⟩
    rw [List.mem_singleton.mp hu]
    exact hp d hd
  induction n using Nat.strong_induction_on with
  | _ n ih =>
  rw [numeral_eq hbase]
  split
  · next hlt => exact hone n hlt
  · next hle =>
    have hshorter : n / base < n := Nat.div_lt_self (by omega) hbase
    exact (ih _ hshorter).append (hone _ (Nat.mod_lt n (by omega)))

/-- A decimal numeral is a run of digits. -/
theorem isRun_ofNat (n : Nat) : (ofNat n).IsRun CodeUnit.isDigit :=
  isRun_numeral (by decide) (fun _ => isDigit_digit) n

/-! ### Zeros in front -/

theorem value_replicate_append (zeros : Nat) (s : Text) :
    value base (List.replicate zeros 0x30 ++ s) = value base s := by
  have hzeros : (List.replicate zeros (0x30 : CodeUnit)).foldl
      (fun n u => n * base + u.digitValue) 0 = 0 := by
    induction zeros with
    | zero => rfl
    | succ zeros ih =>
      rw [List.replicate_succ, List.foldl_cons, Nat.zero_mul, Nat.zero_add]
      exact ih
  unfold value
  rw [List.foldl_append, hzeros]

theorem IsRun.replicate_append {p : CodeUnit → Bool} {s : Text} (h : s.IsRun p)
    (hzero : p 0x30 = true) (zeros : Nat) : Text.IsRun p (List.replicate zeros 0x30 ++ s) := by
  refine ⟨fun hnil => h.1 (List.append_eq_nil_iff.mp hnil).2, fun u hu => ?_⟩
  rcases List.mem_append.mp hu with hu | hu
  · rw [List.eq_of_mem_replicate hu]
    exact hzero
  · exact h.2 u hu

end Text

namespace IntLiteral

/-- A number in decimal, with zeros in front. -/
theorem isNumeral_decimal (zeros n : Nat) :
    IsNumeral ⟨n, List.replicate zeros 0x30 ++ Text.ofNat n⟩ := by
  have hvalue : Text.value 10 (List.replicate zeros 0x30 ++ Text.ofNat n) = n := by
    rw [Text.value_replicate_append]
    exact Text.value_numeral (by decide) (by decide) n
  have h := IsNumeral.decimal ((Text.isRun_ofNat n).replicate_append (by decide) zeros)
  rwa [hvalue] at h

/-- A number in hexadecimal, with zeros behind the `0x`. -/
theorem isNumeral_hexadecimal (zeros n : Nat) :
    IsNumeral ⟨n, ("0x" : Text) ++ (List.replicate zeros 0x30 ++ Text.numeral 16 n)⟩ := by
  have hrun : (Text.numeral 16 n).IsRun CodeUnit.isHexDigit :=
    Text.isRun_numeral (by decide) (fun _ => Text.isHexDigit_digit) n
  have hvalue : Text.value 16 (List.replicate zeros 0x30 ++ Text.numeral 16 n) = n := by
    rw [Text.value_replicate_append]
    exact Text.value_numeral (by decide) (by decide) n
  have h := IsNumeral.hexadecimal (hrun.replicate_append (by decide) zeros)
  rwa [hvalue] at h

end IntLiteral

end GDScript
