import Mathlib.Data.Nat.Bitwise
import Mathlib.Tactic.Ring

/-! Binary long division: the divisor is aligned with the dividend, then shifted
back one bit a turn and subtracted where it fits. -/

namespace LongDivision

/-- `count` turns, the first with the divisor shifted by `count - 1`; the remainder
so far and the quotient so far. -/
def divide (b : Nat) : Nat → Nat → Nat → Nat × Nat
  | 0, num, quotient => (num, quotient)
  | shift + 1, num, quotient =>
      if b * 2 ^ shift ≤ num then divide b shift (num - b * 2 ^ shift) (quotient ||| 2 ^ shift)
      else divide b shift num quotient

/-- Setting a bit below the set ones adds its weight. -/
theorem or_two_pow (quotient shift : Nat) (coarse : 2 ^ (shift + 1) ∣ quotient) :
    quotient ||| 2 ^ shift = quotient + 2 ^ shift := by
  obtain ⟨high, rfl⟩ := coarse
  have low : 2 ^ shift < 2 ^ (shift + 1) := Nat.pow_lt_pow_right (by decide) (by omega)
  exact (Nat.two_pow_add_eq_or_of_lt low high).symm

theorem divide_value (b shift num quotient : Nat) (positive : 0 < b)
    (small : num < b * 2 ^ shift) (coarse : 2 ^ shift ∣ quotient) :
    divide b shift num quotient = (num % b, quotient + num / b) := by
  induction shift generalizing num quotient with
  | zero =>
      have below : num < b := by simpa using small
      simp [divide, Nat.mod_eq_of_lt below, Nat.div_eq_of_lt below]
  | succ shift ih =>
      have doubled : b * 2 ^ (shift + 1) = b * 2 ^ shift + b * 2 ^ shift := by ring
      have finer : 2 ^ shift ∣ quotient := dvd_trans (pow_dvd_pow 2 (Nat.le_succ shift)) coarse
      by_cases fits : b * 2 ^ shift ≤ num
      · have counted : 2 ^ shift ≤ num / b := by
          rw [Nat.le_div_iff_mul_le positive, Nat.mul_comm]
          exact fits
        have next := ih (num - b * 2 ^ shift) (quotient ||| 2 ^ shift) (by omega) (by
          rw [or_two_pow quotient shift coarse]
          exact Nat.dvd_add finer dvd_rfl)
        rw [divide, if_pos fits, next, or_two_pow quotient shift coarse,
          Nat.sub_mul_mod fits, Nat.sub_mul_div]
        congr 1
        omega
      · rw [divide, if_neg fits, ih num quotient (by omega) finer]

end LongDivision
