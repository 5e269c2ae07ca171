import Mathlib.Algebra.Order.Ring.Int
import Mathlib.Tactic.Linarith
import Mathlib.Tactic.Ring

/-! Shares of integer amounts, rounded down.

`share n f d` is `n * f / d` for `0 ≤ f` and `0 < d`. -/

namespace Rounding

def share (n f d : Int) : Int := n * f / d

/-- What is left of an amount after its share. -/
def rest (n f d : Int) : Int := n - share n f d

theorem share_nonneg (n f d : Int) (amount : 0 ≤ n) (factor : 0 ≤ f) (divisor : 0 ≤ d) :
    0 ≤ share n f d := Int.ediv_nonneg (Int.mul_nonneg amount factor) divisor

theorem share_mono (n n' f f' d : Int) (divisor : 0 < d) (amount : 0 ≤ n) (amounts : n ≤ n')
    (factor : 0 ≤ f) (factors : f ≤ f') : share n f d ≤ share n' f' d := by
  apply Int.ediv_le_ediv divisor
  calc
    n * f ≤ n' * f := Int.mul_le_mul_of_nonneg_right amounts factor
    _ ≤ n' * f' := Int.mul_le_mul_of_nonneg_left factors (Int.le_trans amount amounts)

theorem share_le (n f d : Int) (divisor : 0 < d) (amount : 0 ≤ n) (factor : f ≤ d) :
    share n f d ≤ n := by
  rw [share]
  apply Int.ediv_le_of_le_mul divisor
  exact Int.mul_le_mul_of_nonneg_left factor amount

theorem share_bounds (n f d : Int) (divisor : 0 < d) :
    share n f d * d ≤ n * f ∧ n * f < share n f d * d + d := by
  have below := Int.ediv_mul_le (n * f) (Int.ne_of_gt divisor)
  have above := Int.lt_ediv_mul (n * f) divisor
  rw [share]
  exact ⟨below, by linarith⟩

@[simp] theorem share_zero (f d : Int) : share 0 f d = 0 := by
  rw [share, Int.zero_mul, Int.zero_ediv]

/-- A larger amount leaves at least as much. -/
theorem rest_mono (n n' f d : Int) (divisor : 0 < d) (amounts : n ≤ n') (factor : f ≤ d) :
    rest n f d ≤ rest n' f d := by
  have more : share n' f d ≤ share n f d + (n' - n) := by
    rw [share, share, ← Int.add_mul_ediv_right _ _ (Int.ne_of_gt divisor)]
    apply Int.ediv_le_ediv divisor
    have extra := Int.mul_le_mul_of_nonneg_left factor (Int.sub_nonneg.mpr amounts)
    linarith [Int.sub_mul n' n f]
  rw [rest, rest]
  linarith

/-- A smaller factor leaves at least as much. -/
theorem rest_factor (n f f' d : Int) (divisor : 0 < d) (amount : 0 ≤ n) (factors : f' ≤ f) :
    rest n f d ≤ rest n f' d := by
  have less : share n f' d ≤ share n f d :=
    Int.ediv_le_ediv divisor (Int.mul_le_mul_of_nonneg_left factors amount)
  rw [rest, rest]
  linarith

theorem rest_nonneg (n f d : Int) (divisor : 0 < d) (amount : 0 ≤ n) (factor : f ≤ d) :
    0 ≤ rest n f d := by
  have most := share_le n f d divisor amount factor
  rw [rest]
  linarith

theorem rest_le (n f d : Int) (divisor : 0 ≤ d) (amount : 0 ≤ n) (factor : 0 ≤ f) :
    rest n f d ≤ n := by
  have least := share_nonneg n f d amount factor divisor
  rw [rest]
  linarith

@[simp] theorem rest_zero (f d : Int) : rest 0 f d = 0 := by
  rw [rest, share_zero, Int.sub_zero]

/-- Amounts or factors whose products differ by the divisor have different shares. -/
theorem share_lt (n f n' f' d : Int) (divisor : 0 < d) (apart : n * f + d ≤ n' * f') :
    share n f d < share n' f' d := by
  have next : share n f d + 1 = (n * f + d) / d := by
    rw [share, Int.add_ediv_of_dvd_right (dvd_refl d), Int.ediv_self (Int.ne_of_gt divisor)]
  have step : (n * f + d) / d ≤ share n' f' d := Int.ediv_le_ediv divisor apart
  linarith

end Rounding
