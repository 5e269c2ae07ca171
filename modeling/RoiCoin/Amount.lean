import Mathlib.Tactic.NormNum

/-! Amounts (`amount.h`) and the 64-bit conversions of the amount code.

A `CAmount` is an `Int`; conversions to 64 bits are explicit. -/

namespace RoiCoin

def coin : Int := 100000000
def maxMoney : Int := 6000000000 * coin

def moneyRange (nValue : Int) : Bool := decide (0 ≤ nValue) && decide (nValue ≤ maxMoney)

/-- Conversion to `int64_t`. -/
def wrap64 (n : Int) : Int := (n + 2 ^ 63) % 2 ^ 64 - 2 ^ 63

/-- `CBigNum::getuint64`: the low eight bytes of the magnitude. -/
def getuint64 (n : Int) : Int := (n.natAbs % 2 ^ 64 : Nat)

@[simp] theorem moneyRange_iff (nValue : Int) :
    moneyRange nValue = true ↔ 0 ≤ nValue ∧ nValue ≤ maxMoney := by
  simp [moneyRange]

theorem wrap64_of_fits (n : Int) (least : -2 ^ 63 ≤ n) (most : n < 2 ^ 63) : wrap64 n = n := by
  rw [wrap64]
  omega

theorem wrap64_wrap64 (n : Int) : wrap64 (wrap64 n) = wrap64 n := by
  rw [wrap64, wrap64]
  omega

theorem wrap64_add_congr (first second n : Int) (same : wrap64 first = wrap64 second) :
    wrap64 (first + n) = wrap64 (second + n) := by
  rw [wrap64, wrap64] at same ⊢
  omega

/-- Amounts that differ by a multiple of the word size wrap to zero. -/
theorem wrap64_getuint64_sub (n : Int) (nonneg : 0 ≤ n) : wrap64 (getuint64 n - n) = 0 := by
  rw [wrap64, getuint64]
  omega

@[simp] theorem getuint64_zero : getuint64 0 = 0 := rfl

end RoiCoin
