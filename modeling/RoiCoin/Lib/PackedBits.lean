import Mathlib.Data.List.Basic

/-! Bits packed in a list of bytes, eight to a byte with the lowest bit first. -/

namespace PackedBits

/-- `1 << (7 & n)` -/
def mask (n : Nat) : UInt8 := (1 : UInt8) <<< UInt8.ofNat (7 &&& n)

def testBit (bytes : List UInt8) (n : Nat) : Bool := bytes.getD (n >>> 3) 0 &&& mask n != 0

/-- Positions after the last byte are left out. -/
def setBit (bytes : List UInt8) (n : Nat) : List UInt8 :=
  bytes.set (n >>> 3) (bytes.getD (n >>> 3) 0 ||| mask n)

@[simp] theorem length_setBit (bytes : List UInt8) (n : Nat) :
    (setBit bytes n).length = bytes.length := by
  simp [setBit]

theorem mask_ne_zero (n : Nat) : mask n ≠ 0 := by
  have small : ∀ shift : Fin 8, (1 : UInt8) <<< UInt8.ofNat shift.val ≠ 0 := by decide
  have bound : 7 &&& n < 8 := Nat.lt_of_le_of_lt Nat.and_le_left (by decide)
  exact small ⟨7 &&& n, bound⟩

theorem or_and_distrib (a b c : UInt8) : (a ||| b) &&& c = (a &&& c) ||| (b &&& c) := by
  apply UInt8.toBitVec_inj.mp
  apply BitVec.eq_of_getLsbD_eq
  intro i _
  simp [Bool.and_or_distrib_right]

theorem byte_inside (bytes : List UInt8) (n : Nat) (inside : n < bytes.length * 8) :
    n >>> 3 < bytes.length := by
  rw [Nat.shiftRight_eq_div_pow]
  omega

theorem testBit_iff (bytes : List UInt8) (n : Nat) :
    testBit bytes n = true ↔ bytes.getD (n >>> 3) 0 &&& mask n ≠ 0 := by
  simp [testBit]

theorem testBit_setBit_self (bytes : List UInt8) (n : Nat) (inside : n < bytes.length * 8) :
    testBit (setBit bytes n) n = true := by
  have byte := byte_inside bytes n inside
  have nonzero := mask_ne_zero n
  rw [testBit_iff, setBit, List.getD_eq_getElem?_getD, List.getElem?_set_self byte,
    Option.getD_some, or_and_distrib]
  simp [nonzero]

/-- Setting a bit clears none. -/
theorem testBit_setBit_of (bytes : List UInt8) (n m : Nat) (set : testBit bytes m = true) :
    testBit (setBit bytes n) m = true := by
  rw [testBit_iff] at set ⊢
  rw [setBit]
  by_cases same : n >>> 3 = m >>> 3
  · by_cases inside : m >>> 3 < bytes.length
    · rw [same, List.getD_eq_getElem?_getD, List.getElem?_set_self inside, Option.getD_some,
        or_and_distrib]
      simp only [ne_eq, UInt8.or_eq_zero_iff, not_and]
      intro cleared
      exact absurd cleared set
    · have outside : bytes.length ≤ m >>> 3 := Nat.le_of_not_lt inside
      rw [List.set_eq_of_length_le (by omega)]
      exact set
  · rw [List.getD_eq_getElem?_getD, List.getElem?_set_ne same, ← List.getD_eq_getElem?_getD]
    exact set

end PackedBits
