import Mathlib.Tactic.NormNum
import Mathlib.Tactic.Linarith
import RoiCoin.Lib.Words

/-! 256-bit unsigned arithmetic and the compact target encoding (`arith_uint256`). -/

namespace RoiCoin

/-- A hash or target: `uint256` and `arith_uint256` hold the same 256 bits. -/
abbrev Uint256 := BitVec 256

namespace ArithUint256

/-- The eight 32-bit words of a value, least significant first. -/
def pn (a : Uint256) : List Nat := Words.words (2 ^ 32) 8 a.toNat

def ofPn (words : List Nat) : Uint256 := BitVec.ofNat 256 (Nat.ofDigits (2 ^ 32) words)

/-- `operator*=(uint32_t)`: the word loop with a 64-bit accumulator. -/
def mulAssign (a : Uint256) (b32 : Nat) : Uint256 :=
  ofPn (Words.mulWord (2 ^ 32) (2 ^ 64) b32 0 (pn a))

/-- Position of the highest set bit, counted from one. -/
def bits (a : Nat) : Nat := if a = 0 then 0 else a.log2 + 1

structure Compact where
  target : Uint256
  fNegative : Bool
  fOverflow : Bool
  deriving DecidableEq, Repr

def setCompact (nCompact : BitVec 32) : Compact :=
  let nSize := nCompact.toNat / 2 ^ 24
  let nWord := if nSize ≤ 3 then nCompact.toNat % 2 ^ 23 / 2 ^ (8 * (3 - nSize))
    else nCompact.toNat % 2 ^ 23
  { target := if nSize ≤ 3 then BitVec.ofNat 256 nWord
      else BitVec.ofNat 256 nWord <<< (8 * (nSize - 3))
    fNegative := nWord != 0 && nCompact.toNat.testBit 23
    fOverflow := nWord != 0 && (decide (nSize > 34) || decide (nWord > 0xff ∧ nSize > 33) ||
      decide (nWord > 0xffff ∧ nSize > 32)) }

/-- The size byte and the mantissa `GetCompact` writes; a mantissa that would set
the sign bit is shifted down by one byte. -/
def compactParts (a : Nat) : Nat × Nat :=
  let nSize := (bits a + 7) / 8
  let nCompact := if nSize ≤ 3 then a * 2 ^ (8 * (3 - nSize)) else a / 2 ^ (8 * (nSize - 3))
  if nCompact.testBit 23 then (nSize + 1, nCompact / 2 ^ 8) else (nSize, nCompact)

def getCompact (a : Uint256) : BitVec 32 :=
  BitVec.ofNat 32 ((compactParts a.toNat).2 + (compactParts a.toNat).1 * 2 ^ 24)

theorem bits_le (a n : Nat) : bits a ≤ n ↔ a < 2 ^ n := by
  rw [bits]
  split
  · rename_i zero
    simp [zero]
  · rename_i nonzero
    exact Nat.log2_lt nonzero

theorem pn_value (a : Uint256) : Nat.ofDigits (2 ^ 32) (pn a) = a.toNat := by
  rw [pn, Words.words_value]
  exact Nat.mod_eq_of_lt (by simpa using a.isLt)

theorem mulAssign_toNat (a : Uint256) (b32 : Nat) (word : b32 < 2 ^ 32) :
    (mulAssign a b32).toNat = a.toNat * b32 % 2 ^ 256 := by
  have product := Words.mulWord_value (2 ^ 32) (2 ^ 64) b32 (by norm_num) word (pn a)
    (Words.words_lt (2 ^ 32) 8 a.toNat (by norm_num)) 0 (by norm_num)
  have length : (pn a).length = 8 := Words.words_length _ _ _
  rw [pn_value, length, Nat.zero_add] at product
  rw [mulAssign, ofPn, BitVec.toNat_ofNat, product, Nat.mul_comm b32]
  norm_num

/-- The value a size byte and a mantissa stand for. -/
def compactValue (nSize nWord : Nat) : Nat :=
  if nSize ≤ 3 then nWord / 2 ^ (8 * (3 - nSize)) else nWord * 2 ^ (8 * (nSize - 3))

theorem setCompact_target (nSize nWord : Nat) (mantissa : nWord < 2 ^ 23) (size : nSize < 2 ^ 8)
    (small : compactValue nSize nWord < 2 ^ 256) :
    (setCompact (BitVec.ofNat 32 (nWord + nSize * 2 ^ 24))).target.toNat =
      compactValue nSize nWord := by
  have packed : (BitVec.ofNat 32 (nWord + nSize * 2 ^ 24)).toNat = nWord + nSize * 2 ^ 24 := by
    rw [BitVec.toNat_ofNat]
    exact Nat.mod_eq_of_lt (by omega)
  have high : (nWord + nSize * 2 ^ 24) / 2 ^ 24 = nSize := by omega
  have low : (nWord + nSize * 2 ^ 24) % 2 ^ 23 = nWord := by omega
  simp only [setCompact, packed, high, low]
  by_cases short : nSize ≤ 3
  · simp only [compactValue, if_pos short] at small ⊢
    rw [BitVec.toNat_ofNat, Nat.mod_eq_of_lt small]
  · simp only [compactValue, if_neg short] at small ⊢
    have word : nWord % 2 ^ 256 = nWord := Nat.mod_eq_of_lt (by omega)
    rw [BitVec.toNat_shiftLeft, BitVec.toNat_ofNat, word, Nat.shiftLeft_eq,
      Nat.mod_eq_of_lt small]

theorem mantissa_bit (c : Nat) (small : c < 2 ^ 24) : c.testBit 23 = decide (2 ^ 23 ≤ c) := by
  rw [Nat.testBit_eq_decide_div_mod_eq]
  congr 1
  apply propext
  omega

theorem two_bytes_back (a : Nat) : a * 65536 / 256 / 256 = a := by
  rw [Nat.div_div_eq_div_mul]
  exact Nat.mul_div_cancel a (by decide)

/-- `GetCompact` keeps the leading bits: the stored value is below the argument
and more than half of it. -/
theorem compactParts_value (a : Nat) (positive : 0 < a) (small : a < 2 ^ 256) :
    (compactParts a).2 < 2 ^ 23 ∧ (compactParts a).1 < 2 ^ 8 ∧
      compactValue (compactParts a).1 (compactParts a).2 ≤ a ∧
      a < 2 * compactValue (compactParts a).1 (compactParts a).2 := by
  obtain ⟨k, bytes⟩ : ∃ k, k = (bits a + 7) / 8 := ⟨_, rfl⟩
  have sizeBound : bits a ≤ 256 := (bits_le a 256).mpr small
  have sizePositive : ¬ bits a ≤ 0 := by rw [bits_le]; omega
  have below : a < 2 ^ (8 * k) := (bits_le a _).mp (by omega)
  have above : ¬ a < 2 ^ (8 * (k - 1)) := by rw [← bits_le]; omega
  simp only [compactParts, ← bytes]
  by_cases short : k ≤ 3
  · rw [if_pos short]
    have cases : k = 1 ∨ k = 2 ∨ k = 3 := by omega
    have fits : a * 2 ^ (8 * (3 - k)) < 2 ^ 24 := by
      rcases cases with rfl | rfl | rfl <;> omega
    rw [mantissa_bit _ fits]
    rcases cases with rfl | rfl | rfl <;> split <;>
      simp only [decide_eq_true_eq, compactValue] at * <;> norm_num [two_bytes_back] at * <;> omega
  · rw [if_neg short]
    have scale : 2 ^ (8 * k) = 2 ^ 24 * 2 ^ (8 * (k - 3)) := by
      rw [← pow_add]; congr 1; omega
    have scale' : 2 ^ (8 * (k - 1)) = 2 ^ 16 * 2 ^ (8 * (k - 3)) := by
      rw [← pow_add]; congr 1; omega
    have wide : 2 ^ (8 * (k + 1 - 3)) = 2 ^ 8 * 2 ^ (8 * (k - 3)) := by
      rw [← pow_add]; congr 1; omega
    have power : 0 < 2 ^ (8 * (k - 3)) := by positivity
    generalize scaleIs : 2 ^ (8 * (k - 3)) = scaleFactor at *
    have high : a / scaleFactor < 2 ^ 24 :=
      Nat.div_lt_of_lt_mul (by rw [Nat.mul_comm]; omega)
    have low : 2 ^ 16 ≤ a / scaleFactor := (Nat.le_div_iff_mul_le power).mpr (by omega)
    have lower : a / scaleFactor * scaleFactor ≤ a := Nat.div_mul_le_self a scaleFactor
    have upper : a < (a / scaleFactor + 1) * scaleFactor :=
      Nat.lt_mul_of_div_lt (Nat.lt_succ_self _) power
    rw [mantissa_bit _ high]
    generalize a / scaleFactor = c at *
    by_cases carry : 2 ^ 23 ≤ c
    · have tail : c ≤ c / 2 ^ 8 * 2 ^ 8 + 255 := by omega
      have shifted : compactValue (k + 1) (c / 2 ^ 8) = c / 2 ^ 8 * 2 ^ 8 * scaleFactor := by
        rw [compactValue, if_neg (by omega), wide, Nat.mul_assoc]
      simp only [carry, decide_true, if_true, shifted]
      refine ⟨by omega, by omega, ?_, ?_⟩
      · exact le_trans (Nat.mul_le_mul_right _ (by omega)) lower
      · calc
          a < (c + 1) * scaleFactor := upper
          _ ≤ 2 * (c / 2 ^ 8 * 2 ^ 8) * scaleFactor := Nat.mul_le_mul_right _ (by omega)
          _ = 2 * (c / 2 ^ 8 * 2 ^ 8 * scaleFactor) := Nat.mul_assoc _ _ _
    · have plain : compactValue k c = c * scaleFactor := by
        rw [compactValue, if_neg short, ← scaleIs]
      simp only [carry, decide_false, Bool.false_eq_true, if_false, plain]
      refine ⟨by omega, by omega, lower, ?_⟩
      calc
        a < (c + 1) * scaleFactor := upper
        _ ≤ 2 * c * scaleFactor := Nat.mul_le_mul_right _ (by omega)
        _ = 2 * (c * scaleFactor) := Nat.mul_assoc _ _ _

/-- The stored value is the argument with its last bits cleared. -/
theorem compactParts_leading (a : Nat) (positive : 0 < a) (small : a < 2 ^ 256) :
    ∃ j, 2 ^ j ≤ a ∧ compactValue (compactParts a).1 (compactParts a).2 = a / 2 ^ j * 2 ^ j := by
  obtain ⟨k, bytes⟩ : ∃ k, k = (bits a + 7) / 8 := ⟨_, rfl⟩
  have sizeBound : bits a ≤ 256 := (bits_le a 256).mpr small
  have sizePositive : ¬ bits a ≤ 0 := by rw [bits_le]; omega
  have below : a < 2 ^ (8 * k) := (bits_le a _).mp (by omega)
  have above : ¬ a < 2 ^ (8 * (k - 1)) := by rw [← bits_le]; omega
  simp only [compactParts, ← bytes]
  by_cases short : k ≤ 3
  · rw [if_pos short]
    have cases : k = 1 ∨ k = 2 ∨ k = 3 := by omega
    have fits : a * 2 ^ (8 * (3 - k)) < 2 ^ 24 := by
      rcases cases with rfl | rfl | rfl <;> omega
    rw [mantissa_bit _ fits]
    by_cases carry : 2 ^ 23 ≤ a * 2 ^ (8 * (3 - k))
    · by_cases three : k = 3
      · -- three bytes with the top bit set lose the last one
        subst three
        refine ⟨8, by omega, ?_⟩
        simp only [carry, decide_true, if_true, compactValue]
        norm_num
      · refine ⟨0, by omega, ?_⟩
        simp only [carry, decide_true, if_true, compactValue]
        rcases cases with rfl | rfl | rfl
        · norm_num [two_bytes_back]
        · norm_num
        · exact absurd rfl three
    · refine ⟨0, by omega, ?_⟩
      simp only [carry, decide_false, Bool.false_eq_true, if_false, compactValue, if_pos short]
      rcases cases with rfl | rfl | rfl <;> norm_num
  · rw [if_neg short]
    have high : a / 2 ^ (8 * (k - 3)) < 2 ^ 24 := by
      apply Nat.div_lt_of_lt_mul
      rw [← pow_add]
      exact lt_of_lt_of_le below (Nat.pow_le_pow_right (by decide) (by omega))
    rw [mantissa_bit _ high]
    have reached : 2 ^ (8 * (k - 1)) ≤ a := Nat.le_of_not_lt above
    split
    · refine ⟨8 * (k - 2), ?_, ?_⟩
      · exact le_trans (Nat.pow_le_pow_right (by decide) (by omega)) reached
      · have wide : 8 * (k + 1 - 3) = 8 * (k - 2) := by omega
        have joined : 8 * (k - 3) + 8 = 8 * (k - 2) := by omega
        rw [compactValue, if_neg (by omega), wide, Nat.div_div_eq_div_mul, ← pow_add, joined]
    · refine ⟨8 * (k - 3), ?_, ?_⟩
      · exact le_trans (Nat.pow_le_pow_right (by decide) (by omega)) reached
      · rw [compactValue, if_neg short]

theorem setCompact_getCompact (a : Uint256) (positive : 0 < a.toNat) :
    (setCompact (getCompact a)).target.toNat ≤ a.toNat ∧
      a.toNat < 2 * (setCompact (getCompact a)).target.toNat := by
  obtain ⟨mantissa, size, lower, upper⟩ := compactParts_value a.toNat positive a.isLt
  rw [getCompact, setCompact_target _ _ mantissa size (lt_of_le_of_lt lower a.isLt)]
  exact ⟨lower, upper⟩

/-- Powers of two below a value are kept. -/
theorem setCompact_getCompact_pow (a : Uint256) (n : Nat) (reached : 2 ^ n ≤ a.toNat) :
    2 ^ n ≤ (setCompact (getCompact a)).target.toNat := by
  have positive : 0 < a.toNat := Nat.lt_of_lt_of_le (Nat.two_pow_pos n) reached
  obtain ⟨mantissa, size, lower, -⟩ := compactParts_value a.toNat positive a.isLt
  obtain ⟨j, leading, value⟩ := compactParts_leading a.toNat positive a.isLt
  rw [getCompact, setCompact_target _ _ mantissa size (lt_of_le_of_lt lower a.isLt), value]
  by_cases coarse : j ≤ n
  · have split : 2 ^ n = 2 ^ (n - j) * 2 ^ j := by rw [← pow_add]; congr 1; omega
    rw [split]
    apply Nat.mul_le_mul_right
    rw [Nat.le_div_iff_mul_le (Nat.two_pow_pos j), ← split]
    exact reached
  · calc
      2 ^ n ≤ 2 ^ j := Nat.pow_le_pow_right (by decide) (by omega)
      _ = 1 * 2 ^ j := (Nat.one_mul _).symm
      _ ≤ a.toNat / 2 ^ j * 2 ^ j := by
        apply Nat.mul_le_mul_right
        rw [Nat.le_div_iff_mul_le (Nat.two_pow_pos j), Nat.one_mul]
        exact leading

/-- What `GetCompact` writes has no sign, and no overflow up to 31 bytes. -/
theorem setCompact_getCompact_flags (a : Uint256) (positive : 0 < a.toNat)
    (small : a.toNat < 2 ^ 248) :
    (setCompact (getCompact a)).fNegative = false ∧
      (setCompact (getCompact a)).fOverflow = false := by
  obtain ⟨mantissa, -, -, -⟩ := compactParts_value a.toNat positive a.isLt
  have size : (compactParts a.toNat).1 ≤ 32 := by
    have bytes : bits a.toNat ≤ 248 := (bits_le _ _).mpr small
    simp only [compactParts, apply_ite Prod.fst]
    split <;> split <;> omega
  rw [getCompact]
  generalize (compactParts a.toNat).1 = nSize at *
  generalize (compactParts a.toNat).2 = nWord at *
  have packed : (BitVec.ofNat 32 (nWord + nSize * 2 ^ 24)).toNat = nWord + nSize * 2 ^ 24 := by
    rw [BitVec.toNat_ofNat]
    exact Nat.mod_eq_of_lt (by omega)
  have high : (nWord + nSize * 2 ^ 24) / 2 ^ 24 = nSize := by omega
  have sign : (nWord + nSize * 2 ^ 24).testBit 23 = false := by
    rw [Nat.testBit_eq_decide_div_mod_eq, decide_eq_false_iff_not]
    omega
  have first : decide (nSize > 34) = false := decide_eq_false (by omega)
  have second : ∀ n : Nat, decide (n > 0xff ∧ nSize > 33) = false :=
    fun n => decide_eq_false (by omega)
  have third : ∀ n : Nat, decide (n > 0xffff ∧ nSize > 32) = false :=
    fun n => decide_eq_false (by omega)
  simp only [setCompact, packed, high, sign, Bool.and_false, first, second, third, Bool.or_false,
    and_self]

/-- Two values a factor of two apart have different compact forms. -/
theorem getCompact_separates (low high : Uint256) (positive : 0 < high.toNat)
    (apart : 2 * low.toNat ≤ high.toNat) : getCompact low ≠ getCompact high := by
  intro same
  have decodedHigh := setCompact_getCompact high positive
  rcases Nat.eq_zero_or_pos low.toNat with zero | lowPositive
  · have empty : low = 0 := BitVec.eq_of_toNat_eq zero
    have decodedLow : (setCompact (getCompact (0 : Uint256))).target.toNat = 0 := by decide
    rw [← same, empty, decodedLow] at decodedHigh
    omega
  · have decodedLow := setCompact_getCompact low lowPositive
    rw [same] at decodedLow
    omega

end ArithUint256
end RoiCoin
