import RoiCoin.BlockProof

/-! The compact form of targets: what is kept, its order, and which forms come back. -/

namespace RoiCoin
namespace ArithUint256

/-- `(bits() + 7) / 8` -/
def byteLength (a : Nat) : Nat := (bits a + 7) / 8

/-- The first three bytes of a value, padded below when there are fewer. -/
def leadingWord (a : Nat) : Nat := a * 2 ^ 24 / 2 ^ (8 * byteLength a)

theorem byteLength_le (a n : Nat) : byteLength a ≤ n ↔ a < 2 ^ (8 * n) := by
  rw [← bits_le, byteLength]
  omega

theorem byteLength_mono (a b : Nat) (ordered : a ≤ b) : byteLength a ≤ byteLength b := by
  have upper := (byteLength_le b (byteLength b)).mp (Nat.le_refl _)
  rw [byteLength_le]
  omega

/-- A positive value has its first byte at its length. -/
theorem byteLength_eq (a n : Nat) (reached : 2 ^ (8 * n) ≤ a) (small : a < 2 ^ (8 * (n + 1))) :
    byteLength a = n + 1 := by
  have upper := (byteLength_le a (n + 1)).mpr small
  have lower : ¬ byteLength a ≤ n := by rw [byteLength_le]; omega
  omega

theorem leadingWord_eq (a : Nat) :
    (if byteLength a ≤ 3 then a * 2 ^ (8 * (3 - byteLength a))
      else a / 2 ^ (8 * (byteLength a - 3))) = leadingWord a := by
  rw [leadingWord]
  split
  · have split : 2 ^ 24 = 2 ^ (8 * (3 - byteLength a)) * 2 ^ (8 * byteLength a) := by
      rw [← Nat.pow_add]; congr 1; omega
    rw [split, ← Nat.mul_assoc, Nat.mul_div_cancel _ (Nat.two_pow_pos _)]
  · have split : 2 ^ (8 * byteLength a) = 2 ^ (8 * (byteLength a - 3)) * 2 ^ 24 := by
      rw [← Nat.pow_add]; congr 1; omega
    rw [split, Nat.mul_div_mul_right _ _ (by decide)]

theorem leadingWord_lt (a : Nat) : leadingWord a < 2 ^ 24 := by
  have upper := (byteLength_le a (byteLength a)).mp (Nat.le_refl _)
  rw [leadingWord, Nat.div_lt_iff_lt_mul (Nat.two_pow_pos _), Nat.mul_comm]
  exact Nat.mul_lt_mul_of_pos_left upper (by decide)

theorem leadingWord_ge (a : Nat) (positive : 0 < a) : 2 ^ 16 ≤ leadingWord a := by
  obtain ⟨n, length⟩ : ∃ n, byteLength a = n + 1 := by
    refine Nat.exists_eq_succ_of_ne_zero ?_
    intro empty
    have zero := (byteLength_le a 0).mp (by omega)
    omega
  have reached : ¬ a < 2 ^ (8 * n) := by rw [← byteLength_le]; omega
  rw [leadingWord, Nat.le_div_iff_mul_le (Nat.two_pow_pos _), length]
  calc
    2 ^ 16 * 2 ^ (8 * (n + 1)) = 2 ^ (8 * n) * 2 ^ 24 := by
      rw [← Nat.pow_add, ← Nat.pow_add]; congr 1; omega
    _ ≤ a * 2 ^ 24 := Nat.mul_le_mul_right _ (by omega)

/-- The mantissa loses a byte exactly when the first byte has its top bit set. -/
theorem compactParts_eq (a : Nat) :
    compactParts a = if 2 ^ 23 ≤ leadingWord a then (byteLength a + 1, leadingWord a / 2 ^ 8)
      else (byteLength a, leadingWord a) := by
  have word : (if (bits a + 7) / 8 ≤ 3 then a * 2 ^ (8 * (3 - (bits a + 7) / 8))
      else a / 2 ^ (8 * ((bits a + 7) / 8 - 3))) = leadingWord a := leadingWord_eq a
  simp only [compactParts, word, mantissa_bit _ (leadingWord_lt a), decide_eq_true_eq, byteLength]

/-- A compact form as a number. -/
def compactNumber (a : Nat) : Nat := (compactParts a).2 + (compactParts a).1 * 2 ^ 24

theorem compactParts_zero : compactParts 0 = (0, 0) := by decide

theorem compactParts_bounds (a : Nat) :
    (compactParts a).2 < 2 ^ 23 ∧ (compactParts a).1 ≤ byteLength a + 1 ∧
      ((compactParts a).1 = byteLength a + 1 → (compactParts a).2 < 2 ^ 16) := by
  have word := leadingWord_lt a
  rw [compactParts_eq]
  split
  · exact ⟨by simp only; omega, Nat.le_refl _, fun _ => by simp only; omega⟩
  · exact ⟨by simp only; omega, Nat.le_succ _, fun same => by simp only at same; omega⟩

/-- The mantissa of a positive value has one of its first nine bits set. -/
theorem compactParts_leads (a : Nat) (positive : 0 < a) : 2 ^ 15 ≤ (compactParts a).2 := by
  have word := leadingWord_ge a positive
  rw [compactParts_eq]
  split <;> simp only <;> omega

theorem compactNumber_lt (a : Nat) (small : a < 2 ^ 256) : compactNumber a < 2 ^ 32 := by
  obtain ⟨word, size, -⟩ := compactParts_bounds a
  have length := (byteLength_le a 32).mpr small
  rw [compactNumber]
  omega

theorem compactNumber_mono (a b : Nat) (ordered : a ≤ b) : compactNumber a ≤ compactNumber b := by
  have lengths := byteLength_mono a b ordered
  have word := leadingWord_lt a
  rcases Nat.eq_zero_or_pos a with rfl | positive
  · simp [compactNumber, compactParts_zero]
  · have other := leadingWord_ge b (by omega)
    simp only [compactNumber, compactParts_eq]
    rcases Nat.lt_or_eq_of_le lengths with shorter | same
    · split <;> split <;> simp only <;> omega
    · have words : leadingWord a ≤ leadingWord b := by
        rw [leadingWord, leadingWord, same]
        exact Nat.div_le_div_right (Nat.mul_le_mul_right _ ordered)
      split <;> split <;> simp only <;> omega

/-- A value with only its leading bytes: three of them, or two when the top bit of
the first would be taken for the sign. -/
def leadingBytes (a : Nat) : Nat :=
  let kept := if 2 ^ (8 * byteLength a - 1) ≤ a then 2 else 3
  a / 256 ^ (byteLength a - kept) * 256 ^ (byteLength a - kept)

theorem leadingBytes_le (a : Nat) : leadingBytes a ≤ a := Nat.div_mul_le_self _ _

theorem top_bit_iff (a : Nat) (positive : 0 < a) :
    2 ^ 23 ≤ leadingWord a ↔ 2 ^ (8 * byteLength a - 1) ≤ a := by
  have length : ¬ byteLength a ≤ 0 := by rw [byteLength_le]; omega
  have scaled : 2 ^ 23 * 2 ^ (8 * byteLength a) = 2 ^ (8 * byteLength a - 1) * 2 ^ 24 := by
    rw [← Nat.pow_add, ← Nat.pow_add]; congr 1; omega
  rw [leadingWord, Nat.le_div_iff_mul_le (Nat.two_pow_pos _), scaled]
  exact ⟨fun below => Nat.le_of_mul_le_mul_right below (by decide), Nat.mul_le_mul_right _⟩

/-- Decoding the leading word gives back what is left of the value. -/
theorem compactValue_word (a size lost : Nat) (covered : byteLength a ≤ size)
    (shifted : lost = 8 * (size - byteLength a)) :
    compactValue size (leadingWord a / 2 ^ lost) =
      a / 2 ^ (8 * (size - 3)) * 2 ^ (8 * (size - 3)) := by
  have word : leadingWord a / 2 ^ lost = a * 2 ^ 24 / 2 ^ (8 * size) := by
    rw [leadingWord, Nat.div_div_eq_div_mul, ← Nat.pow_add]
    congr 2
    omega
  rw [compactValue, word]
  split
  · rename_i short
    have padded : 2 ^ 24 = 2 ^ (8 * (3 - size)) * 2 ^ (8 * size) := by
      rw [← Nat.pow_add]; congr 1; omega
    have none : 8 * (size - 3) = 0 := by omega
    rw [padded, ← Nat.mul_assoc, Nat.mul_div_cancel _ (Nat.two_pow_pos _),
      Nat.mul_div_cancel _ (Nat.two_pow_pos _), none]
    simp
  · rename_i long
    have cut : 2 ^ (8 * size) = 2 ^ (8 * (size - 3)) * 2 ^ 24 := by
      rw [← Nat.pow_add]; congr 1; omega
    rw [cut, Nat.mul_div_mul_right _ _ (by decide)]

theorem compactValue_parts (a : Nat) :
    compactValue (compactParts a).1 (compactParts a).2 = leadingBytes a := by
  have bytes : ∀ n, (256 : Nat) ^ n = 2 ^ (8 * n) := fun n => by rw [Nat.pow_mul]
  rcases Nat.eq_zero_or_pos a with rfl | positive
  · decide
  · rw [compactParts_eq, leadingBytes]
    simp only [← top_bit_iff a positive, bytes]
    split
    · have value := compactValue_word a (byteLength a + 1) 8 (Nat.le_succ _) (by omega)
      have kept : byteLength a + 1 - 3 = byteLength a - 2 := by omega
      rw [kept] at value
      exact value
    · have value := compactValue_word a (byteLength a) 0 (Nat.le_refl _) (by omega)
      rw [Nat.pow_zero, Nat.div_one] at value
      exact value

/-- The form `GetCompact` writes, taken apart. -/
theorem getCompact_toNat (a : Uint256) : (getCompact a).toNat = compactNumber a.toNat := by
  rw [getCompact, BitVec.toNat_ofNat]
  exact Nat.mod_eq_of_lt (compactNumber_lt a.toNat a.isLt)

theorem setCompact_getCompact_exact (a : Uint256) :
    (setCompact (getCompact a)).fNegative = false ∧ (setCompact (getCompact a)).fOverflow = false ∧
      (setCompact (getCompact a)).target.toNat = leadingBytes a.toNat := by
  obtain ⟨word, size, carried⟩ := compactParts_bounds a.toNat
  have length := (byteLength_le a.toNat 32).mpr a.isLt
  have value := compactValue_parts a.toNat
  have below := leadingBytes_le a.toNat
  have high : compactNumber a.toNat / 2 ^ 24 = (compactParts a.toNat).1 := by
    rw [compactNumber]
    omega
  have low : compactNumber a.toNat % 2 ^ 23 = (compactParts a.toNat).2 := by
    rw [compactNumber]
    omega
  have sign : (compactNumber a.toNat).testBit 23 = false := by
    rw [Nat.testBit_eq_decide_div_mod_eq, decide_eq_false_iff_not, compactNumber]
    omega
  refine ⟨?_, ?_, ?_⟩
  · simp only [setCompact, getCompact_toNat, sign, Bool.and_false]
  · have first : ¬ (compactParts a.toNat).1 > 34 := by omega
    have second : ∀ nWord : Nat, ¬ (nWord > 0xff ∧ (compactParts a.toNat).1 > 33) := by omega
    simp only [setCompact, getCompact_toNat, high, low]
    split
    · have third : ∀ nWord : Nat, ¬ (nWord > 0xffff ∧ (compactParts a.toNat).1 > 32) := by omega
      simp only [first, second, third, decide_false, Bool.or_self, Bool.and_false]
    · have third : ¬ ((compactParts a.toNat).2 > 0xffff ∧ (compactParts a.toNat).1 > 32) := by
        omega
      simp only [first, second, third, decide_false, Bool.or_self, Bool.and_false]
  · rw [getCompact, setCompact_target _ _ word (by omega) (by rw [value]; omega), value]

/-- The magnitude a form stands for: its mantissa times `256 ^ (size - 3)`, rounded down. -/
def magnitude (nCompact : BitVec 32) : Nat :=
  nCompact.toNat % 2 ^ 23 * 256 ^ (nCompact.toNat / 2 ^ 24) / 256 ^ 3

theorem magnitude_eq (nCompact : BitVec 32) :
    magnitude nCompact =
      compactValue (nCompact.toNat / 2 ^ 24) (nCompact.toNat % 2 ^ 23) := by
  rw [magnitude, compactValue]
  generalize nCompact.toNat / 2 ^ 24 = size
  generalize nCompact.toNat % 2 ^ 23 = word
  have bytes : ∀ n, (256 : Nat) ^ n = 2 ^ (8 * n) := fun n => by rw [Nat.pow_mul]
  rw [bytes, bytes]
  split
  · have split : 2 ^ (8 * 3) = 2 ^ (8 * (3 - size)) * 2 ^ (8 * size) := by
      rw [← Nat.pow_add]; congr 1; omega
    rw [split, Nat.mul_div_mul_right _ _ (Nat.two_pow_pos _)]
  · have split : 2 ^ (8 * size) = 2 ^ (8 * (size - 3)) * 2 ^ (8 * 3) := by
      rw [← Nat.pow_add]; congr 1; omega
    rw [split, ← Nat.mul_assoc, Nat.mul_div_cancel _ (Nat.two_pow_pos _)]

theorem compactValue_large (size word limit : Nat) (long : 3 < size)
    (reached : 2 ^ limit ≤ word) (wide : 256 ≤ limit + 8 * (size - 3)) :
    2 ^ 256 ≤ compactValue size word := by
  rw [compactValue, if_neg (by omega)]
  calc
    2 ^ 256 ≤ 2 ^ (limit + 8 * (size - 3)) := Nat.pow_le_pow_right (by decide) wide
    _ = 2 ^ limit * 2 ^ (8 * (size - 3)) := Nat.pow_add _ _ _
    _ ≤ word * 2 ^ (8 * (size - 3)) := Nat.mul_le_mul_right _ reached

theorem compactValue_small (size word limit : Nat) (long : 3 < size)
    (below : word < 2 ^ limit) (narrow : limit + 8 * (size - 3) ≤ 256) :
    compactValue size word < 2 ^ 256 := by
  rw [compactValue, if_neg (by omega)]
  calc
    word * 2 ^ (8 * (size - 3)) < 2 ^ limit * 2 ^ (8 * (size - 3)) :=
      Nat.mul_lt_mul_of_pos_right below (Nat.two_pow_pos _)
    _ = 2 ^ (limit + 8 * (size - 3)) := (Nat.pow_add _ _ _).symm
    _ ≤ 2 ^ 256 := Nat.pow_le_pow_right (by decide) narrow

/-- The overflow flag tells exactly when the magnitude does not fit. -/
theorem overflow_iff (nCompact : BitVec 32) :
    (setCompact nCompact).fOverflow = true ↔ 2 ^ 256 ≤ magnitude nCompact := by
  rw [magnitude_eq, setCompact]
  have mantissa : nCompact.toNat % 2 ^ 23 < 2 ^ 23 := Nat.mod_lt _ (by decide)
  generalize nCompact.toNat / 2 ^ 24 = size at *
  generalize nCompact.toNat % 2 ^ 23 = word at *
  by_cases short : size ≤ 3
  · have small : compactValue size word ≤ word := by
      rw [compactValue, if_pos short]
      exact Nat.div_le_self _ _
    have sizes : ¬ size > 34 ∧ ¬ size > 33 ∧ ¬ size > 32 := by omega
    have fits : ¬ 2 ^ 256 ≤ compactValue size word := by omega
    simp only [sizes, fits, and_false, decide_false, Bool.or_self, Bool.and_false,
      Bool.false_eq_true]
  · simp only [if_neg short, Bool.and_eq_true, Bool.or_eq_true, bne_iff_ne, decide_eq_true_eq]
    constructor
    · intro given
      obtain ⟨nonzero, (huge | large) | medium⟩ := given
      · exact compactValue_large size word 0 (by omega) (by omega) (by omega)
      · exact compactValue_large size word 8 (by omega) (by omega) (by omega)
      · exact compactValue_large size word 16 (by omega) (by omega) (by omega)
    · intro large
      by_contra fits
      have smaller : compactValue size word < 2 ^ 256 := by
        by_cases zero : word = 0
        · simp [zero, compactValue]
        · by_cases one : size = 34
          · exact compactValue_small size word 8 (by omega) (by omega) (by omega)
          · by_cases two : size = 33
            · exact compactValue_small size word 16 (by omega) (by omega) (by omega)
            · exact compactValue_small size word 24 (by omega) (by omega) (by omega)
      omega

/-- The forms `GetCompact` can write: no sign, one of the first nine bits of the
mantissa set, and nothing below the last byte of a short value. -/
def canonical (nCompact : BitVec 32) : Prop :=
  nCompact = 0 ∨ (2 ^ 15 ≤ nCompact.toNat % 2 ^ 23 ∧
    nCompact.toNat % 2 ^ 23 % 2 ^ (8 * (3 - nCompact.toNat / 2 ^ 24)) = 0)

instance (nCompact : BitVec 32) : Decidable (canonical nCompact) :=
  inferInstanceAs (Decidable (_ ∨ _))

/-- What is written is canonical. -/
theorem compactParts_aligned (a : Nat) :
    (compactParts a).2 % 2 ^ (8 * (3 - (compactParts a).1)) = 0 := by
  have padded : ∀ n, n ≤ 3 → byteLength a ≤ n →
      leadingWord a / 2 ^ (8 * (n - byteLength a)) = a * 2 ^ (8 * (3 - n)) := by
    intro n short covered
    have cut : 2 ^ 24 = 2 ^ (8 * (3 - n)) * 2 ^ (8 * n) := by
      rw [← Nat.pow_add]; congr 1; omega
    have joined : 8 * byteLength a + 8 * (n - byteLength a) = 8 * n := by omega
    rw [leadingWord, Nat.div_div_eq_div_mul, ← Nat.pow_add, joined, cut, ← Nat.mul_assoc,
      Nat.mul_div_cancel _ (Nat.two_pow_pos _)]
  rw [compactParts_eq]
  split
  · by_cases short : byteLength a + 1 ≤ 3
    · have word := padded (byteLength a + 1) short (by omega)
      have one : 8 * (byteLength a + 1 - byteLength a) = 8 := by omega
      rw [one] at word
      simp only [word, Nat.mul_mod_left]
    · have none : 8 * (3 - (byteLength a + 1)) = 0 := by omega
      simp only [none, Nat.pow_zero, Nat.mod_one]
  · by_cases short : byteLength a ≤ 3
    · have word := padded (byteLength a) short (Nat.le_refl _)
      simp only [Nat.sub_self, Nat.mul_zero, Nat.pow_zero, Nat.div_one] at word
      simp only [word, Nat.mul_mod_left]
    · have none : 8 * (3 - byteLength a) = 0 := by omega
      simp only [none, Nat.pow_zero, Nat.mod_one]

theorem getCompact_canonical (a : Uint256) : canonical (getCompact a) := by
  obtain ⟨word, size, -⟩ := compactParts_bounds a.toNat
  rcases Nat.eq_zero_or_pos a.toNat with zero | positive
  · left
    apply BitVec.eq_of_toNat_eq
    rw [getCompact_toNat, zero, compactNumber, compactParts_zero]
    rfl
  · right
    have high : compactNumber a.toNat / 2 ^ 24 = (compactParts a.toNat).1 := by
      rw [compactNumber]
      omega
    have low : compactNumber a.toNat % 2 ^ 23 = (compactParts a.toNat).2 := by
      rw [compactNumber]
      omega
    rw [getCompact_toNat, high, low]
    exact ⟨compactParts_leads _ positive, compactParts_aligned _⟩

/-- A value whose first nine bits reach into a mantissa is written with it. -/
theorem compactParts_of (a size word : Nat) (mantissa : word < 2 ^ 23) (leads : 2 ^ 15 ≤ word)
    (scaled : a * 2 ^ 24 = word * 2 ^ (8 * size)) : compactParts a = (size, word) := by
  have positive : 0 < size := by
    by_contra zero
    have empty : size = 0 := by omega
    subst empty
    omega
  by_cases full : 2 ^ 16 ≤ word
  · obtain ⟨n, rfl⟩ : ∃ n, size = n + 1 := Nat.exists_eq_succ_of_ne_zero (by omega)
    have power : 2 ^ (8 * (n + 1)) = 2 ^ (8 * n) * 2 ^ 8 := Nat.pow_add 2 (8 * n) 8
    have length : byteLength a = n + 1 := by
      apply byteLength_eq
      · apply Nat.le_of_mul_le_mul_right (c := 2 ^ 24) _ (by decide)
        calc
          2 ^ (8 * n) * 2 ^ 24 = 2 ^ 16 * 2 ^ (8 * (n + 1)) := by rw [power]; ring
          _ ≤ word * 2 ^ (8 * (n + 1)) := Nat.mul_le_mul_right _ full
          _ = a * 2 ^ 24 := scaled.symm
      · apply Nat.lt_of_mul_lt_mul_right (a := 2 ^ 24)
        calc
          a * 2 ^ 24 = word * 2 ^ (8 * (n + 1)) := scaled
          _ < 2 ^ 24 * 2 ^ (8 * (n + 1)) :=
            Nat.mul_lt_mul_of_pos_right (by omega) (Nat.two_pow_pos _)
          _ = 2 ^ (8 * (n + 1)) * 2 ^ 24 := Nat.mul_comm _ _
    have lead : leadingWord a = word := by
      rw [leadingWord, scaled, length, Nat.mul_div_cancel _ (Nat.two_pow_pos _)]
    rw [compactParts_eq, lead, if_neg (by omega), length]
  · have longer : size ≠ 1 := by
      rintro rfl
      omega
    obtain ⟨n, rfl⟩ : ∃ n, size = n + 2 := ⟨size - 2, by omega⟩
    have power : 2 ^ (8 * (n + 2)) = 2 ^ (8 * n) * 2 ^ 16 := Nat.pow_add 2 (8 * n) 16
    have shorter : 2 ^ (8 * (n + 1)) = 2 ^ (8 * n) * 2 ^ 8 := Nat.pow_add 2 (8 * n) 8
    have length : byteLength a = n + 1 := by
      apply byteLength_eq
      · apply Nat.le_of_mul_le_mul_right (c := 2 ^ 24) _ (by decide)
        calc
          2 ^ (8 * n) * 2 ^ 24 ≤ 2 ^ 15 * 2 ^ (8 * (n + 2)) := by rw [power]; omega
          _ ≤ word * 2 ^ (8 * (n + 2)) := Nat.mul_le_mul_right _ leads
          _ = a * 2 ^ 24 := scaled.symm
      · apply Nat.lt_of_mul_lt_mul_right (a := 2 ^ 24)
        calc
          a * 2 ^ 24 = word * 2 ^ (8 * (n + 2)) := scaled
          _ < 2 ^ 16 * 2 ^ (8 * (n + 2)) :=
            Nat.mul_lt_mul_of_pos_right (by omega) (Nat.two_pow_pos _)
          _ = 2 ^ (8 * (n + 1)) * 2 ^ 24 := by rw [power, shorter]; ring
    have lead : leadingWord a = word * 2 ^ 8 := by
      have wider : 2 ^ (8 * (n + 2)) = 2 ^ 8 * 2 ^ (8 * (n + 1)) := by rw [power, shorter]; ring
      rw [leadingWord, scaled, length, wider, ← Nat.mul_assoc,
        Nat.mul_div_cancel _ (Nat.two_pow_pos _)]
    rw [compactParts_eq, lead, if_pos (by omega), length, Nat.mul_div_cancel _ (by decide)]

/-- A canonical form that is not negative has its sign bit clear. -/
theorem unsigned_of_canonical (nCompact : BitVec 32) (leads : 2 ^ 15 ≤ nCompact.toNat % 2 ^ 23)
    (aligned : nCompact.toNat % 2 ^ 23 % 2 ^ (8 * (3 - nCompact.toNat / 2 ^ 24)) = 0)
    (negative : (setCompact nCompact).fNegative = false) :
    nCompact.toNat = nCompact.toNat % 2 ^ 23 + nCompact.toNat / 2 ^ 24 * 2 ^ 24 := by
  have nonzero : (if nCompact.toNat / 2 ^ 24 ≤ 3
      then nCompact.toNat % 2 ^ 23 / 2 ^ (8 * (3 - nCompact.toNat / 2 ^ 24))
      else nCompact.toNat % 2 ^ 23) ≠ 0 := by
    split
    · intro zero
      have parts := Nat.div_add_mod (nCompact.toNat % 2 ^ 23)
        (2 ^ (8 * (3 - nCompact.toNat / 2 ^ 24)))
      rw [zero, aligned] at parts
      omega
    · omega
  have clear : nCompact.toNat.testBit 23 = false := by
    simpa only [setCompact, bne_iff_ne.mpr nonzero, Bool.true_and] using negative
  rw [Nat.testBit_eq_decide_div_mod_eq, decide_eq_false_iff_not] at clear
  omega

/-- An aligned mantissa is not rounded. -/
theorem compactValue_scaled (size word : Nat) (aligned : word % 2 ^ (8 * (3 - size)) = 0) :
    compactValue size word * 2 ^ 24 = word * 2 ^ (8 * size) := by
  rw [compactValue]
  split
  · have split : 2 ^ 24 = 2 ^ (8 * (3 - size)) * 2 ^ (8 * size) := by
      rw [← Nat.pow_add]; congr 1; omega
    rw [split, ← Nat.mul_assoc, Nat.div_mul_cancel (Nat.dvd_of_mod_eq_zero aligned)]
  · rw [Nat.mul_assoc, ← Nat.pow_add]
    congr 2
    omega

/-- Encoding what a form decodes to gives the form back for the canonical forms
without sign and overflow, and for no others. -/
theorem getCompact_setCompact_iff (nCompact : BitVec 32) :
    getCompact (setCompact nCompact).target = nCompact ↔
      canonical nCompact ∧ (setCompact nCompact).fNegative = false ∧
        (setCompact nCompact).fOverflow = false := by
  constructor
  · intro same
    have exact := setCompact_getCompact_exact (setCompact nCompact).target
    have form := getCompact_canonical (setCompact nCompact).target
    rw [same] at exact form
    exact ⟨form, exact.1, exact.2.1⟩
  · intro given
    obtain ⟨rfl | ⟨leads, aligned⟩, negative, overflow⟩ := given
    · decide +kernel
    · have whole := nCompact.isLt
      have mantissa : nCompact.toNat % 2 ^ 23 < 2 ^ 23 := Nat.mod_lt _ (by decide)
      have fits : magnitude nCompact < 2 ^ 256 := by
        have flagged := overflow_iff nCompact
        rw [overflow] at flagged
        by_contra large
        exact Bool.noConfusion (flagged.mpr (by omega))
      have plain := unsigned_of_canonical nCompact leads aligned negative
      rw [magnitude_eq] at fits
      have scaled := compactValue_scaled _ _ aligned
      have size : nCompact.toNat / 2 ^ 24 < 2 ^ 8 := by omega
      have packed : nCompact =
          BitVec.ofNat 32 (nCompact.toNat % 2 ^ 23 + nCompact.toNat / 2 ^ 24 * 2 ^ 24) := by
        rw [← plain, BitVec.ofNat_toNat, BitVec.setWidth_eq]
      have target := setCompact_target _ _ mantissa size fits
      rw [← packed] at target
      rw [getCompact, target, compactParts_of _ _ _ mantissa leads scaled]
      exact packed.symm

end ArithUint256

namespace BaseUint

open ArithUint256 (byteLength leadingWord leadingWord_lt leadingWord_eq compactParts
  compactParts_eq compactParts_bounds compactNumber byteLength_le)

variable {WIDTH : Nat}

/-- `GetCompact`; `none` where an assertion fails. -/
def getCompact (a : BaseUint 8) (fNegative : Bool) : Option (BitVec 32) :=
  let nSize := (a.bits + 7) / 8
  let nCompact : BitVec 32 :=
    if nSize ≤ 3 then (a.getLow64 <<< (8 * (3 - nSize))).setWidth 32
    else (a.shrAssign (8 * (nSize - 3))).getLow64.setWidth 32
  let signed := nCompact &&& 0x00800000#32 != 0
  let nSize := if signed then nSize + 1 else nSize
  let nCompact := if signed then nCompact >>> 8 else nCompact
  if nCompact &&& ~~~0x007fffff#32 != 0 || decide (nSize ≥ 256) then none
  else
    let nCompact := nCompact ||| BitVec.ofNat 32 nSize <<< 24
    some (nCompact ||| if fNegative && nCompact &&& 0x007fffff#32 != 0 then 0x00800000#32 else 0)

theorem getLow64_value (a : BaseUint WIDTH) : a.getLow64.toNat = a.value % 2 ^ 64 := by
  have low := (a.pn.getD 0 0).isLt
  have first : a.value % 2 ^ 32 = (a.pn.getD 0 0).toNat := by
    have start := WordBits.value_before_add a.pn (by decide) 0
    simpa [Nat.mod_one, value] using start
  have words : a.value % 2 ^ 64 = (a.pn.getD 0 0).toNat + (a.pn.getD 1 0).toNat * 2 ^ 32 := by
    rw [← first]
    exact WordBits.value_before_add a.pn (by decide) 1
  rw [words, getLow64, BitVec.toNat_or, BitVec.toNat_shiftLeft, BitVec.toNat_setWidth,
    BitVec.toNat_setWidth]
  have high := (a.pn.getD 1 0).isLt
  have fits : ((a.pn.getD 1 0).toNat % 2 ^ 64) <<< 32 % 2 ^ 64 = 2 ^ 32 * (a.pn.getD 1 0).toNat := by
    rw [Nat.shiftLeft_eq]
    omega
  rw [fits, Nat.mod_eq_of_lt (by omega), Nat.or_comm, ← Nat.two_pow_add_eq_or_of_lt low]
  omega


theorem no_high_bits (word : BitVec 32) (small : word.toNat < 2 ^ 23) :
    (word &&& ~~~0x007fffff#32 != 0) = false := by
  rw [bne_zero, BitVec.toNat_and]
  have mask : (~~~0x007fffff#32).toNat = 511 * 2 ^ 23 := by decide
  have empty : word.toNat &&& 511 * 2 ^ 23 = 0 := by
    apply Nat.eq_of_testBit_eq
    intro b
    rw [Nat.testBit_and, Nat.testBit_mul_two_pow]
    by_cases low : 23 ≤ b
    · have high : 2 ^ 23 ≤ 2 ^ b := Nat.pow_le_pow_right (by decide) low
      simp [Nat.testBit_lt_two_pow (Nat.lt_of_lt_of_le small high)]
    · simp [low]
  rw [mask, empty]
  rfl

/-- The size byte is written above the mantissa. -/
theorem packed_toNat (word : BitVec 32) (nSize : Nat) (small : word.toNat < 2 ^ 24)
    (size : nSize < 2 ^ 8) :
    (word ||| BitVec.ofNat 32 nSize <<< 24 ||| 0).toNat = word.toNat + nSize * 2 ^ 24 := by
  have shifted : nSize % 2 ^ 32 * 2 ^ 24 % 2 ^ 32 = 2 ^ 24 * nSize := by omega
  have unsigned : word ||| BitVec.ofNat 32 nSize <<< 24 ||| (0 : BitVec 32) =
      word ||| BitVec.ofNat 32 nSize <<< 24 := BitVec.or_zero
  rw [unsigned, BitVec.toNat_or, BitVec.toNat_shiftLeft, BitVec.toNat_ofNat, Nat.shiftLeft_eq, shifted, Nat.or_comm, ← Nat.two_pow_add_eq_or_of_lt small]
  omega

theorem getCompact_refines (a : BaseUint 8) :
    getCompact a false = some (ArithUint256.getCompact a.toUint256) := by
  have lead := leadingWord_lt a.value
  have parts := compactParts_eq a.value
  obtain ⟨below, size, -⟩ := compactParts_bounds a.value
  have length := (byteLength_le a.value 32).mpr a.value_lt
  have bytes : (a.bits + 7) / 8 = byteLength a.value := by rw [bits_value]; rfl
  have word : (if byteLength a.value ≤ 3
      then (a.getLow64 <<< (8 * (3 - byteLength a.value))).setWidth 32
      else (a.shrAssign (8 * (byteLength a.value - 3))).getLow64.setWidth 32 : BitVec 32).toNat =
      leadingWord a.value := by
    have cases := leadingWord_eq a.value
    split
    · rename_i short
      rw [if_pos short] at cases
      have small : a.value < 2 ^ 24 :=
        Nat.lt_of_le_of_lt (Nat.le_mul_of_pos_right _ (Nat.two_pow_pos _)) (cases ▸ lead)
      rw [BitVec.toNat_setWidth, BitVec.toNat_shiftLeft, Nat.shiftLeft_eq, getLow64_value,
        Nat.mod_eq_of_lt (a := a.value) (by omega), cases, Nat.mod_eq_of_lt (by omega),
        Nat.mod_eq_of_lt (by omega)]
    · rename_i long
      rw [if_neg long] at cases
      rw [BitVec.toNat_setWidth, getLow64_value, shrAssign_value, cases,
        Nat.mod_eq_of_lt (by omega), Nat.mod_eq_of_lt (by omega)]
  simp only [getCompact, bytes]
  generalize (if byteLength a.value ≤ 3
      then (a.getLow64 <<< (8 * (3 - byteLength a.value))).setWidth 32
      else (a.shrAssign (8 * (byteLength a.value - 3))).getLow64.setWidth 32 : BitVec 32) =
      nCompact at word
  have signed : (nCompact &&& 0x00800000#32 != 0) = decide (2 ^ 23 ≤ leadingWord a.value) := by
    rw [sign_bit, word, ArithUint256.mantissa_bit _ lead]
  have mantissa : (if (nCompact &&& 0x00800000#32 != 0) = true then nCompact >>> 8
      else nCompact).toNat = (compactParts a.value).2 := by
    rw [signed, parts]
    simp only [decide_eq_true_eq]
    split
    · rw [BitVec.toNat_ushiftRight, word, Nat.shiftRight_eq_div_pow]
    · exact word
  have nSize : (if (nCompact &&& 0x00800000#32 != 0) = true then byteLength a.value + 1
      else byteLength a.value) = (compactParts a.value).1 := by
    rw [signed, parts]
    simp only [decide_eq_true_eq]
    split <;> rfl
  rw [nSize]
  generalize (if (nCompact &&& 0x00800000#32 != 0) = true then nCompact >>> 8
      else nCompact) = kept at mantissa
  have inside : (kept &&& ~~~0x007fffff#32 != 0) = false := no_high_bits kept (by omega)
  have short : ¬ (compactParts a.value).1 ≥ 256 := by omega
  simp only [inside, short, decide_false, Bool.or_self, Bool.false_eq_true, if_false,
    Bool.false_and, Option.some.injEq]
  apply BitVec.eq_of_toNat_eq
  rw [ArithUint256.getCompact_toNat, toUint256_toNat, compactNumber, ← mantissa]
  exact packed_toNat kept _ (by omega) (by omega)

end BaseUint

open BaseUint ArithUint256

/-- Compact targets: an encoded value decodes without flags to its leading bytes, encoding
keeps the order, exactly the canonical forms without sign and overflow come back, and the
overflow flag tells exactly when the magnitude does not fit in 256 bits. -/
theorem compact_targets :
    (∀ x : BaseUint 8, ∃ nCompact, x.getCompact false = some nCompact ∧
      (BaseUint.setCompact nCompact).fNegative = false ∧
      (BaseUint.setCompact nCompact).fOverflow = false ∧
      (BaseUint.setCompact nCompact).target.value ≤ x.value ∧
      (BaseUint.setCompact nCompact).target.value = leadingBytes x.value) ∧
    (∀ x y : BaseUint 8, x.value ≤ y.value → ∃ low high, x.getCompact false = some low ∧
      y.getCompact false = some high ∧ low ≤ high) ∧
    (∀ nCompact, (BaseUint.setCompact nCompact).target.getCompact false = some nCompact ↔
      canonical nCompact ∧ (BaseUint.setCompact nCompact).fNegative = false ∧
        (BaseUint.setCompact nCompact).fOverflow = false) ∧
    (∀ nCompact, (BaseUint.setCompact nCompact).fOverflow = true ↔
      2 ^ 256 ≤ magnitude nCompact) := by
  have refined := fun nCompact => setCompact_refines nCompact
  have value : ∀ nCompact, (BaseUint.setCompact nCompact).target.value =
      (ArithUint256.setCompact nCompact).target.toNat := by
    intro nCompact
    rw [← (refined nCompact).1, toUint256_toNat]
  refine ⟨?_, ?_, ?_, ?_⟩
  · intro x
    have exact := setCompact_getCompact_exact x.toUint256
    have below := leadingBytes_le x.value
    rw [toUint256_toNat] at exact
    refine ⟨_, getCompact_refines x, ?_, ?_, ?_, ?_⟩
    · rw [(refined _).2.1]
      exact exact.1
    · rw [(refined _).2.2]
      exact exact.2.1
    · rw [value, exact.2.2]
      exact below
    · rw [value]
      exact exact.2.2
  · intro x y ordered
    refine ⟨_, _, getCompact_refines x, getCompact_refines y, ?_⟩
    rw [BitVec.le_def, getCompact_toNat, getCompact_toNat, toUint256_toNat, toUint256_toNat]
    exact compactNumber_mono _ _ ordered
  · intro nCompact
    rw [getCompact_refines, (refined nCompact).1, (refined nCompact).2.1, (refined nCompact).2.2,
      Option.some.injEq]
    exact getCompact_setCompact_iff nCompact
  · intro nCompact
    rw [(refined nCompact).2.2]
    exact overflow_iff nCompact

end RoiCoin
