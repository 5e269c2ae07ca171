import RoiCoin.BaseUintDivision

/-! Compact targets and block proofs on `base_uint<256>`, and what they are as numbers. -/

namespace RoiCoin
namespace BaseUint

structure Compact where
  target : BaseUint 8
  fNegative : Bool
  fOverflow : Bool

/-- `SetCompact` -/
def setCompact (nCompact : BitVec 32) : Compact :=
  let nSize := (nCompact >>> 24).toNat
  let nWord := nCompact &&& 0x007fffff#32
  let nWord := if nSize ≤ 3 then nWord >>> (8 * (3 - nSize)) else nWord
  { target := if nSize ≤ 3 then ofUint64 (nWord.setWidth 64)
      else (ofUint64 (nWord.setWidth 64)).shlAssign (8 * (nSize - 3))
    fNegative := nWord != 0 && (nCompact &&& 0x00800000#32) != 0
    fOverflow := nWord != 0 && (decide (nSize > 34) ||
      decide (nWord > 0xff#32 ∧ nSize > 33) || decide (nWord > 0xffff#32 ∧ nSize > 32)) }

/-- `GetBlockProof` -/
def getBlockProof (nBits : BitVec 32) : Except String (BaseUint 8) :=
  let bnTarget := setCompact nBits
  if bnTarget.fNegative || bnTarget.fOverflow || bnTarget.target.equalTo 0 then .ok (ofUint64 0)
  else do
    let quotient ← bnTarget.target.complement.divAssign (bnTarget.target.addAssign (ofUint64 1))
    pure (quotient.addAssign (ofUint64 1))

/-- `nChainWork` of the last block of a chain, its first block last. -/
def chainWork : List (BitVec 32) → Except String (BaseUint 8)
  | [] => pure (ofUint64 0)
  | nBits :: earlier => do
      let work ← chainWork earlier
      let proof ← getBlockProof nBits
      pure (work.addAssign proof)

def toUint256 (a : BaseUint 8) : Uint256 := BitVec.ofNat 256 a.value

theorem toUint256_toNat (a : BaseUint 8) : a.toUint256.toNat = a.value := by
  rw [toUint256, BitVec.toNat_ofNat]
  exact Nat.mod_eq_of_lt a.value_lt

theorem ofUint64_value (b : BitVec 64) : (ofUint64 b : BaseUint (WIDTH + 2)).value = b.toNat := by
  have bound := b.isLt
  have zeros : WordBits.value (List.replicate WIDTH (0 : BitVec 32)) = 0 :=
    value_zero
  rw [value, ofUint64, WordBits.value_cons, WordBits.value_cons, zeros, BitVec.toNat_setWidth,
    BitVec.toNat_setWidth, BitVec.toNat_ushiftRight, Nat.shiftRight_eq_div_pow]
  omega

theorem value_eq_zero (words : List (BitVec 32)) :
    WordBits.value words = 0 ↔ ∀ word ∈ words, word = 0 := by
  induction words with
  | nil => simp
  | cons word words ih =>
      have zero : word.toNat = 0 ↔ word = 0 :=
        ⟨fun empty => BitVec.eq_of_toNat_eq empty, fun empty => by rw [empty]; rfl⟩
      rw [WordBits.value_cons, List.forall_mem_cons, ← ih, ← zero]
      omega

theorem equalTo_zero (a : BaseUint (WIDTH + 2)) : a.equalTo 0 = decide (a.value = 0) := by
  obtain ⟨pn, size⟩ := a
  match pn, size with
  | low :: high :: rest, _ =>
      rw [Bool.eq_iff_iff, decide_eq_true_iff, value, value_eq_zero]
      have clear : rest.any (· != 0) = false ↔ ∀ word ∈ rest, word = 0 := by
        simp
      simp only [equalTo, List.drop_succ_cons, List.drop_zero, List.getD_cons_zero,
        List.getD_cons_succ, List.forall_mem_cons, ← clear]
      cases rest.any (· != 0)
      · simp [and_comm]
      · simp

theorem bne_zero (word : BitVec 32) : (word != 0) = (word.toNat != 0) := by
  rw [Bool.eq_iff_iff, bne_iff_ne, bne_iff_ne, not_iff_not]
  exact ⟨fun empty => by rw [empty]; rfl, fun empty => BitVec.eq_of_toNat_eq empty⟩

theorem sign_bit (word : BitVec 32) :
    (word &&& 0x00800000#32 != 0) = word.toNat.testBit 23 := by
  have masked : (word &&& 0x00800000#32).toNat = (word.toNat.testBit 23).toNat * 2 ^ 23 := by
    rw [BitVec.toNat_and]
    exact Nat.and_two_pow _ 23
  rw [bne_zero, masked]
  cases word.toNat.testBit 23 <;> rfl

/-- `SetCompact` on the words agrees with the one on numbers. -/
theorem setCompact_refines (nCompact : BitVec 32) :
    (setCompact nCompact).target.toUint256 = (ArithUint256.setCompact nCompact).target ∧
      (setCompact nCompact).fNegative = (ArithUint256.setCompact nCompact).fNegative ∧
      (setCompact nCompact).fOverflow = (ArithUint256.setCompact nCompact).fOverflow := by
  have size : (nCompact >>> 24).toNat = nCompact.toNat / 2 ^ 24 := by
    rw [BitVec.toNat_ushiftRight, Nat.shiftRight_eq_div_pow]
  have mask : (nCompact &&& 0x007fffff#32).toNat = nCompact.toNat % 2 ^ 23 := by
    rw [BitVec.toNat_and]
    exact Nat.and_two_pow_sub_one_eq_mod _ 23
  have mantissa : ∀ nSize, (if nSize ≤ 3 then (nCompact &&& 0x007fffff#32) >>> (8 * (3 - nSize))
      else nCompact &&& 0x007fffff#32).toNat =
      if nSize ≤ 3 then nCompact.toNat % 2 ^ 23 / 2 ^ (8 * (3 - nSize))
        else nCompact.toNat % 2 ^ 23 := by
    intro nSize
    split
    · rw [BitVec.toNat_ushiftRight, Nat.shiftRight_eq_div_pow, mask]
    · exact mask
  have sign := sign_bit nCompact
  simp only [bne_zero] at sign
  simp only [setCompact, ArithUint256.setCompact, size, bne_zero, sign, mantissa, BitVec.lt_def,
    GT.gt]
  refine ⟨?_, trivial, rfl⟩
  apply BitVec.eq_of_toNat_eq
  have kept := mantissa (nCompact.toNat / 2 ^ 24)
  have word : nCompact.toNat % 2 ^ 23 < 2 ^ 23 := Nat.mod_lt _ (by decide)
  rw [toUint256_toNat]
  split
  · rename_i short
    simp only [if_pos short] at kept
    have below := ((nCompact &&& 0x007fffff#32) >>> (8 * (3 - nCompact.toNat / 2 ^ 24))).isLt
    rw [ofUint64_value, BitVec.toNat_setWidth, kept, BitVec.toNat_ofNat]
    omega
  · rename_i long
    have narrow : nCompact.toNat % 2 ^ 23 % 2 ^ 64 = nCompact.toNat % 2 ^ 23 :=
      Nat.mod_eq_of_lt (by omega)
    have wide : nCompact.toNat % 2 ^ 23 % 2 ^ 256 = nCompact.toNat % 2 ^ 23 :=
      Nat.mod_eq_of_lt (by omega)
    rw [shlAssign_value, ofUint64_value, BitVec.toNat_setWidth, BitVec.toNat_shiftLeft,
      BitVec.toNat_ofNat, Nat.shiftLeft_eq, mask, narrow, wide]

/-- A decoded target is never the largest number, so its successor is not zero. -/
theorem setCompact_not_top (nCompact : BitVec 32) :
    (setCompact nCompact).target.value ≠ 2 ^ 256 - 1 := by
  rw [← toUint256_toNat, (setCompact_refines nCompact).1, ArithUint256.setCompact]
  have word : nCompact.toNat % 2 ^ 23 < 2 ^ 23 := Nat.mod_lt _ (by decide)
  split
  · have shifted := Nat.div_le_self (nCompact.toNat % 2 ^ 23)
      (2 ^ (8 * (3 - nCompact.toNat / 2 ^ 24)))
    rw [BitVec.toNat_ofNat]
    generalize nCompact.toNat % 2 ^ 23 / 2 ^ (8 * (3 - nCompact.toNat / 2 ^ 24)) = quotient at *
    omega
  · rename_i long
    obtain ⟨half, power⟩ : 2 ∣ 2 ^ (8 * (nCompact.toNat / 2 ^ 24 - 3)) :=
      dvd_pow_self 2 (by omega)
    rw [BitVec.toNat_shiftLeft, Nat.shiftLeft_eq, power, Nat.mul_left_comm]
    omega

/-- The expected number of hashes for a target, zero for targets that are refused. -/
def blockWork (nBits : BitVec 32) : Nat :=
  let bnTarget := setCompact nBits
  if bnTarget.fNegative || bnTarget.fOverflow || decide (bnTarget.target.value = 0) then 0
  else 2 ^ 256 / (bnTarget.target.value + 1)

/-- `2 ^ 256 / (T + 1)` from the complement, without leaving 256 bits. -/
theorem complement_quotient (target : Nat) (small : target < 2 ^ 256) :
    (2 ^ 256 - 1 - target) / (target + 1) + 1 = 2 ^ 256 / (target + 1) := by
  have total : 2 ^ 256 = 2 ^ 256 - 1 - target + (target + 1) := by omega
  calc
    (2 ^ 256 - 1 - target) / (target + 1) + 1 =
        (2 ^ 256 - 1 - target + (target + 1)) / (target + 1) :=
      (Nat.add_div_right _ (Nat.succ_pos target)).symm
    _ = 2 ^ 256 / (target + 1) := by rw [← total]

theorem getBlockProof_value (nBits : BitVec 32) :
    ∃ proof, getBlockProof nBits = .ok proof ∧ proof.value = blockWork nBits := by
  have notTop := setCompact_not_top nBits
  have small := (setCompact nBits).target.value_lt
  have flipped := (setCompact nBits).target.complement_value
  have one : (ofUint64 1 : BaseUint 8).value = 1 := ofUint64_value 1
  simp only [getBlockProof, blockWork, equalTo_zero]
  split
  · exact ⟨_, rfl, ofUint64_value 0⟩
  · rename_i valid
    simp only [Bool.or_eq_true, decide_eq_true_eq, not_or] at valid
    generalize (setCompact nBits).target = target at *
    have successor : (target.addAssign (ofUint64 1)).value = target.value + 1 := by
      rw [addAssign_value, one, Nat.mod_eq_of_lt (by omega)]
    have complemented : target.complement.value = 2 ^ 256 - 1 - target.value := by omega
    obtain ⟨quotient, divided, exact⟩ :=
      divAssign_value target.complement (target.addAssign (ofUint64 1)) (by omega)
    have halved : 2 ^ 256 / (target.value + 1) < 2 ^ 256 := Nat.div_lt_self (by decide) (by omega)
    refine ⟨quotient.addAssign (ofUint64 1), by rw [divided]; rfl, ?_⟩
    rw [addAssign_value, one, exact, successor, complemented, complement_quotient _ small,
      Nat.mod_eq_of_lt halved]

theorem chainWork_value (chain : List (BitVec 32)) :
    ∃ work, chainWork chain = .ok work ∧ work.value = (chain.map blockWork).sum % 2 ^ 256 := by
  induction chain with
  | nil => exact ⟨_, rfl, ofUint64_value 0⟩
  | cons nBits earlier ih =>
      obtain ⟨work, summed, total⟩ := ih
      obtain ⟨proof, proved, amount⟩ := getBlockProof_value nBits
      refine ⟨work.addAssign proof, by rw [chainWork, summed, proved]; rfl, ?_⟩
      rw [addAssign_value, total, amount, List.map_cons, List.sum_cons, Nat.add_comm (blockWork _)]
      exact Nat.mod_add_mod _ _ _

/-- The block tree keeps the proof the words compute. -/
theorem getBlockProof_refines (nBits : BitVec 32) :
    (RoiCoin.getBlockProof nBits).toNat = blockWork nBits := by
  obtain ⟨target, negative, overflow⟩ := setCompact_refines nBits
  have notTop := setCompact_not_top nBits
  have small := (setCompact nBits).target.value_lt
  have value : (ArithUint256.setCompact nBits).target.toNat = (setCompact nBits).target.value := by
    rw [← target, toUint256_toNat]
  have zero : ((ArithUint256.setCompact nBits).target == 0) =
      decide ((setCompact nBits).target.value = 0) := by
    rw [Bool.eq_iff_iff, beq_iff_eq, decide_eq_true_iff, ← value]
    exact ⟨fun empty => by rw [empty]; rfl, fun empty => BitVec.eq_of_toNat_eq empty⟩
  simp only [RoiCoin.getBlockProof, blockWork, ← negative, ← overflow, zero]
  split
  · rfl
  · rename_i valid
    simp only [Bool.or_eq_true, decide_eq_true_eq, not_or] at valid
    have successor : ((ArithUint256.setCompact nBits).target + 1).toNat =
        (setCompact nBits).target.value + 1 := by
      have one : (1 : Uint256).toNat = 1 := rfl
      rw [BitVec.toNat_add, value, one]
      exact Nat.mod_eq_of_lt (by omega)
    have halved : 2 ^ 256 / ((setCompact nBits).target.value + 1) < 2 ^ 256 :=
      Nat.div_lt_self (by decide) (by omega)
    rw [BitVec.toNat_add, BitVec.toNat_udiv, BitVec.toNat_not, successor, value]
    exact (congrArg (· % 2 ^ 256) (complement_quotient _ small)).trans (Nat.mod_eq_of_lt halved)

end BaseUint

open BaseUint

/-- The word loops compute on the numbers: sums, products, shifts and quotients are exact
modulo `2 ^ 256`, the proof of a valid target is `2 ^ 256 / (T + 1)`, and chain work adds
these up and compares as numbers do. -/
theorem base_uint_exact (a b : BaseUint 8) :
    (a.addAssign b).value = (a.value + b.value) % 2 ^ 256 ∧
      (a.mulAssign b).value = a.value * b.value % 2 ^ 256 ∧
      (∀ b32 : BitVec 32, (a.scaleAssign b32).value = a.value * b32.toNat % 2 ^ 256) ∧
      (∀ shift, (a.shlAssign shift).value = a.value * 2 ^ shift % 2 ^ 256) ∧
      (∀ shift, (a.shrAssign shift).value = a.value / 2 ^ shift) ∧
      (b.value ≠ 0 → ∃ quotient, a.divAssign b = .ok quotient ∧
        quotient.value = a.value / b.value) ∧
      (∀ nBits, (setCompact nBits).fNegative = false → (setCompact nBits).fOverflow = false →
        0 < (setCompact nBits).target.value → ∃ proof, BaseUint.getBlockProof nBits = .ok proof ∧
          proof.value = 2 ^ 256 / ((setCompact nBits).target.value + 1)) ∧
      (∀ chain, ∃ work, chainWork chain = .ok work ∧
        work.value = (chain.map blockWork).sum % 2 ^ 256) ∧
      (a.compareTo b < 0 ↔ a.value < b.value) ∧ (a.compareTo b > 0 ↔ b.value < a.value) := by
  have below : a.compareTo b < 0 ↔ a.value < b.value := by
    rw [compareTo_value]
    split
    · omega
    · split <;> omega
  have above : a.compareTo b > 0 ↔ b.value < a.value := by
    rw [compareTo_value]
    split
    · omega
    · split <;> omega
  refine ⟨addAssign_value a b, mulAssign_value a b, scaleAssign_value a, shlAssign_value a,
    shrAssign_value a, divAssign_value a b, ?_, chainWork_value, below, above⟩
  intro nBits positive inside nonzero
  obtain ⟨proof, computed, value⟩ := getBlockProof_value nBits
  refine ⟨proof, computed, ?_⟩
  have target : decide ((setCompact nBits).target.value = 0) = false :=
    decide_eq_false (by omega)
  simpa [blockWork, positive, inside, target] using value

theorem base_uint_exact_quotient :
    (∃ quotient, (ofUint64 100 : BaseUint 8).divAssign (ofUint64 7) = .ok quotient ∧
      quotient.value = 14) ∧
    ∃ proof, BaseUint.getBlockProof 0x1d00ffff = .ok proof ∧ proof.value = 0x100010001 := by
  have exact := base_uint_exact (ofUint64 100) (ofUint64 7)
  have target : (setCompact 0x1d00ffff).target.value = 0xffff * 2 ^ 208 := by decide +kernel
  have quotient := exact.2.2.2.2.2.1 (by rw [ofUint64_value]; decide)
  have proof := exact.2.2.2.2.2.2.1 0x1d00ffff (by decide +kernel) (by decide +kernel)
    (by rw [target]; decide)
  rw [target] at proof
  rw [ofUint64_value, ofUint64_value] at quotient
  exact ⟨quotient, proof⟩

end RoiCoin
