import RoiCoin.ChainParams
import RoiCoin.Block

/-! Legacy retargeting and the proof-of-work test (`pow.cpp`). -/

namespace RoiCoin

open ArithUint256

/-- The adjustment step limit: the timespan is kept between a quarter and four times the target. -/
def limitTimespan (params : ConsensusParams) (nActualTimespan : Int) : Int :=
  let nActualTimespan :=
    if nActualTimespan < params.nPowTargetTimespan.tdiv 4 then params.nPowTargetTimespan.tdiv 4
    else nActualTimespan
  if nActualTimespan > params.nPowTargetTimespan * 4 then params.nPowTargetTimespan * 4
  else nActualTimespan

def calculateNextWorkRequired (pindexLast : CBlockIndex) (nFirstBlockTime : Int)
    (params : ConsensusParams) : BitVec 32 :=
  if params.fPowNoRetargeting then pindexLast.nBits
  else
    let nActualTimespan := limitTimespan params (pindexLast.getBlockTime - nFirstBlockTime)
    let bnOld := (setCompact pindexLast.nBits).target
    -- the argument of `operator*=` is converted to `uint32_t`
    let bnNew := mulAssign bnOld (nActualTimespan % 2 ^ 32).toNat
    let bnNew := bnNew / BitVec.ofInt 256 params.nPowTargetTimespan
    getCompact (if bnNew > params.powLimitHistoric then params.powLimitHistoric else bnNew)

def checkProofOfWork (hash : Uint256) (nBits : BitVec 32) (activePowLimit : Uint256) : Bool :=
  let bnTarget := setCompact nBits
  if bnTarget.fNegative || bnTarget.target == 0 || bnTarget.fOverflow ||
      decide (bnTarget.target > activePowLimit) then false
  else !decide (hash > bnTarget.target)

/-- The retarget rule over the integers: the old target scaled by the limited
timespan, rounded down and capped by the historic limit. -/
def exactRetarget (params : ConsensusParams) (oldTarget nActualTimespan : Nat) : Nat :=
  min params.powLimitHistoric.toNat
    (oldTarget * nActualTimespan / params.nPowTargetTimespan.toNat)

variable (hashGenesisBlock : Uint256) (network : Network)

theorem limitTimespan_bounds (nActualTimespan : Int) :
    300 ≤ limitTimespan (consensusParams hashGenesisBlock network) nActualTimespan ∧
      limitTimespan (consensusParams hashGenesisBlock network) nActualTimespan ≤ 4800 := by
  have quarter : (1200 : Int).tdiv 4 = 300 := rfl
  simp only [limitTimespan, target_timespan, quarter]
  split <;> split <;> omega

/-- The target the code computes: the product is reduced modulo `2 ^ 256` before
the division and the cap. -/
theorem retarget_value (nBits : BitVec 32) (timespan : Nat) (word : timespan < 2 ^ 32) :
    let params := consensusParams hashGenesisBlock network
    let bnNew := mulAssign (setCompact nBits).target timespan / BitVec.ofInt 256 1200
    (if bnNew > params.powLimitHistoric then params.powLimitHistoric else bnNew).toNat =
      min params.powLimitHistoric.toNat
        ((setCompact nBits).target.toNat * timespan % 2 ^ 256 / 1200) := by
  intro params bnNew
  have divisor : (BitVec.ofInt 256 1200).toNat = 1200 := by decide
  have value : bnNew.toNat = (setCompact nBits).target.toNat * timespan % 2 ^ 256 / 1200 := by
    rw [BitVec.toNat_udiv, divisor, mulAssign_toNat _ _ word]
  split
  · rename_i above
    have above' : params.powLimitHistoric.toNat < bnNew.toNat := above
    rw [Nat.min_eq_left (by omega)]
  · rename_i below
    have below' : ¬ params.powLimitHistoric.toNat < bnNew.toNat := below
    rw [Nat.min_eq_right (by omega), value]

/-- A product that wraps leaves less than half of what the integer rule gives. -/
theorem wrapped_retarget_small (limit product : Nat) (large : 2 ^ 252 - 1 ≤ limit)
    (wraps : 2 ^ 256 ≤ product) :
    2 * min limit (product % 2 ^ 256 / 1200) ≤ min limit (product / 1200) ∧
      0 < min limit (product / 1200) := by
  have remainder : product % 2 ^ 256 < 2 ^ 256 := Nat.mod_lt _ (by norm_num)
  have split : 2 ^ 256 + product % 2 ^ 256 ≤ product := by
    have whole := Nat.mod_add_div product (2 ^ 256)
    have quotient : 1 ≤ product / 2 ^ 256 := (Nat.le_div_iff_mul_le (by norm_num)).mpr (by omega)
    have scaled := Nat.mul_le_mul_left (2 ^ 256) quotient
    omega
  generalize product % 2 ^ 256 = low at *
  omega

/-- Legacy retargeting follows the integer rule exactly when the product of the
old target and the limited timespan fits in 256 bits. -/
theorem calculate_next_work_exact_iff (pindexLast : CBlockIndex) (nFirstBlockTime : BitVec 32) :
    let params := consensusParams hashGenesisBlock network
    let oldTarget := (setCompact pindexLast.nBits).target.toNat
    let timespan := (limitTimespan params
      (pindexLast.getBlockTime - (nFirstBlockTime.toNat : Int))).toNat
    calculateNextWorkRequired pindexLast nFirstBlockTime.toNat params =
        getCompact (BitVec.ofNat 256 (exactRetarget params oldTarget timespan)) ↔
      oldTarget * timespan < 2 ^ 256 := by
  intro params oldTarget timespan
  have bounds := limitTimespan_bounds hashGenesisBlock network
    (pindexLast.getBlockTime - (nFirstBlockTime.toNat : Int))
  have converted : (limitTimespan params
      (pindexLast.getBlockTime - (nFirstBlockTime.toNat : Int)) % 2 ^ 32).toNat = timespan := by
    simp only [timespan, params]
    omega
  have word : timespan < 2 ^ 32 := by simp only [timespan, params]; omega
  have computed := retarget_value hashGenesisBlock network pindexLast.nBits timespan word
  have limitLarge := historic_limit_large hashGenesisBlock network
  have capped : exactRetarget params oldTarget timespan < 2 ^ 256 :=
    lt_of_le_of_lt (Nat.min_le_left _ _) params.powLimitHistoric.isLt
  have result : calculateNextWorkRequired pindexLast nFirstBlockTime.toNat params =
      getCompact (BitVec.ofNat 256
        (min params.powLimitHistoric.toNat (oldTarget * timespan % 2 ^ 256 / 1200))) := by
    rw [← computed, BitVec.ofNat_toNat, BitVec.setWidth_eq]
    simp only [calculateNextWorkRequired, params, retargets, target_timespan,
      Bool.false_eq_true, if_false]
    simp only [params] at converted
    rw [converted]
  have exact : exactRetarget params oldTarget timespan =
      min params.powLimitHistoric.toNat (oldTarget * timespan / 1200) := by
    simp [exactRetarget, params]
  constructor
  · intro same
    by_contra wraps
    have small := wrapped_retarget_small params.powLimitHistoric.toNat (oldTarget * timespan)
      limitLarge (by omega)
    rw [result, exact] at same
    rw [exact] at capped
    refine getCompact_separates _ _ ?_ ?_ same
    · rw [BitVec.toNat_ofNat, Nat.mod_eq_of_lt capped]
      exact small.2
    · rw [BitVec.toNat_ofNat, BitVec.toNat_ofNat, Nat.mod_eq_of_lt capped,
        Nat.mod_eq_of_lt (by omega)]
      exact small.1
  · intro fits
    rw [result, exact, Nat.mod_eq_of_lt fits]

/-- An entry whose target is just below the historic limit, mined exactly on schedule. -/
def onSchedule : CBlockIndex where
  phashBlock := none
  pprev := none
  nHeight := 9
  nVersion := 4
  hashMerkleRoot := 0
  nTime := 1200
  nBits := 0x200fffff
  nNonce := 0
  nStartLocation := 0
  nFinalCalculation := 0

theorem calculate_next_work_wraps :
    (setCompact onSchedule.nBits).fNegative = false ∧
      (setCompact onSchedule.nBits).fOverflow = false ∧
      (setCompact onSchedule.nBits).target ≤ mainParams.powLimitHistoric ∧
      limitTimespan mainParams (onSchedule.getBlockTime - 0) = 1200 ∧
      exactRetarget mainParams (setCompact onSchedule.nBits).target.toNat 1200 =
        (setCompact onSchedule.nBits).target.toNat ∧
      calculateNextWorkRequired onSchedule 0 mainParams ≠
        getCompact (BitVec.ofNat 256
          (exactRetarget mainParams (setCompact onSchedule.nBits).target.toNat 1200)) := by
  decide

end RoiCoin
