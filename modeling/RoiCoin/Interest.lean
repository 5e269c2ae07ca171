import RoiCoin.Amount
import Mathlib.Tactic.Ring

/-! Interest on held coins and term deposits (`GetInterest` in `primitives/transaction.cpp`).

`chainHeight` is the global height of the active chain, `pow amount periods` the truncated
floating-point product `CAmount(amount * pow(1.0 + multiplier, periods))`. -/

namespace RoiCoin

def thirtyDays : Int := 720 * 30
def oneYear : Int := 720 * 365
def twoYears : Int := oneYear * 2
def fork1Height : Int := 25000

/-- `height < FORK1HEIGHT`: the constant is unsigned, so a negative height is not below it. -/
def belowFork1 (height : Int) : Bool := decide (0 ≤ height) && decide (height < fork1Height)

/-- Table entries grow by a right shift of themselves. -/
def growthTable (start shift : Nat) : Nat → Nat
  | 0 => start
  | i + 1 => growthTable start shift i + growthTable start shift i >>> shift

def rateTable : Nat → Nat := growthTable (2 ^ 60) 18
def bonusTable : Nat → Nat := growthTable (2 ^ 52) 16

/-- Never negative and never above `MAX_MONEY`. -/
def validateCoins (theAmount : Int) : Int :=
  if theAmount < 0 then 0 else if !moneyRange theAmount then maxMoney - 1 else theAmount

def tableInterest (table : Nat → Nat) (periods : Int) (theAmount : Int) : Int :=
  let result := (theAmount * table periods.toNat).tdiv (table 0)
  validateCoins (wrap64 (getuint64 result - theAmount))

def getBonusForAmount : Int → Int → Int := tableInterest bonusTable
def getRateForAmount : Int → Int → Int := tableInterest rateTable

def getPostRateForAmount (pow : Int → Int → Int) (periods : Int) (theAmount : Int) :
    Int :=
  if periods ≤ 0 then 0 else validateCoins (wrap64 (pow theAmount periods - theAmount))

/-- Blocks that earn interest: at most thirty days, for term deposits at most one year. -/
def interestBlocks (outputBlockHeight valuationHeight maturationBlock : Int) : Int :=
  if maturationBlock > 0 then min oneYear (valuationHeight - outputBlockHeight)
  else max (min thirtyDays (valuationHeight - outputBlockHeight)) 0

def standardInterest (pow : Int → Int → Int) (chainHeight : Int) (nValue : Int)
    (outputBlockHeight blocks : Int) : Int :=
  if belowFork1 chainHeight || belowFork1 outputBlockHeight then getRateForAmount blocks nValue
  else getPostRateForAmount pow blocks nValue

def bonusInterest (chainHeight : Int) (nValue : Int) (outputBlockHeight blocks : Int) :
    Int :=
  let am := getBonusForAmount blocks nValue
  if (decide (outputBlockHeight < twoYears) && belowFork1 chainHeight) ||
      belowFork1 outputBlockHeight then
    let fac := twoYears - outputBlockHeight
    wrap64 (getuint64 (am - (am * fac ^ 4).tdiv (twoYears ^ 4)))
  else if decide (outputBlockHeight < twoYears) && !belowFork1 chainHeight then
    wrap64 (getuint64 (((am * twoYears ^ 4).tdiv (twoYears ^ 4)).tdiv 10))
  else 0

/-- What a term deposit earns on top of `am`; deposits locked before the fork keep the old rate. -/
def termDepositInterest (chainHeight outputBlockHeight maturationBlock : Int) (am : Int) :
    Int :=
  let term := min oneYear (maturationBlock - outputBlockHeight)
  let fac := twoYears - term
  if maturationBlock > 0 ∧ term > 720 * 2 then
    if belowFork1 chainHeight || belowFork1 outputBlockHeight then
      wrap64 (getuint64 (am - (am * fac ^ 6).tdiv (twoYears ^ 6)))
    else wrap64 (getuint64 ((am * fac ^ 4).tdiv (twoYears ^ 4)))
  else 0

def getInterest (pow : Int → Int → Int) (chainHeight : Int) (nValue : Int)
    (outputBlockHeight valuationHeight maturationBlock : Int) : Int :=
  if maturationBlock ≥ 500000000 ∨ outputBlockHeight < 0 ∨ valuationHeight < 0 ∨
      valuationHeight < outputBlockHeight then nValue
  else
    let blocks := interestBlocks outputBlockHeight valuationHeight maturationBlock
    let interestAmount := standardInterest pow chainHeight nValue outputBlockHeight blocks +
      bonusInterest chainHeight nValue outputBlockHeight blocks
    let termDepositAmount :=
      termDepositInterest chainHeight outputBlockHeight maturationBlock interestAmount
    validateCoins (wrap64 (nValue + interestAmount + termDepositAmount))

/-! ## The tables -/

theorem growthTable_step (start shift i : Nat) :
    growthTable start shift (i + 1) * 2 ^ shift ≤ growthTable start shift i * (2 ^ shift + 1) := by
  have shifted := Nat.div_mul_le_self (growthTable start shift i) (2 ^ shift)
  rw [growthTable, Nat.shiftRight_eq_div_pow, Nat.add_mul, Nat.mul_add, Nat.mul_one]
  omega

theorem growthTable_mono (start shift i j : Nat) (later : i ≤ j) :
    growthTable start shift i ≤ growthTable start shift j := by
  induction later with
  | refl => exact le_refl _
  | step _ ih => exact le_trans ih (Nat.le_add_right _ _)

/-- Over `k` steps an entry grows by at most a factor of `2 ^ shift / (2 ^ shift - k)`. -/
theorem growthTable_back (start shift i k : Nat) :
    growthTable start shift (i + k) * (2 ^ shift - k) ≤ growthTable start shift i * 2 ^ shift := by
  induction k with
  | zero => simp
  | succ k ih =>
      by_cases past : 2 ^ shift ≤ k + 1
      · rw [Nat.sub_eq_zero_of_le past, Nat.mul_zero]
        exact Nat.zero_le _
      · have step := growthTable_step start shift (i + k)
        have factor : (2 ^ shift + 1) * (2 ^ shift - (k + 1)) ≤ 2 ^ shift * (2 ^ shift - k) := by
          have less : 2 ^ shift - k = 2 ^ shift - (k + 1) + 1 := by omega
          have part : 2 ^ shift - (k + 1) ≤ 2 ^ shift := Nat.sub_le _ _
          rw [less, Nat.succ_mul, Nat.mul_succ]
          exact Nat.add_le_add_left part _
        apply Nat.le_of_mul_le_mul_right _ (Nat.two_pow_pos shift)
        calc growthTable start shift (i + (k + 1)) * (2 ^ shift - (k + 1)) * 2 ^ shift
            = growthTable start shift (i + k + 1) * 2 ^ shift * (2 ^ shift - (k + 1)) := by
              rw [Nat.mul_right_comm, Nat.add_assoc]
          _ ≤ growthTable start shift (i + k) * (2 ^ shift + 1) * (2 ^ shift - (k + 1)) :=
              Nat.mul_le_mul_right _ step
          _ ≤ growthTable start shift (i + k) * (2 ^ shift * (2 ^ shift - k)) := by
              rw [Nat.mul_assoc]
              exact Nat.mul_le_mul_left _ factor
          _ = growthTable start shift (i + k) * (2 ^ shift - k) * 2 ^ shift := by
              rw [Nat.mul_comm (2 ^ shift), ← Nat.mul_assoc]
          _ ≤ growthTable start shift i * 2 ^ shift * 2 ^ shift := Nat.mul_le_mul_right _ ih

theorem validateCoins_range (theAmount : Int) :
    0 ≤ validateCoins theAmount ∧ validateCoins theAmount ≤ maxMoney := by
  have most : maxMoney = 600000000000000000 := rfl
  rw [validateCoins]
  split
  · omega
  · split
    · omega
    · rename_i inside
      simpa using inside

@[simp] theorem validateCoins_zero : validateCoins 0 = 0 := rfl

theorem getInterest_range (pow : Int → Int → Int) (chainHeight : Int) (nValue : Int)
    (outputBlockHeight valuationHeight maturationBlock : Int) (inside : moneyRange nValue = true) :
    moneyRange (getInterest pow chainHeight nValue outputBlockHeight valuationHeight
      maturationBlock) = true := by
  rw [getInterest]
  split
  · exact inside
  · rw [moneyRange_iff]
    exact validateCoins_range _

/-! ## Valuation at the height of the output -/

theorem tableInterest_zero (table : Nat → Nat) (start : 0 < table 0) (theAmount : Int)
    (nonneg : 0 ≤ theAmount) : tableInterest table 0 theAmount = 0 := by
  have positive : (table 0 : Int) ≠ 0 := by omega
  rw [tableInterest, Int.toNat_zero, Int.mul_tdiv_cancel _ positive]
  simp only [wrap64_getuint64_sub theAmount nonneg, validateCoins_zero]

theorem standardInterest_zero (pow : Int → Int → Int) (chainHeight : Int) (nValue : Int)
    (outputBlockHeight : Int) (nonneg : 0 ≤ nValue) :
    standardInterest pow chainHeight nValue outputBlockHeight 0 = 0 := by
  rw [standardInterest]
  split
  · exact tableInterest_zero rateTable (by decide) nValue nonneg
  · rw [getPostRateForAmount, if_pos (Int.le_refl 0)]

theorem bonusInterest_zero (chainHeight : Int) (nValue : Int) (outputBlockHeight : Int)
    (nonneg : 0 ≤ nValue) : bonusInterest chainHeight nValue outputBlockHeight 0 = 0 := by
  have none : getBonusForAmount 0 nValue = 0 :=
    tableInterest_zero bonusTable (by decide) nValue nonneg
  simp only [bonusInterest, none, Int.zero_mul, Int.zero_tdiv, Int.sub_zero, getuint64_zero]
  split
  · rfl
  · split <;> rfl

theorem termDepositInterest_zero (chainHeight outputBlockHeight maturationBlock : Int) :
    termDepositInterest chainHeight outputBlockHeight maturationBlock 0 = 0 := by
  simp only [termDepositInterest, Int.zero_mul, Int.zero_tdiv, Int.sub_zero, getuint64_zero]
  split
  · split <;> rfl
  · rfl

/-- A coin valued at its own height has earned nothing. -/
theorem getInterest_same_height (pow : Int → Int → Int) (chainHeight : Int)
    (nValue : Int) (height maturationBlock : Int) (nonneg : 0 ≤ nValue) :
    getInterest pow chainHeight nValue height height maturationBlock =
      if maturationBlock ≥ 500000000 ∨ height < 0 then nValue
      else validateCoins (wrap64 nValue) := by
  have blocks : interestBlocks height height maturationBlock = 0 := by
    rw [interestBlocks, Int.sub_self]
    split <;> decide
  simp only [getInterest, blocks, standardInterest_zero _ _ _ _ nonneg,
    bonusInterest_zero _ _ _ nonneg, termDepositInterest_zero, Int.add_zero, Int.lt_irrefl, or_false]
  simp only [or_self]

/-- The active chain enters only through its position relative to the fork. -/
theorem getInterest_congr (pow : Int → Int → Int) (c1 c2 : Int) (nValue : Int)
    (outputBlockHeight valuationHeight maturationBlock : Int)
    (same : belowFork1 outputBlockHeight = true ∨ belowFork1 c1 = belowFork1 c2) :
    getInterest pow c1 nValue outputBlockHeight valuationHeight maturationBlock =
      getInterest pow c2 nValue outputBlockHeight valuationHeight maturationBlock := by
  rcases same with early | same
  · simp only [getInterest, standardInterest, bonusInterest, termDepositInterest, early,
      Bool.or_true, if_true]
  · simp only [getInterest, standardInterest, bonusInterest, termDepositInterest, same]

/-- Every active chain that has reached the block before the valuation gives the same value. -/
theorem getInterest_reached (pow : Int → Int → Int) (chainHeight : Int) (nValue : Int)
    (outputBlockHeight valuationHeight maturationBlock : Int) (nonneg : 0 ≤ nValue)
    (reached : valuationHeight - 1 ≤ chainHeight) :
    getInterest pow chainHeight nValue outputBlockHeight valuationHeight maturationBlock =
      getInterest pow valuationHeight nValue outputBlockHeight valuationHeight maturationBlock := by
  have fork : fork1Height = 25000 := rfl
  by_cases ordered : 0 ≤ outputBlockHeight ∧ outputBlockHeight ≤ valuationHeight
  · by_cases early : outputBlockHeight < fork1Height
    · exact getInterest_congr pow _ _ nValue _ _ _ (.inl (by simp [belowFork1, ordered.1, early]))
    · by_cases atFork : valuationHeight = outputBlockHeight
      · -- the last height before the fork may have been reached, but no interest has accrued
        rw [atFork, getInterest_same_height pow chainHeight nValue _ _ nonneg,
          getInterest_same_height pow outputBlockHeight nValue _ _ nonneg]
      · have past : ∀ c, valuationHeight - 1 ≤ c → belowFork1 c = false := by
          intro c reached
          simp only [belowFork1, Bool.and_eq_false_iff, decide_eq_false_iff_not]
          omega
        have same : belowFork1 chainHeight = belowFork1 valuationHeight := by
          rw [past chainHeight reached, past valuationHeight (by omega)]
        exact getInterest_congr pow _ _ nValue _ _ _ (.inr same)
  · have outside : maturationBlock ≥ 500000000 ∨ outputBlockHeight < 0 ∨ valuationHeight < 0 ∨
        valuationHeight < outputBlockHeight := by omega
    rw [getInterest, getInterest, if_pos outside, if_pos outside]

/-- A valuation depends on the active chain's height no further than the height it values at. -/
theorem interest_ignores_chain_height (pow : Int → Int → Int) (nValue : Int)
    (outputBlockHeight valuationHeight maturationBlock c1 c2 : Int) (nonneg : 0 ≤ nValue)
    (reached1 : valuationHeight - 1 ≤ c1) (reached2 : valuationHeight - 1 ≤ c2) :
    getInterest pow c1 nValue outputBlockHeight valuationHeight maturationBlock =
      getInterest pow c2 nValue outputBlockHeight valuationHeight maturationBlock := by
  calc
    getInterest pow c1 nValue outputBlockHeight valuationHeight maturationBlock
        = getInterest pow valuationHeight nValue outputBlockHeight valuationHeight
            maturationBlock := getInterest_reached pow c1 nValue _ _ _ nonneg reached1
    _ = getInterest pow c2 nValue outputBlockHeight valuationHeight maturationBlock :=
        (getInterest_reached pow c2 nValue _ _ _ nonneg reached2).symm

/-- An output, valuation and tip around the fork: the tip below it and the tip far past it.
Over no blocks the power is one. -/
theorem interest_ignores_chain_height_at_fork :
    getInterest (fun amount _ => amount) 24999 (5 * coin) 25000 25000 60000 =
      getInterest (fun amount _ => amount) 90000 (5 * coin) 25000 25000 60000 :=
  interest_ignores_chain_height (fun amount _ => amount) (5 * coin) 25000 25000 60000 24999 90000
    (by decide) (by decide) (by decide)

end RoiCoin
