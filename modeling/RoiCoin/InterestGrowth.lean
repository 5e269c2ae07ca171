import RoiCoin.Interest
import RoiCoin.Lib.Rounding

/-! The interest without the cuts of `validateCoins` and of the 64-bit conversions.

The exact functions have no bound; where nothing exceeds `MAX_MONEY` they are what the code
computes. -/

namespace RoiCoin

open Rounding

/-- What a table of rates adds to an amount. -/
def earned (table : Nat → Nat) (periods theAmount : Int) : Int :=
  share theAmount (table periods.toNat - table 0) (table 0)

def exactStandard (pow : Int → Int → Int) (chainHeight nValue outputBlockHeight blocks : Int) :
    Int :=
  if belowFork1 chainHeight || belowFork1 outputBlockHeight then earned rateTable blocks nValue
  else if blocks ≤ 0 then 0 else pow nValue blocks - nValue

/-- The part of the bonus table's interest that is paid. -/
def exactBonus (chainHeight outputBlockHeight am : Int) : Int :=
  if (decide (outputBlockHeight < twoYears) && belowFork1 chainHeight) ||
      belowFork1 outputBlockHeight then
    rest am ((twoYears - outputBlockHeight) ^ 4) (twoYears ^ 4)
  else if outputBlockHeight < twoYears then am / 10
  else 0

def exactInterest (pow : Int → Int → Int) (chainHeight nValue outputBlockHeight blocks : Int) :
    Int :=
  exactStandard pow chainHeight nValue outputBlockHeight blocks +
    exactBonus chainHeight outputBlockHeight (earned bonusTable blocks nValue)

/-- The blocks a deposit is locked for, at most a year. -/
def lockTerm (outputBlockHeight maturationBlock : Int) : Int :=
  min oneYear (maturationBlock - outputBlockHeight)

def exactTermBonus (chainHeight outputBlockHeight maturationBlock am : Int) : Int :=
  if maturationBlock > 0 ∧ lockTerm outputBlockHeight maturationBlock > 720 * 2 then
    if belowFork1 chainHeight || belowFork1 outputBlockHeight then
      rest am ((twoYears - lockTerm outputBlockHeight maturationBlock) ^ 6) (twoYears ^ 6)
    else share am ((twoYears - lockTerm outputBlockHeight maturationBlock) ^ 4) (twoYears ^ 4)
  else 0

def exactValue (pow : Int → Int → Int) (chainHeight nValue outputBlockHeight valuationHeight
    maturationBlock : Int) : Int :=
  let interest := exactInterest pow chainHeight nValue outputBlockHeight
    (interestBlocks outputBlockHeight valuationHeight maturationBlock)
  nValue + interest + exactTermBonus chainHeight outputBlockHeight maturationBlock interest

/-- The post-fork rate of an amount: not negative and growing with the blocks. -/
structure Rate (pow : Int → Int → Int) (nValue : Int) : Prop where
  nonneg : ∀ blocks, 0 < blocks → nValue ≤ pow nValue blocks
  mono : ∀ blocks blocks', 0 < blocks → blocks ≤ blocks' → pow nValue blocks ≤ pow nValue blocks'

/-- What the two tables give does not exceed `MAX_MONEY`. -/
structure RatesInMoney (pow : Int → Int → Int) (chainHeight nValue outputBlockHeight
    valuationHeight maturationBlock : Int) : Prop where
  standard : exactStandard pow chainHeight nValue outputBlockHeight
    (interestBlocks outputBlockHeight valuationHeight maturationBlock) ≤ maxMoney
  bonus : outputBlockHeight < twoYears →
    earned bonusTable (interestBlocks outputBlockHeight valuationHeight maturationBlock) nValue ≤
      maxMoney

/-- No amount on the way exceeds `MAX_MONEY`. -/
structure Unclamped (pow : Int → Int → Int) (chainHeight nValue outputBlockHeight valuationHeight
    maturationBlock : Int) : Prop
    extends RatesInMoney pow chainHeight nValue outputBlockHeight valuationHeight
      maturationBlock where
  value : exactValue pow chainHeight nValue outputBlockHeight valuationHeight maturationBlock ≤
    maxMoney

/-! ## Growth -/

theorem growth_nonneg (start shift i : Nat) :
    (0 : Int) ≤ growthTable start shift i - growthTable start shift 0 := by
  have grown := growthTable_mono start shift 0 i (Nat.zero_le i)
  omega

theorem earned_growth_nonneg (start shift : Nat) (periods theAmount : Int)
    (amount : 0 ≤ theAmount) : 0 ≤ earned (growthTable start shift) periods theAmount :=
  share_nonneg _ _ _ amount (growth_nonneg start shift _) (Int.natCast_nonneg _)

theorem earned_growth_mono (start shift : Nat) (positive : 0 < start)
    (periods periods' theAmount theAmount' : Int) (later : periods ≤ periods')
    (amount : 0 ≤ theAmount) (amounts : theAmount ≤ theAmount') :
    earned (growthTable start shift) periods theAmount ≤
      earned (growthTable start shift) periods' theAmount' := by
  have grown := growthTable_mono start shift periods.toNat periods'.toNat
    (Int.toNat_le_toNat later)
  have divisor : (0 : Int) < growthTable start shift 0 := by exact_mod_cast positive
  exact share_mono _ _ _ _ _ divisor amount amounts (growth_nonneg start shift _) (by omega)

theorem interestBlocks_nonneg (outputBlockHeight valuationHeight maturationBlock : Int)
    (ordered : outputBlockHeight ≤ valuationHeight) :
    0 ≤ interestBlocks outputBlockHeight valuationHeight maturationBlock := by
  have year : oneYear = 262800 := rfl
  rw [interestBlocks]
  split <;> omega

theorem interestBlocks_mono (outputBlockHeight first second maturationBlock : Int)
    (later : first ≤ second) :
    interestBlocks outputBlockHeight first maturationBlock ≤
      interestBlocks outputBlockHeight second maturationBlock := by
  rw [interestBlocks, interestBlocks]
  split <;> omega

section Exact

variable (pow : Int → Int → Int) (chainHeight outputBlockHeight : Int)

theorem exactStandard_nonneg (nValue blocks : Int) (rate : Rate pow nValue) (amount : 0 ≤ nValue) :
    0 ≤ exactStandard pow chainHeight nValue outputBlockHeight blocks := by
  rw [exactStandard]
  split
  · exact earned_growth_nonneg (2 ^ 60) 18 blocks nValue amount
  · split
    · exact Int.le_refl 0
    · have grown := rate.nonneg blocks (by omega)
      omega

theorem exactStandard_mono (nValue blocks blocks' : Int) (rate : Rate pow nValue)
    (amount : 0 ≤ nValue) (later : blocks ≤ blocks') :
    exactStandard pow chainHeight nValue outputBlockHeight blocks ≤
      exactStandard pow chainHeight nValue outputBlockHeight blocks' := by
  rw [exactStandard, exactStandard]
  split
  · exact earned_growth_mono (2 ^ 60) 18 (by decide) _ _ _ _ later amount (Int.le_refl _)
  · by_cases none_yet : blocks ≤ 0
    · rw [if_pos none_yet]
      split
      · exact Int.le_refl 0
      · have grown := rate.nonneg blocks' (by omega)
        omega
    · rw [if_neg none_yet, if_neg (by omega)]
      have grown := rate.mono blocks blocks' (by omega) later
      omega

theorem fork1_early (height : Int) (below : belowFork1 height = true) :
    0 ≤ height ∧ height < twoYears := by
  have fork : fork1Height = 25000 := rfl
  have years : twoYears = 525600 := rfl
  simp only [belowFork1, Bool.and_eq_true, decide_eq_true_eq] at below
  omega

/-- In the first branch the factor lies between zero and two years. -/
theorem early_factor (mined : 0 ≤ outputBlockHeight)
    (early : ((decide (outputBlockHeight < twoYears) && belowFork1 chainHeight) ||
      belowFork1 outputBlockHeight) = true) :
    0 ≤ twoYears - outputBlockHeight ∧ twoYears - outputBlockHeight ≤ twoYears := by
  have within : outputBlockHeight < twoYears := by
    rw [Bool.or_eq_true, Bool.and_eq_true, decide_eq_true_eq] at early
    rcases early with ⟨within, -⟩ | own
    · exact within
    · exact (fork1_early outputBlockHeight own).2
  omega

theorem factor_pow_le (factor : Int) (k : Nat) (nonneg : 0 ≤ factor) (within : factor ≤ twoYears) :
    factor ^ k ≤ twoYears ^ k := pow_le_pow_left₀ nonneg within k

theorem exactBonus_nonneg (am : Int) (mined : 0 ≤ outputBlockHeight) (amount : 0 ≤ am) :
    0 ≤ exactBonus chainHeight outputBlockHeight am := by
  rw [exactBonus]
  split
  · rename_i early
    obtain ⟨nonneg, within⟩ := early_factor chainHeight outputBlockHeight mined early
    exact rest_nonneg _ _ _ (by decide) amount (factor_pow_le _ 4 nonneg within)
  · split
    · omega
    · exact Int.le_refl 0

theorem exactBonus_mono (am am' : Int) (mined : 0 ≤ outputBlockHeight) (amounts : am ≤ am') :
    exactBonus chainHeight outputBlockHeight am ≤ exactBonus chainHeight outputBlockHeight am' := by
  rw [exactBonus, exactBonus]
  split
  · rename_i early
    obtain ⟨nonneg, within⟩ := early_factor chainHeight outputBlockHeight mined early
    exact rest_mono _ _ _ _ (by decide) amounts (factor_pow_le _ 4 nonneg within)
  · split
    · omega
    · exact Int.le_refl 0

theorem exactBonus_le (am : Int) (mined : 0 ≤ outputBlockHeight) (amount : 0 ≤ am) :
    exactBonus chainHeight outputBlockHeight am ≤ am := by
  rw [exactBonus]
  split
  · rename_i early
    obtain ⟨nonneg, -⟩ := early_factor chainHeight outputBlockHeight mined early
    exact rest_le _ _ _ (by decide) amount (Int.pow_nonneg nonneg)
  · split
    · omega
    · exact amount

theorem exactBonus_old (am : Int) (old : ¬ outputBlockHeight < twoYears) :
    exactBonus chainHeight outputBlockHeight am = 0 := by
  have own : belowFork1 outputBlockHeight = false := by
    rw [Bool.eq_false_iff]
    intro own
    exact old (fork1_early outputBlockHeight own).2
  simp only [exactBonus, own, old, Bool.false_eq_true, if_false, decide_false, Bool.false_and,
    Bool.or_false]

theorem exactInterest_nonneg (nValue blocks : Int) (rate : Rate pow nValue) (amount : 0 ≤ nValue)
    (mined : 0 ≤ outputBlockHeight) :
    0 ≤ exactInterest pow chainHeight nValue outputBlockHeight blocks := by
  have standard := exactStandard_nonneg pow chainHeight outputBlockHeight nValue blocks rate amount
  have bonus := exactBonus_nonneg chainHeight outputBlockHeight (earned bonusTable blocks nValue)
    mined (earned_growth_nonneg (2 ^ 52) 16 blocks nValue amount)
  rw [exactInterest]
  omega

theorem exactInterest_mono (nValue blocks blocks' : Int) (rate : Rate pow nValue)
    (amount : 0 ≤ nValue) (mined : 0 ≤ outputBlockHeight) (later : blocks ≤ blocks') :
    exactInterest pow chainHeight nValue outputBlockHeight blocks ≤
      exactInterest pow chainHeight nValue outputBlockHeight blocks' := by
  have standard := exactStandard_mono pow chainHeight outputBlockHeight nValue blocks blocks' rate
    amount later
  have bonus := exactBonus_mono chainHeight outputBlockHeight _ _ mined
    (earned_growth_mono (2 ^ 52) 16 (by decide) blocks blocks' nValue nValue later amount
      (Int.le_refl _))
  rw [exactInterest, exactInterest]
  exact Int.add_le_add standard bonus

/-- The factor of the term bonus lies between one and two years. -/
theorem term_factor (maturationBlock : Int)
    (long : lockTerm outputBlockHeight maturationBlock > 720 * 2) :
    0 ≤ twoYears - lockTerm outputBlockHeight maturationBlock ∧
      twoYears - lockTerm outputBlockHeight maturationBlock ≤ twoYears := by
  have year : oneYear = 262800 := rfl
  have years : twoYears = 525600 := rfl
  rw [lockTerm] at long ⊢
  omega

theorem exactTermBonus_nonneg (maturationBlock am : Int) (amount : 0 ≤ am) :
    0 ≤ exactTermBonus chainHeight outputBlockHeight maturationBlock am := by
  rw [exactTermBonus]
  split
  · rename_i long
    obtain ⟨nonneg, within⟩ := term_factor outputBlockHeight maturationBlock long.2
    split
    · exact rest_nonneg _ _ _ (by decide) amount (factor_pow_le _ 6 nonneg within)
    · exact share_nonneg _ _ _ amount (Int.pow_nonneg nonneg) (by decide)
  · exact Int.le_refl 0

theorem exactTermBonus_mono (maturationBlock am am' : Int) (amount : 0 ≤ am) (amounts : am ≤ am') :
    exactTermBonus chainHeight outputBlockHeight maturationBlock am ≤
      exactTermBonus chainHeight outputBlockHeight maturationBlock am' := by
  rw [exactTermBonus, exactTermBonus]
  split
  · rename_i long
    obtain ⟨nonneg, within⟩ := term_factor outputBlockHeight maturationBlock long.2
    split
    · exact rest_mono _ _ _ _ (by decide) amounts (factor_pow_le _ 6 nonneg within)
    · exact share_mono _ _ _ _ _ (by decide) amount amounts (Int.pow_nonneg nonneg) (Int.le_refl _)
  · exact Int.le_refl 0

theorem exactTermBonus_le (maturationBlock am : Int) (amount : 0 ≤ am) :
    exactTermBonus chainHeight outputBlockHeight maturationBlock am ≤ am := by
  rw [exactTermBonus]
  split
  · rename_i long
    obtain ⟨nonneg, within⟩ := term_factor outputBlockHeight maturationBlock long.2
    split
    · exact rest_le _ _ _ (by decide) amount (Int.pow_nonneg nonneg)
    · exact share_le _ _ _ (by decide) amount (factor_pow_le _ 4 nonneg within)
  · exact amount

end Exact

/-! ## The value -/

section Value

variable (pow : Int → Int → Int) (chainHeight nValue outputBlockHeight : Int)

theorem exactValue_ge (valuationHeight maturationBlock : Int) (rate : Rate pow nValue)
    (amount : 0 ≤ nValue) (mined : 0 ≤ outputBlockHeight) :
    nValue ≤ exactValue pow chainHeight nValue outputBlockHeight valuationHeight
      maturationBlock := by
  have interest := exactInterest_nonneg pow chainHeight outputBlockHeight nValue
    (interestBlocks outputBlockHeight valuationHeight maturationBlock) rate amount mined
  have term := exactTermBonus_nonneg chainHeight outputBlockHeight maturationBlock _ interest
  simp only [exactValue]
  omega

theorem exactValue_later (first second maturationBlock : Int) (rate : Rate pow nValue)
    (amount : 0 ≤ nValue) (mined : 0 ≤ outputBlockHeight) (later : first ≤ second) :
    exactValue pow chainHeight nValue outputBlockHeight first maturationBlock ≤
      exactValue pow chainHeight nValue outputBlockHeight second maturationBlock := by
  have blocks := interestBlocks_mono outputBlockHeight first second maturationBlock later
  have nonneg := exactInterest_nonneg pow chainHeight outputBlockHeight nValue
    (interestBlocks outputBlockHeight first maturationBlock) rate amount mined
  have interest := exactInterest_mono pow chainHeight outputBlockHeight nValue _ _ rate amount mined
    blocks
  have term := exactTermBonus_mono chainHeight outputBlockHeight maturationBlock _ _ nonneg interest
  simp only [exactValue]
  omega

/-- What the tables give for a valuation within the money range was within it before. -/
theorem RatesInMoney.earlier {first second maturationBlock : Int} (rate : Rate pow nValue)
    (amount : 0 ≤ nValue) (later : first ≤ second)
    (inMoney : RatesInMoney pow chainHeight nValue outputBlockHeight second maturationBlock) :
    RatesInMoney pow chainHeight nValue outputBlockHeight first maturationBlock := by
  have blocks := interestBlocks_mono outputBlockHeight first second maturationBlock later
  constructor
  · exact Int.le_trans (exactStandard_mono pow chainHeight outputBlockHeight nValue _ _ rate amount
      blocks) inMoney.standard
  · intro young
    exact Int.le_trans (earned_growth_mono (2 ^ 52) 16 (by decide) _ _ _ _ blocks amount
      (Int.le_refl _)) (inMoney.bonus young)

theorem Unclamped.earlier {first second maturationBlock : Int} (rate : Rate pow nValue)
    (amount : 0 ≤ nValue) (mined : 0 ≤ outputBlockHeight) (later : first ≤ second)
    (unclamped : Unclamped pow chainHeight nValue outputBlockHeight second maturationBlock) :
    Unclamped pow chainHeight nValue outputBlockHeight first maturationBlock where
  toRatesInMoney := unclamped.toRatesInMoney.earlier pow chainHeight nValue outputBlockHeight rate
    amount later
  value := Int.le_trans (exactValue_later pow chainHeight nValue outputBlockHeight first second
    maturationBlock rate amount mined later) unclamped.value

/-- The post-fork rate pays a larger amount at least as much. -/
def RatesOrdered (nValue' : Int) : Prop :=
  ∀ blocks, 0 < blocks → pow nValue blocks - nValue ≤ pow nValue' blocks - nValue'

variable (nValue' blocks : Int)

theorem exactStandard_amount (amount : 0 ≤ nValue) (amounts : nValue ≤ nValue')
    (ordered : RatesOrdered pow nValue nValue') :
    exactStandard pow chainHeight nValue outputBlockHeight blocks ≤
      exactStandard pow chainHeight nValue' outputBlockHeight blocks := by
  rw [exactStandard, exactStandard]
  split
  · exact earned_growth_mono (2 ^ 60) 18 (by decide) _ _ _ _ (Int.le_refl _) amount amounts
  · split
    · exact Int.le_refl 0
    · exact ordered blocks (by omega)

theorem exactInterest_amount (amount : 0 ≤ nValue) (amounts : nValue ≤ nValue')
    (mined : 0 ≤ outputBlockHeight) (ordered : RatesOrdered pow nValue nValue') :
    exactInterest pow chainHeight nValue outputBlockHeight blocks ≤
      exactInterest pow chainHeight nValue' outputBlockHeight blocks := by
  rw [exactInterest, exactInterest]
  apply Int.add_le_add
  · exact exactStandard_amount pow chainHeight nValue outputBlockHeight nValue' blocks amount
      amounts ordered
  · apply exactBonus_mono chainHeight outputBlockHeight _ _ mined
    exact earned_growth_mono (2 ^ 52) 16 (by decide) _ _ _ _ (Int.le_refl _) amount amounts

theorem exactValue_amount (valuationHeight maturationBlock : Int) (rate : Rate pow nValue)
    (amount : 0 ≤ nValue) (amounts : nValue ≤ nValue') (mined : 0 ≤ outputBlockHeight)
    (ordered : RatesOrdered pow nValue nValue') :
    exactValue pow chainHeight nValue outputBlockHeight valuationHeight maturationBlock ≤
      exactValue pow chainHeight nValue' outputBlockHeight valuationHeight maturationBlock := by
  have nonneg := exactInterest_nonneg pow chainHeight outputBlockHeight nValue
    (interestBlocks outputBlockHeight valuationHeight maturationBlock) rate amount mined
  have interest := exactInterest_amount pow chainHeight nValue outputBlockHeight nValue'
    (interestBlocks outputBlockHeight valuationHeight maturationBlock) amount amounts mined ordered
  have term := exactTermBonus_mono chainHeight outputBlockHeight maturationBlock _ _ nonneg interest
  simp only [exactValue]
  omega

theorem RatesInMoney.smaller {nValue' : Int} {valuationHeight maturationBlock : Int}
    (amount : 0 ≤ nValue) (amounts : nValue ≤ nValue') (ordered : RatesOrdered pow nValue nValue')
    (inMoney : RatesInMoney pow chainHeight nValue' outputBlockHeight valuationHeight
      maturationBlock) :
    RatesInMoney pow chainHeight nValue outputBlockHeight valuationHeight maturationBlock := by
  constructor
  · exact Int.le_trans (exactStandard_amount pow chainHeight nValue outputBlockHeight nValue' _
      amount amounts ordered) inMoney.standard
  · intro young
    exact Int.le_trans (earned_growth_mono (2 ^ 52) 16 (by decide) _ _ _ _ (Int.le_refl _) amount
      amounts) (inMoney.bonus young)

theorem Unclamped.smaller {nValue' : Int} {valuationHeight maturationBlock : Int}
    (rate : Rate pow nValue) (amount : 0 ≤ nValue) (amounts : nValue ≤ nValue')
    (mined : 0 ≤ outputBlockHeight) (ordered : RatesOrdered pow nValue nValue')
    (unclamped : Unclamped pow chainHeight nValue' outputBlockHeight valuationHeight
      maturationBlock) :
    Unclamped pow chainHeight nValue outputBlockHeight valuationHeight maturationBlock where
  toRatesInMoney := unclamped.toRatesInMoney.smaller pow chainHeight nValue outputBlockHeight
    amount amounts ordered
  value := Int.le_trans (exactValue_amount pow chainHeight nValue outputBlockHeight nValue'
    valuationHeight maturationBlock rate amount amounts mined ordered) unclamped.value

end Value

/-! ## Where the code is exact -/

theorem convert_exact (n : Int) (nonneg : 0 ≤ n) (fits : n < 2 ^ 63) : wrap64 (getuint64 n) = n := by
  have same : getuint64 n = n := by
    rw [getuint64]
    omega
  rw [same, wrap64_of_fits n (by omega) fits]

theorem validateCoins_exact (n : Int) (nonneg : 0 ≤ n) (within : n ≤ maxMoney) :
    validateCoins n = n := by
  rw [validateCoins, if_neg (by omega), (moneyRange_iff n).mpr ⟨nonneg, within⟩]
  rfl

theorem tableInterest_exact (start shift : Nat) (positive : 0 < start) (periods theAmount : Int)
    (amount : 0 ≤ theAmount) (most : theAmount ≤ maxMoney)
    (within : earned (growthTable start shift) periods theAmount ≤ maxMoney) :
    tableInterest (growthTable start shift) periods theAmount =
      earned (growthTable start shift) periods theAmount := by
  have money : maxMoney = 600000000000000000 := rfl
  have divisor : (growthTable start shift 0 : Int) ≠ 0 := by
    have nonzero : (start : Int) ≠ 0 := by omega
    exact nonzero
  have nonneg := earned_growth_nonneg start shift periods theAmount amount
  -- the table's quotient is the amount and what it has earned
  have quotient : (theAmount * growthTable start shift periods.toNat).tdiv
      (growthTable start shift 0) =
        earned (growthTable start shift) periods theAmount + theAmount := by
    have product : theAmount * (growthTable start shift periods.toNat : Int) =
        theAmount * (growthTable start shift periods.toNat - growthTable start shift 0) +
          theAmount * growthTable start shift 0 := by ring
    rw [Int.tdiv_eq_ediv_of_nonneg (Int.mul_nonneg amount (Int.natCast_nonneg _)), product,
      Int.add_mul_ediv_right _ _ divisor]
    rfl
  rw [tableInterest, quotient]
  have same : getuint64 (earned (growthTable start shift) periods theAmount + theAmount) =
      earned (growthTable start shift) periods theAmount + theAmount := by
    rw [getuint64]
    omega
  rw [same, Int.add_sub_cancel, wrap64_of_fits _ (by omega) (by omega),
    validateCoins_exact _ nonneg within]

section Code

variable (pow : Int → Int → Int) (chainHeight nValue outputBlockHeight : Int)

theorem standardInterest_exact (blocks : Int) (rate : Rate pow nValue) (amount : 0 ≤ nValue)
    (most : nValue ≤ maxMoney)
    (within : exactStandard pow chainHeight nValue outputBlockHeight blocks ≤ maxMoney) :
    standardInterest pow chainHeight nValue outputBlockHeight blocks =
      exactStandard pow chainHeight nValue outputBlockHeight blocks := by
  have money : maxMoney = 600000000000000000 := rfl
  rw [exactStandard] at within ⊢
  rw [standardInterest]
  split
  · rename_i old
    rw [if_pos old] at within
    exact tableInterest_exact (2 ^ 60) 18 (by decide) blocks nValue amount most within
  · rename_i new
    rw [if_neg new] at within
    rw [getPostRateForAmount]
    split
    · rfl
    · rename_i some_blocks
      rw [if_neg some_blocks] at within
      have grown := rate.nonneg blocks (by omega)
      rw [wrap64_of_fits _ (by omega) (by omega), validateCoins_exact _ (by omega) within]

theorem getBonus_exact (blocks : Int) (amount : 0 ≤ nValue) (most : nValue ≤ maxMoney)
    (within : earned bonusTable blocks nValue ≤ maxMoney) :
    getBonusForAmount blocks nValue = earned bonusTable blocks nValue :=
  tableInterest_exact (2 ^ 52) 16 (by decide) blocks nValue amount most within

/-- Whatever the bonus table gives, the paid part is converted without loss. -/
theorem bonusInterest_part (blocks : Int) (mined : 0 ≤ outputBlockHeight) :
    bonusInterest chainHeight nValue outputBlockHeight blocks =
      exactBonus chainHeight outputBlockHeight (getBonusForAmount blocks nValue) := by
  have money : maxMoney = 600000000000000000 := rfl
  obtain ⟨nonneg, limit⟩ : 0 ≤ getBonusForAmount blocks nValue ∧
      getBonusForAmount blocks nValue ≤ maxMoney := validateCoins_range _
  by_cases young : outputBlockHeight < twoYears
  · simp only [bonusInterest]
    generalize getBonusForAmount blocks nValue = am at nonneg limit
    rw [exactBonus]
    split
    · rename_i early
      obtain ⟨least, factor⟩ := early_factor chainHeight outputBlockHeight mined early
      have upper := rest_le am ((twoYears - outputBlockHeight) ^ 4) (twoYears ^ 4) (by decide) nonneg
        (Int.pow_nonneg least)
      have lower := rest_nonneg am ((twoYears - outputBlockHeight) ^ 4) (twoYears ^ 4) (by decide)
        nonneg (factor_pow_le _ 4 least factor)
      rw [Int.tdiv_eq_ediv_of_nonneg (Int.mul_nonneg nonneg (Int.pow_nonneg least))]
      rw [rest, share] at upper lower ⊢
      exact convert_exact _ lower (by omega)
    · rename_i late
      have past : belowFork1 chainHeight = false := by
        simp only [young, decide_true, Bool.true_and, Bool.or_eq_true, not_or,
          Bool.not_eq_true] at late
        exact late.1
      rw [past, if_pos (by simp [young]), Int.mul_tdiv_cancel _ (by decide),
        Int.tdiv_eq_ediv_of_nonneg nonneg]
      exact convert_exact _ (by omega) (by omega)
  · have own : belowFork1 outputBlockHeight = false := by
      rw [Bool.eq_false_iff]
      intro own
      exact young (fork1_early outputBlockHeight own).2
    simp only [bonusInterest, exactBonus, own, young, Bool.false_eq_true, if_false, decide_false,
      Bool.false_and, Bool.or_false]

theorem bonusInterest_range (blocks : Int) (mined : 0 ≤ outputBlockHeight) :
    0 ≤ bonusInterest chainHeight nValue outputBlockHeight blocks ∧
      bonusInterest chainHeight nValue outputBlockHeight blocks ≤ maxMoney := by
  obtain ⟨nonneg, limit⟩ : 0 ≤ getBonusForAmount blocks nValue ∧
      getBonusForAmount blocks nValue ≤ maxMoney := validateCoins_range _
  have whole := exactBonus_le chainHeight outputBlockHeight _ mined nonneg
  rw [bonusInterest_part chainHeight nValue outputBlockHeight blocks mined]
  exact ⟨exactBonus_nonneg chainHeight outputBlockHeight _ mined nonneg, Int.le_trans whole limit⟩

theorem bonusInterest_exact (blocks : Int) (mined : 0 ≤ outputBlockHeight) (amount : 0 ≤ nValue)
    (most : nValue ≤ maxMoney)
    (within : outputBlockHeight < twoYears → earned bonusTable blocks nValue ≤ maxMoney) :
    bonusInterest chainHeight nValue outputBlockHeight blocks =
      exactBonus chainHeight outputBlockHeight (earned bonusTable blocks nValue) := by
  rw [bonusInterest_part chainHeight nValue outputBlockHeight blocks mined]
  by_cases young : outputBlockHeight < twoYears
  · rw [getBonus_exact nValue blocks amount most (within young)]
  · rw [exactBonus_old chainHeight outputBlockHeight _ young,
      exactBonus_old chainHeight outputBlockHeight _ young]

theorem termDepositInterest_exact (maturationBlock am : Int) (nonneg : 0 ≤ am) (fits : am < 2 ^ 63) :
    termDepositInterest chainHeight outputBlockHeight maturationBlock am =
      exactTermBonus chainHeight outputBlockHeight maturationBlock am := by
  have locked : min oneYear (maturationBlock - outputBlockHeight) =
      lockTerm outputBlockHeight maturationBlock := rfl
  simp only [termDepositInterest, locked, exactTermBonus]
  split
  · rename_i long
    obtain ⟨least, factor⟩ := term_factor outputBlockHeight maturationBlock long.2
    generalize twoYears - lockTerm outputBlockHeight maturationBlock = fac at least factor
    split
    · have upper := rest_le am (fac ^ 6) (twoYears ^ 6) (by decide) nonneg (Int.pow_nonneg least)
      have lower := rest_nonneg am (fac ^ 6) (twoYears ^ 6) (by decide) nonneg
        (factor_pow_le _ 6 least factor)
      rw [Int.tdiv_eq_ediv_of_nonneg (Int.mul_nonneg nonneg (Int.pow_nonneg least))]
      rw [rest, share] at upper lower ⊢
      exact convert_exact _ lower (by omega)
    · have upper := share_le am (fac ^ 4) (twoYears ^ 4) (by decide) nonneg
        (factor_pow_le _ 4 least factor)
      have lower := share_nonneg am (fac ^ 4) (twoYears ^ 4) nonneg (Int.pow_nonneg least)
        (by decide)
      rw [Int.tdiv_eq_ediv_of_nonneg (Int.mul_nonneg nonneg (Int.pow_nonneg least))]
      rw [share] at upper lower ⊢
      exact convert_exact _ lower (by omega)
  · rfl

theorem standardInterest_range (blocks : Int) :
    0 ≤ standardInterest pow chainHeight nValue outputBlockHeight blocks ∧
      standardInterest pow chainHeight nValue outputBlockHeight blocks ≤ maxMoney := by
  rw [standardInterest]
  split
  · exact validateCoins_range _
  · rw [getPostRateForAmount]
    split
    · decide
    · exact validateCoins_range _

/-- A regular valuation: an amount of money held since a mined block. -/
structure Regular (nValue outputBlockHeight valuationHeight maturationBlock : Int) : Prop where
  amount : 0 ≤ nValue
  most : nValue ≤ maxMoney
  mined : 0 ≤ outputBlockHeight
  ordered : outputBlockHeight ≤ valuationHeight
  height : maturationBlock < 500000000

theorem Regular.not_excluded {nValue outputBlockHeight valuationHeight maturationBlock : Int}
    (regular : Regular nValue outputBlockHeight valuationHeight maturationBlock) :
    ¬ (maturationBlock ≥ 500000000 ∨ outputBlockHeight < 0 ∨ valuationHeight < 0 ∨
      valuationHeight < outputBlockHeight) := by
  obtain ⟨amount, most, mined, ordered, height⟩ := regular
  omega

/-- Whatever the tables give, the sum at the end loses no bits. -/
theorem getInterest_sum (valuationHeight maturationBlock interestAmount : Int)
    (regular : Regular nValue outputBlockHeight valuationHeight maturationBlock)
    (sum : standardInterest pow chainHeight nValue outputBlockHeight
        (interestBlocks outputBlockHeight valuationHeight maturationBlock) +
      bonusInterest chainHeight nValue outputBlockHeight
        (interestBlocks outputBlockHeight valuationHeight maturationBlock) = interestAmount) :
    0 ≤ interestAmount ∧
      getInterest pow chainHeight nValue outputBlockHeight valuationHeight maturationBlock =
        validateCoins (nValue + interestAmount +
          exactTermBonus chainHeight outputBlockHeight maturationBlock interestAmount) := by
  have money : maxMoney = 600000000000000000 := rfl
  have amount := regular.amount
  have most := regular.most
  have standard := standardInterest_range pow chainHeight nValue outputBlockHeight
    (interestBlocks outputBlockHeight valuationHeight maturationBlock)
  have bonus := bonusInterest_range chainHeight nValue outputBlockHeight
    (interestBlocks outputBlockHeight valuationHeight maturationBlock) regular.mined
  have nonneg : 0 ≤ interestAmount := by omega
  have term := exactTermBonus_nonneg chainHeight outputBlockHeight maturationBlock _ nonneg
  have most_term := exactTermBonus_le chainHeight outputBlockHeight maturationBlock _ nonneg
  constructor
  · exact nonneg
  · simp only [getInterest, if_neg regular.not_excluded, sum]
    rw [termDepositInterest_exact chainHeight outputBlockHeight maturationBlock _ nonneg
        (by omega), wrap64_of_fits _ (by omega) (by omega)]

/-- The code cuts the exact value at `MAX_MONEY`, once. -/
theorem getInterest_cut (valuationHeight maturationBlock : Int) (rate : Rate pow nValue)
    (regular : Regular nValue outputBlockHeight valuationHeight maturationBlock)
    (inMoney : RatesInMoney pow chainHeight nValue outputBlockHeight valuationHeight
      maturationBlock) :
    getInterest pow chainHeight nValue outputBlockHeight valuationHeight maturationBlock =
      validateCoins (exactValue pow chainHeight nValue outputBlockHeight valuationHeight
        maturationBlock) := by
  have sum : standardInterest pow chainHeight nValue outputBlockHeight
        (interestBlocks outputBlockHeight valuationHeight maturationBlock) +
      bonusInterest chainHeight nValue outputBlockHeight
        (interestBlocks outputBlockHeight valuationHeight maturationBlock) =
      exactInterest pow chainHeight nValue outputBlockHeight
        (interestBlocks outputBlockHeight valuationHeight maturationBlock) := by
    rw [standardInterest_exact pow chainHeight nValue outputBlockHeight _ rate regular.amount
        regular.most inMoney.standard,
      bonusInterest_exact chainHeight nValue outputBlockHeight _ regular.mined regular.amount
        regular.most inMoney.bonus]
    rfl
  exact (getInterest_sum pow chainHeight nValue outputBlockHeight valuationHeight maturationBlock
    _ regular sum).2

/-- Where nothing exceeds `MAX_MONEY` the code computes the exact value. -/
theorem getInterest_exact (valuationHeight maturationBlock : Int) (rate : Rate pow nValue)
    (regular : Regular nValue outputBlockHeight valuationHeight maturationBlock)
    (unclamped : Unclamped pow chainHeight nValue outputBlockHeight valuationHeight
      maturationBlock) :
    getInterest pow chainHeight nValue outputBlockHeight valuationHeight maturationBlock =
      exactValue pow chainHeight nValue outputBlockHeight valuationHeight maturationBlock := by
  have amount := regular.amount
  have least := exactValue_ge pow chainHeight nValue outputBlockHeight valuationHeight
    maturationBlock rate amount regular.mined
  rw [getInterest_cut pow chainHeight nValue outputBlockHeight valuationHeight maturationBlock rate
      regular unclamped.toRatesInMoney, validateCoins_exact _ (by omega) unclamped.value]

end Code

end RoiCoin
