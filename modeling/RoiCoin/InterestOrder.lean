import RoiCoin.InterestGrowth

/-! How the value of a deposit orders by the height it is valued at, by its amount and by the
term it is locked for. -/

namespace RoiCoin

open Rounding

section Deposits

variable (pow : Int → Int → Int) (chainHeight nValue outputBlockHeight : Int)

/-! ## Matured deposits -/

/-- The deposit is valued at its release block, or its year of interest ended before it. -/
def StoppedEarning (outputBlockHeight maturationBlock valuationHeight : Int) : Prop :=
  valuationHeight = maturationBlock ∨ oneYear ≤ maturationBlock - outputBlockHeight

/-- A rate that pays for every block. -/
structure GrowingRate (pow : Int → Int → Int) (nValue : Int) : Prop where
  grows : ∀ blocks, 0 < blocks → nValue < pow nValue blocks
  strict : ∀ blocks blocks', 0 < blocks → blocks < blocks' → pow nValue blocks < pow nValue blocks'

theorem GrowingRate.rate {pow : Int → Int → Int} {nValue : Int} (growing : GrowingRate pow nValue) :
    Rate pow nValue where
  nonneg := fun blocks some => Int.le_of_lt (growing.grows blocks some)
  mono := by
    intro blocks blocks' some later
    rcases Int.lt_or_eq_of_le later with before | same
    · exact Int.le_of_lt (growing.strict blocks blocks' some before)
    · rw [same]

/-- The valuation height enters only through the blocks that earn. -/
theorem getInterest_same_blocks (first second maturationBlock : Int)
    (mined : 0 ≤ outputBlockHeight) (ordered1 : outputBlockHeight ≤ first)
    (ordered2 : outputBlockHeight ≤ second)
    (blocks : interestBlocks outputBlockHeight first maturationBlock =
      interestBlocks outputBlockHeight second maturationBlock) :
    getInterest pow chainHeight nValue outputBlockHeight first maturationBlock =
      getInterest pow chainHeight nValue outputBlockHeight second maturationBlock := by
  by_cases height : maturationBlock < 500000000
  · rw [getInterest, getInterest, if_neg (by omega), if_neg (by omega), blocks]
  · rw [getInterest, getInterest, if_pos (by omega), if_pos (by omega)]

theorem stopped_blocks (valuationHeight maturationBlock : Int) (deposit : 0 < maturationBlock)
    (matured : maturationBlock ≤ valuationHeight) :
    StoppedEarning outputBlockHeight maturationBlock valuationHeight ↔
      interestBlocks outputBlockHeight valuationHeight maturationBlock =
        interestBlocks outputBlockHeight maturationBlock maturationBlock := by
  rw [interestBlocks, interestBlocks, if_pos deposit, if_pos deposit, StoppedEarning]
  omega

/-- An entry of the rate table exceeds the ones before it by a part in `2 ^ 18` at least. -/
theorem rateTable_step (i j : Nat) (later : i < j) : rateTable i + 2 ^ 42 ≤ rateTable j := by
  have start : 2 ^ 60 ≤ rateTable i := growthTable_mono (2 ^ 60) 18 0 i (Nat.zero_le i)
  have next : rateTable (i + 1) ≤ rateTable j := growthTable_mono (2 ^ 60) 18 (i + 1) j later
  have step : rateTable (i + 1) = rateTable i + rateTable i / 2 ^ 18 := by
    rw [rateTable, growthTable, Nat.shiftRight_eq_div_pow]
  omega

theorem exactStandard_strict (blocks blocks' : Int) (growing : GrowingRate pow nValue)
    (large : 2 ^ 18 ≤ nValue) (nonneg : 0 ≤ blocks) (later : blocks < blocks') :
    exactStandard pow chainHeight nValue outputBlockHeight blocks <
      exactStandard pow chainHeight nValue outputBlockHeight blocks' := by
  rw [exactStandard, exactStandard]
  split
  · rw [earned, earned]
    apply share_lt _ _ _ _ _ (by decide)
    have step := rateTable_step blocks.toNat blocks'.toNat (by omega)
    have apart : (2 : Int) ^ 42 ≤ (rateTable blocks'.toNat : Int) - rateTable blocks.toNat := by
      omega
    calc
      nValue * ((rateTable blocks.toNat : Int) - rateTable 0) + rateTable 0
          ≤ nValue * ((rateTable blocks.toNat : Int) - rateTable 0) + nValue * 2 ^ 42 := by
        have start : (rateTable 0 : Int) = 2 ^ 60 := rfl
        omega
      _ ≤ nValue * ((rateTable blocks.toNat : Int) - rateTable 0) +
          nValue * ((rateTable blocks'.toNat : Int) - rateTable blocks.toNat) := by
        have scaled := Int.mul_le_mul_of_nonneg_left apart (by omega : 0 ≤ nValue)
        omega
      _ = nValue * ((rateTable blocks'.toNat : Int) - rateTable 0) := by ring
  · by_cases none_yet : blocks ≤ 0
    · have grown := growing.grows blocks' (by omega)
      rw [if_pos none_yet, if_neg (by omega)]
      omega
    · have grown := growing.strict blocks blocks' (by omega) later
      rw [if_neg none_yet, if_neg (by omega)]
      omega

theorem exactValue_strict (first second maturationBlock : Int) (growing : GrowingRate pow nValue)
    (large : 2 ^ 18 ≤ nValue) (mined : 0 ≤ outputBlockHeight) (ordered : outputBlockHeight ≤ first)
    (later : interestBlocks outputBlockHeight first maturationBlock <
      interestBlocks outputBlockHeight second maturationBlock) :
    exactValue pow chainHeight nValue outputBlockHeight first maturationBlock <
      exactValue pow chainHeight nValue outputBlockHeight second maturationBlock := by
  have amount : 0 ≤ nValue := by omega
  have blocks := interestBlocks_nonneg outputBlockHeight first maturationBlock ordered
  have standard := exactStandard_strict pow chainHeight nValue outputBlockHeight _ _ growing large
    blocks later
  have bonus := exactBonus_mono chainHeight outputBlockHeight _ _ mined
    (earned_growth_mono (2 ^ 52) 16 (by decide) _ _ nValue nValue (Int.le_of_lt later) amount
      (Int.le_refl _))
  have interest : exactInterest pow chainHeight nValue outputBlockHeight
        (interestBlocks outputBlockHeight first maturationBlock) <
      exactInterest pow chainHeight nValue outputBlockHeight
        (interestBlocks outputBlockHeight second maturationBlock) := by
    rw [exactInterest, exactInterest]
    exact Int.add_lt_add_of_lt_of_le standard bonus
  have nonneg := exactInterest_nonneg pow chainHeight outputBlockHeight nValue
    (interestBlocks outputBlockHeight first maturationBlock) growing.rate amount mined
  have term := exactTermBonus_mono chainHeight outputBlockHeight maturationBlock _ _ nonneg
    (Int.le_of_lt interest)
  simp only [exactValue]
  omega

/-- A matured deposit keeps the value it had at its release block when its year of interest had
ended by then; a deposit above dust keeps earning otherwise. -/
theorem matured_deposit_stops (valuationHeight maturationBlock : Int)
    (regular : Regular nValue outputBlockHeight valuationHeight maturationBlock)
    (deposit : 0 < maturationBlock) (locked : outputBlockHeight ≤ maturationBlock)
    (matured : maturationBlock ≤ valuationHeight) :
    (StoppedEarning outputBlockHeight maturationBlock valuationHeight →
      getInterest pow chainHeight nValue outputBlockHeight valuationHeight maturationBlock =
        getInterest pow chainHeight nValue outputBlockHeight maturationBlock maturationBlock) ∧
    (2 ^ 18 ≤ nValue → GrowingRate pow nValue →
      Unclamped pow chainHeight nValue outputBlockHeight valuationHeight maturationBlock →
      getInterest pow chainHeight nValue outputBlockHeight valuationHeight maturationBlock =
        getInterest pow chainHeight nValue outputBlockHeight maturationBlock maturationBlock →
      StoppedEarning outputBlockHeight maturationBlock valuationHeight) := by
  have same := stopped_blocks outputBlockHeight valuationHeight maturationBlock deposit matured
  constructor
  · intro stopped
    exact getInterest_same_blocks pow chainHeight nValue outputBlockHeight _ _ maturationBlock
      regular.mined regular.ordered locked (same.mp stopped)
  · intro large growing unclamped equal
    have regular' : Regular nValue outputBlockHeight maturationBlock maturationBlock :=
      { regular with ordered := locked }
    have earlier := unclamped.earlier pow chainHeight nValue outputBlockHeight growing.rate
      regular.amount regular.mined matured
    rw [getInterest_exact pow chainHeight nValue outputBlockHeight _ _ growing.rate regular
        unclamped,
      getInterest_exact pow chainHeight nValue outputBlockHeight _ _ growing.rate regular'
        earlier] at equal
    rw [same]
    by_contra apart
    have blocks := interestBlocks_mono outputBlockHeight _ _ maturationBlock matured
    have grown := exactValue_strict pow chainHeight nValue outputBlockHeight maturationBlock
      valuationHeight maturationBlock growing large regular.mined locked (by omega)
    omega

end Deposits

/-- A deposit locked for three days and valued three days after its release. -/
theorem matured_deposit_earns_on :
    getInterest (fun amount blocks => amount + blocks) 6000 (100 * coin) 100 4420 2260 ≠
      getInterest (fun amount blocks => amount + blocks) 6000 (100 * coin) 100 2260 2260 := by
  decide +kernel

/-- A year's deposit valued long after its release, and one of three blocks valued two later. -/
theorem matured_deposit_stops_applied :
    getInterest (fun amount blocks => amount + blocks) 20000 coin 0 300000 262800 =
      getInterest (fun amount blocks => amount + blocks) 20000 coin 0 262800 262800 ∧
    getInterest (fun amount blocks => amount + blocks) 20000 coin 0 5 3 ≠
      getInterest (fun amount blocks => amount + blocks) 20000 coin 0 3 3 := by
  constructor
  · exact (matured_deposit_stops (fun amount blocks => amount + blocks) 20000 coin 0 300000 262800
      ⟨by decide, by decide, by decide, by decide, by decide⟩ (by decide) (by decide)
      (by decide)).1 (.inr (by decide))
  · intro equal
    have stopped := (matured_deposit_stops (fun amount blocks => amount + blocks) 20000 coin 0 5 3
      ⟨by decide, by decide, by decide, by decide, by decide⟩ (by decide) (by decide)
      (by decide)).2 (by decide) ⟨by intros; omega, by intros; omega⟩
      ⟨⟨by decide, by decide⟩, by decide⟩ equal
    rcases stopped with same | year
    · exact absurd same (by decide)
    · exact absurd year (by decide)

/-! ## Longer terms -/

section Terms

variable (pow : Int → Int → Int) (chainHeight nValue outputBlockHeight : Int)

/-- The shorter term is paid no more: the deposit is valued by the pre-fork rule, the shorter
term earns no term bonus or both terms count as the same. -/
def LongerTermPays (chainHeight outputBlockHeight shorter longer : Int) : Prop :=
  (belowFork1 chainHeight || belowFork1 outputBlockHeight) = true ∨ shorter = 0 ∨
    lockTerm outputBlockHeight shorter ≤ 720 * 2 ∨
    lockTerm outputBlockHeight shorter = lockTerm outputBlockHeight longer

/-- A term deposit earns for at least the blocks of an unlocked output. -/
theorem interestBlocks_deposit (valuationHeight maturationBlock : Int)
    (ordered : outputBlockHeight ≤ valuationHeight) :
    interestBlocks outputBlockHeight valuationHeight 0 ≤
      interestBlocks outputBlockHeight valuationHeight maturationBlock := by
  have month : thirtyDays = 21600 := rfl
  have year : oneYear = 262800 := rfl
  rw [interestBlocks, interestBlocks]
  split <;> split <;> omega

theorem interestBlocks_locked (valuationHeight shorter longer : Int) (locked : 0 < shorter)
    (longer_locked : 0 < longer) :
    interestBlocks outputBlockHeight valuationHeight shorter =
      interestBlocks outputBlockHeight valuationHeight longer := by
  rw [interestBlocks, interestBlocks, if_pos locked, if_pos longer_locked]

theorem exactTermBonus_long (maturationBlock am : Int) (locked : 0 < maturationBlock)
    (long : ¬ lockTerm outputBlockHeight maturationBlock ≤ 720 * 2) :
    exactTermBonus chainHeight outputBlockHeight maturationBlock am =
      if belowFork1 chainHeight || belowFork1 outputBlockHeight then
        rest am ((twoYears - lockTerm outputBlockHeight maturationBlock) ^ 6) (twoYears ^ 6)
      else share am ((twoYears - lockTerm outputBlockHeight maturationBlock) ^ 4)
        (twoYears ^ 4) := by
  rw [exactTermBonus, if_pos ⟨locked, by omega⟩]

/-- The term bonus of a fixed interest. -/
theorem exactTermBonus_term (shorter longer am : Int) (amount : 0 ≤ am) (locked : 0 < shorter)
    (later : shorter ≤ longer)
    (pays : LongerTermPays chainHeight outputBlockHeight shorter longer) :
    exactTermBonus chainHeight outputBlockHeight shorter am ≤
      exactTermBonus chainHeight outputBlockHeight longer am := by
  have terms : lockTerm outputBlockHeight shorter ≤ lockTerm outputBlockHeight longer := by
    rw [lockTerm, lockTerm]
    omega
  by_cases short : lockTerm outputBlockHeight shorter ≤ 720 * 2
  · have none : exactTermBonus chainHeight outputBlockHeight shorter am = 0 := by
      rw [exactTermBonus, if_neg (by omega)]
    rw [none]
    exact exactTermBonus_nonneg chainHeight outputBlockHeight longer am amount
  · rw [exactTermBonus_long chainHeight outputBlockHeight shorter am locked short,
      exactTermBonus_long chainHeight outputBlockHeight longer am (by omega) (by omega)]
    have factors := term_factor outputBlockHeight longer (by omega)
    rcases pays with early | none | brief | same
    · rw [if_pos early, if_pos early]
      exact rest_factor _ _ _ _ (by decide) amount (pow_le_pow_left₀ factors.1 (by omega) 6)
    · omega
    · omega
    · rw [same]

/-- After the fork a longer term is paid a smaller share, and more than dust shows it. -/
theorem exactTermBonus_flipped (shorter longer am : Int) (enough : 4 * oneYear ≤ am)
    (locked : 0 < shorter) (later : shorter ≤ longer)
    (flipped : ¬ LongerTermPays chainHeight outputBlockHeight shorter longer) :
    exactTermBonus chainHeight outputBlockHeight longer am <
      exactTermBonus chainHeight outputBlockHeight shorter am := by
  have year : oneYear = 262800 := rfl
  have years : twoYears = 2 * oneYear := rfl
  simp only [LongerTermPays, not_or] at flipped
  obtain ⟨after, _, long, apart⟩ := flipped
  have terms : lockTerm outputBlockHeight shorter ≤ lockTerm outputBlockHeight longer := by
    rw [lockTerm, lockTerm]
    omega
  have most : lockTerm outputBlockHeight longer ≤ oneYear := by
    rw [lockTerm]
    omega
  rw [exactTermBonus_long chainHeight outputBlockHeight shorter am locked long,
    exactTermBonus_long chainHeight outputBlockHeight longer am (by omega) (by omega),
    if_neg after, if_neg after]
  generalize lockTerm outputBlockHeight shorter = first at *
  generalize lockTerm outputBlockHeight longer = second at *
  apply share_lt _ _ _ _ _ (by decide)
  -- the factors are a block apart at least, and not below a year
  have step : (twoYears - second) ^ 4 + 4 * oneYear ^ 3 ≤ (twoYears - first) ^ 4 := by
    have next : (twoYears - second + 1) ^ 4 ≤ (twoYears - first) ^ 4 :=
      pow_le_pow_left₀ (by omega) (by omega) 4
    have cube : oneYear ^ 3 ≤ (twoYears - second) ^ 3 := pow_le_pow_left₀ (by decide) (by omega) 3
    have nonneg : 0 ≤ twoYears - second := by omega
    have expand : (twoYears - second + 1) ^ 4 = (twoYears - second) ^ 4 +
        4 * (twoYears - second) ^ 3 + (6 * (twoYears - second) ^ 2 + 4 * (twoYears - second) + 1) := by
      ring
    have rest : 0 ≤ 6 * (twoYears - second) ^ 2 + 4 * (twoYears - second) + 1 := by positivity
    linarith
  calc
    am * (twoYears - second) ^ 4 + twoYears ^ 4
        = am * (twoYears - second) ^ 4 + 4 * oneYear * (4 * oneYear ^ 3) := by
      rw [years]
      ring
    _ ≤ am * (twoYears - second) ^ 4 + am * (4 * oneYear ^ 3) := by
      have scaled := Int.mul_le_mul_of_nonneg_right enough (by decide : 0 ≤ 4 * oneYear ^ 3)
      linarith
    _ = am * ((twoYears - second) ^ 4 + 4 * oneYear ^ 3) := by ring
    _ ≤ am * (twoYears - first) ^ 4 := Int.mul_le_mul_of_nonneg_left step (by omega)

end Terms

section Amounts

variable (pow : Int → Int → Int) (chainHeight : Int)

/-- A value is cut to one below `MAX_MONEY`. -/
theorem validateCoins_cut (n m : Int) (nonneg : 0 ≤ n) (ordered : n ≤ m) :
    min (validateCoins n) (maxMoney - 1) ≤ validateCoins m := by
  have money : maxMoney = 600000000000000000 := rfl
  by_cases within : m ≤ maxMoney
  · rw [validateCoins_exact m (by omega) within, validateCoins_exact n nonneg (by omega)]
    omega
  · have cut : validateCoins m = maxMoney - 1 := by
      have outside : moneyRange m = false := by
        rw [Bool.eq_false_iff]
        intro inside
        exact within ((moneyRange_iff m).mp inside).2
      rw [validateCoins, if_neg (by omega), outside]
      rfl
    rw [cut]
    exact Int.min_le_right _ _

/-- No valuation is worth less than the amount, except that `MAX_MONEY` itself may be cut by one. -/
theorem getInterest_keeps (nValue outputBlockHeight valuationHeight maturationBlock : Int)
    (amount : 0 ≤ nValue) (most : nValue ≤ maxMoney) (ordered : outputBlockHeight ≤ valuationHeight)
    (height : maturationBlock < 500000000) :
    min nValue (maxMoney - 1) ≤
        getInterest pow chainHeight nValue outputBlockHeight valuationHeight maturationBlock ∧
      getInterest pow chainHeight nValue outputBlockHeight valuationHeight maturationBlock ≤
        maxMoney := by
  by_cases mined : 0 ≤ outputBlockHeight
  · obtain ⟨nonneg, value⟩ := getInterest_sum pow chainHeight nValue outputBlockHeight
      valuationHeight maturationBlock _ ⟨amount, most, mined, ordered, height⟩ rfl
    generalize standardInterest pow chainHeight nValue outputBlockHeight
        (interestBlocks outputBlockHeight valuationHeight maturationBlock) +
      bonusInterest chainHeight nValue outputBlockHeight
        (interestBlocks outputBlockHeight valuationHeight maturationBlock) = interestAmount at *
    have term := exactTermBonus_nonneg chainHeight outputBlockHeight maturationBlock _ nonneg
    rw [value]
    constructor
    · have cut := validateCoins_cut nValue (nValue + interestAmount +
        exactTermBonus chainHeight outputBlockHeight maturationBlock interestAmount) amount
        (by omega)
      rwa [validateCoins_exact nValue amount most] at cut
    · exact (validateCoins_range _).2
  · rw [getInterest, if_pos (by omega)]
    exact ⟨Int.min_le_left _ _, most⟩

end Amounts

end RoiCoin
