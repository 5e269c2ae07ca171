import RoiCoin.InterestGrowth
import Mathlib.Algebra.Order.Field.Rat
import Mathlib.Tactic.FieldSimp
import Mathlib.Tactic.Positivity

/-! Spending a balance and holding it (`GetInterest` composed with itself).

The gains are compared as rationals; every rounding costs less than a unit. -/

namespace RoiCoin

open Rounding

/-! ## Growth over two periods -/

theorem growthTable_step_lower (start shift i : Nat) :
    growthTable start shift i * (2 ^ shift + 1) ≤
      (growthTable start shift (i + 1) + 1) * 2 ^ shift := by
  have shifted := Nat.lt_div_mul_add (a := growthTable start shift i) (Nat.two_pow_pos shift)
  rw [growthTable, Nat.shiftRight_eq_div_pow, Nat.mul_add, Nat.mul_one, Nat.add_mul, Nat.add_mul,
    Nat.one_mul]
  omega

/-- Growing over `a + b` periods gains no more than growing over `a` and then over `b`, up to what
the entries are rounded. -/
theorem growthTable_add (start shift a b : Nat) (few : 2 * b ≤ 2 ^ shift) :
    growthTable start shift (a + b) * start ≤
      growthTable start shift a * growthTable start shift b + 2 * b * growthTable start shift a := by
  induction b with
  | zero => simp [growthTable]
  | succ b ih =>
      have before := ih (by omega)
      have upper := growthTable_step start shift (a + b)
      have lower := growthTable_step_lower start shift b
      rw [← Nat.add_assoc]
      generalize growthTable start shift (a + b + 1) = sum' at *
      generalize growthTable start shift (a + b) = sum at *
      generalize growthTable start shift (b + 1) = second' at *
      generalize growthTable start shift b = second at *
      generalize growthTable start shift a = first at *
      apply Nat.le_of_mul_le_mul_right _ (Nat.two_pow_pos shift)
      calc
        sum' * start * 2 ^ shift = sum' * 2 ^ shift * start := by ring
        _ ≤ sum * (2 ^ shift + 1) * start := Nat.mul_le_mul_right _ upper
        _ = sum * start * (2 ^ shift + 1) := by ring
        _ ≤ (first * second + 2 * b * first) * (2 ^ shift + 1) := Nat.mul_le_mul_right _ before
        _ = first * (second * (2 ^ shift + 1)) + first * (2 * b * 2 ^ shift + 2 * b) := by ring
        _ ≤ first * ((second' + 1) * 2 ^ shift) + first * (2 * b * 2 ^ shift + 2 ^ shift) := by
          apply Nat.add_le_add
          · exact Nat.mul_le_mul_left _ lower
          · apply Nat.mul_le_mul_left
            omega
        _ = (first * second' + 2 * (b + 1) * first) * 2 ^ shift := by ring

/-- A table grows in every period by at least its first increment. -/
theorem growthTable_lower (start shift k : Nat) :
    start + k * (start / 2 ^ shift) ≤ growthTable start shift k := by
  induction k with
  | zero => simp [growthTable]
  | succ k ih =>
      have grown : start ≤ growthTable start shift k := Nat.le_trans (Nat.le_add_right _ _) ih
      have step := Nat.div_le_div_right (c := 2 ^ shift) grown
      rw [growthTable, Nat.shiftRight_eq_div_pow, Nat.succ_mul]
      omega

/-- What a table adds to a unit. -/
def gain (table : Nat → Nat) (periods : Nat) : ℚ := table periods / table 0 - 1

section Gain

variable (start shift : Nat) (positive : 0 < start)

include positive

theorem gain_nonneg (k : Nat) : 0 ≤ gain (growthTable start shift) k := by
  have grown := growthTable_mono start shift 0 k (Nat.zero_le k)
  have divisor : (0 : ℚ) < growthTable start shift 0 := by exact_mod_cast positive
  rw [gain, sub_nonneg, le_div_iff₀ divisor, one_mul]
  exact_mod_cast grown

theorem gain_add (a b : Nat) (few : 2 * b ≤ 2 ^ shift) :
    gain (growthTable start shift) (a + b) ≤
      gain (growthTable start shift) a + gain (growthTable start shift) b +
        gain (growthTable start shift) a * gain (growthTable start shift) b +
        2 * b * (1 + gain (growthTable start shift) a) / start := by
  have divisor : (0 : ℚ) < start := by exact_mod_cast positive
  have table : (growthTable start shift (a + b) : ℚ) * start ≤
      growthTable start shift a * growthTable start shift b +
        2 * b * growthTable start shift a := by
    exact_mod_cast growthTable_add start shift a b few
  simp only [gain, growthTable]
  generalize (growthTable start shift (a + b) : ℚ) = sum at *
  generalize (growthTable start shift b : ℚ) = second at *
  generalize (growthTable start shift a : ℚ) = first at *
  have scaled : sum / start ≤ (first * second + 2 * b * first) / start ^ 2 := by
    rw [div_le_div_iff₀ divisor (by positivity)]
    nlinarith
  calc
    sum / start - 1 ≤ (first * second + 2 * b * first) / start ^ 2 - 1 := by linarith
    _ = _ := by
      field_simp
      ring

theorem gain_le (k : Nat) (few : k < 2 ^ shift) :
    gain (growthTable start shift) k ≤ k / (2 ^ shift - k) := by
  have divisor : (0 : ℚ) < start := by exact_mod_cast positive
  have left : (0 : ℚ) < 2 ^ shift - k := by
    rw [sub_pos]
    exact_mod_cast few
  have back := growthTable_back start shift 0 k
  rw [Nat.zero_add] at back
  have table : (growthTable start shift k : ℚ) * (2 ^ shift - k) ≤ start * 2 ^ shift := by
    have cast : ((2 ^ shift - k : Nat) : ℚ) = 2 ^ shift - k := by
      rw [Nat.cast_sub (Nat.le_of_lt few)]
      norm_num
    rw [← cast]
    exact_mod_cast back
  simp only [gain, growthTable]
  rw [sub_le_iff_le_add, div_le_iff₀ divisor]
  have whole : (k : ℚ) / (2 ^ shift - k) + 1 = 2 ^ shift / (2 ^ shift - k) := by
    field_simp
    ring
  rw [whole, div_mul_eq_mul_div, le_div_iff₀ left]
  linarith

end Gain

theorem gain_bonus_lower (k : Nat) : (k : ℚ) / 2 ^ 16 ≤ gain bonusTable k := by
  have grown := growthTable_lower (2 ^ 52) 16 k
  have table : ((2 : ℚ) ^ 52 + k * 2 ^ 36) ≤ bonusTable k := by
    have increment : (2 : Nat) ^ 52 / 2 ^ 16 = 2 ^ 36 := by norm_num
    rw [increment] at grown
    exact_mod_cast grown
  have start : (bonusTable 0 : ℚ) = 2 ^ 52 := by
    norm_num [bonusTable, growthTable]
  rw [gain, start, le_sub_iff_add_le, le_div_iff₀ (by norm_num)]
  linarith

/-! ## Roundings -/

theorem share_rat (n f d : Int) (divisor : 0 < d) :
    (share n f d : ℚ) ≤ n * (f / d) ∧ (n : ℚ) * (f / d) - 1 < share n f d := by
  obtain ⟨lower, upper⟩ := share_bounds n f d divisor
  have positive : (0 : ℚ) < d := by exact_mod_cast divisor
  have lower' : (share n f d : ℚ) * d ≤ n * f := by exact_mod_cast lower
  have upper' : (n : ℚ) * f < share n f d * d + d := by exact_mod_cast upper
  rw [← mul_div_assoc]
  constructor
  · rwa [le_div_iff₀ positive]
  · rw [sub_lt_iff_lt_add, div_lt_iff₀ positive]
    linarith

theorem earned_rat (start shift : Nat) (positive : 0 < start) (periods n : Int) :
    (earned (growthTable start shift) periods n : ℚ) ≤
        n * gain (growthTable start shift) periods.toNat ∧
      (n : ℚ) * gain (growthTable start shift) periods.toNat - 1 <
        earned (growthTable start shift) periods n := by
  have divisor : (0 : Int) < growthTable start shift 0 := by exact_mod_cast positive
  have nonzero : (growthTable start shift 0 : ℚ) ≠ 0 := by exact_mod_cast Int.ne_of_gt divisor
  have same : (((growthTable start shift periods.toNat : Int) - growthTable start shift 0 : Int) : ℚ) /
      (growthTable start shift 0 : Int) = gain (growthTable start shift) periods.toNat := by
    rw [gain]
    push_cast
    field_simp
  rw [← same]
  exact share_rat n _ _ divisor

theorem rate_rat (periods n : Int) :
    (earned rateTable periods n : ℚ) ≤ n * gain rateTable periods.toNat ∧
      (n : ℚ) * gain rateTable periods.toNat - 1 < earned rateTable periods n :=
  earned_rat (2 ^ 60) 18 (by decide) periods n

theorem bonus_rat (periods n : Int) :
    (earned bonusTable periods n : ℚ) ≤ n * gain bonusTable periods.toNat ∧
      (n : ℚ) * gain bonusTable periods.toNat - 1 < earned bonusTable periods n :=
  earned_rat (2 ^ 52) 16 (by decide) periods n

/-- The part of the bonus that is paid at a height before the fork. -/
def paidPart (height : Int) : ℚ :=
  1 - ((twoYears - height : Int) : ℚ) ^ 4 / ((twoYears : Int) : ℚ) ^ 4

theorem rest_rat (am height : Int) :
    (rest am ((twoYears - height) ^ 4) (twoYears ^ 4) : ℚ) < am * paidPart height + 1 ∧
      (am : ℚ) * paidPart height ≤ rest am ((twoYears - height) ^ 4) (twoYears ^ 4) := by
  obtain ⟨lower, upper⟩ := share_rat am ((twoYears - height) ^ 4) (twoYears ^ 4) (by decide)
  rw [rest, paidPart]
  push_cast at lower upper ⊢
  constructor <;> linarith

theorem paidPart_bounds (height : Int) (mined : 0 ≤ height) (early : height < fork1Height) :
    0 ≤ paidPart height ∧ paidPart height ≤ 18 / 100 := by
  have fork : fork1Height = 25000 := rfl
  have years : twoYears = 525600 := rfl
  have nonneg : (0 : ℚ) ≤ ((twoYears - height : Int) : ℚ) := by
    exact_mod_cast (by omega : 0 ≤ twoYears - height)
  have most : ((twoYears - height : Int) : ℚ) ≤ 525600 := by
    exact_mod_cast (by omega : twoYears - height ≤ 525600)
  have least : (500600 : ℚ) ≤ ((twoYears - height : Int) : ℚ) := by
    exact_mod_cast (by omega : 500600 ≤ twoYears - height)
  have upper := pow_le_pow_left₀ nonneg most 4
  have lower := pow_le_pow_left₀ (by norm_num) least 4
  rw [paidPart, years]
  rw [years] at upper lower
  constructor
  · rw [sub_nonneg, div_le_one (by norm_num)]
    exact upper
  · rw [sub_le_comm, le_div_iff₀ (by norm_num)]
    norm_num at lower ⊢
    linarith

/-- Every block later, a larger part of the bonus is paid. -/
theorem paidPart_later (height later : Int) (ordered : height ≤ later)
    (early : later < fork1Height) :
    ((later - height : Int) : ℚ) / 153000 ≤ paidPart later - paidPart height := by
  have fork : fork1Height = 25000 := rfl
  have years : twoYears = 525600 := rfl
  have least : (500600 : ℚ) ≤ ((twoYears - later : Int) : ℚ) := by
    exact_mod_cast (by omega : 500600 ≤ twoYears - later)
  have apart : (0 : ℚ) ≤ ((later - height : Int) : ℚ) := by
    exact_mod_cast (by omega : 0 ≤ later - height)
  have sum : ((twoYears - height : Int) : ℚ) =
      ((twoYears - later : Int) : ℚ) + ((later - height : Int) : ℚ) := by
    push_cast
    ring
  rw [paidPart, paidPart, sum, years]
  rw [years] at least
  generalize ((525600 - later : Int) : ℚ) = x at *
  generalize ((later - height : Int) : ℚ) = a at *
  have cube := pow_le_pow_left₀ (by norm_num) least 3
  have expand : (x + a) ^ 4 = x ^ 4 + 4 * a * x ^ 3 + a ^ 2 * (6 * x ^ 2 + 4 * x * a + a ^ 2) := by
    ring
  have rest : 0 ≤ a ^ 2 * (6 * x ^ 2 + 4 * x * a + a ^ 2) := by positivity
  have slope : a * 500600 ^ 3 ≤ a * x ^ 3 := mul_le_mul_of_nonneg_left cube apart
  calc
    a / 153000 ≤ 4 * (a * 500600 ^ 3) / 525600 ^ 4 := by
      rw [div_le_div_iff₀ (by norm_num) (by norm_num)]
      linarith
    _ ≤ ((x + a) ^ 4 - x ^ 4) / 525600 ^ 4 := by
      rw [div_le_div_iff_of_pos_right (by norm_num), expand]
      linarith
    _ = 1 - x ^ 4 / (525600 : Int) ^ 4 - (1 - (x + a) ^ 4 / (525600 : Int) ^ 4) := by
      push_cast
      ring

/-! ## Two periods against one -/

/-- What a unit is worth after `k` periods when a part `w` of the bonus is paid. -/
def worth (w : ℚ) (k : Nat) : ℚ := 1 + gain rateTable k + w * gain bonusTable k

theorem month_gains (k : Nat) (month : k ≤ 21600) :
    gain rateTable k ≤ 9 / 100 ∧ gain bonusTable k ≤ k / 43936 ∧ gain bonusTable k ≤ 1 / 2 := by
  have some : (k : ℚ) ≤ 21600 := by exact_mod_cast month
  have rate := gain_le (2 ^ 60) 18 (by decide) k (by omega)
  have bonus := gain_le (2 ^ 52) 16 (by decide) k (by omega)
  have nonneg : (0 : ℚ) ≤ k := Nat.cast_nonneg k
  have tail : (k : ℚ) / (2 ^ 16 - k) ≤ k / 43936 := by
    apply div_le_div_of_nonneg_left nonneg (by norm_num)
    linarith
  have rate_tail : (k : ℚ) / (2 ^ 18 - k) ≤ 9 / 100 := by
    rw [div_le_div_iff₀ (by linarith) (by norm_num)]
    linarith
  have half : (k : ℚ) / 43936 ≤ 1 / 2 := by
    rw [div_le_div_iff₀ (by norm_num) (by norm_num)]
    linarith
  exact ⟨le_trans rate rate_tail, le_trans bonus tail, le_trans (le_trans bonus tail) half⟩

/-- Moving to a height that pays a larger part of the bonus gains more than the interest on the
bonus loses. -/
theorem worth_rollover (w w' : ℚ) (a b : Nat) (month : a + b ≤ 21600) (nonneg : 0 ≤ w)
    (part : w ≤ 18 / 100) (later : (a : ℚ) / 153000 ≤ w' - w) (first : 0 < a) :
    worth w (a + b) + a * b / 2 ^ 35 ≤ worth w a * worth w' b := by
  obtain ⟨rate_a, bonus_a, bonus_a'⟩ := month_gains a (by omega)
  have rate := gain_add (2 ^ 60) 18 (by decide) a b (by omega)
  have bonus := gain_add (2 ^ 52) 16 (by decide) a b (by omega)
  have rate_a_nonneg : 0 ≤ gain rateTable a := gain_nonneg (2 ^ 60) 18 (by decide) a
  have rate_b_nonneg : 0 ≤ gain rateTable b := gain_nonneg (2 ^ 60) 18 (by decide) b
  have bonus_a_nonneg : 0 ≤ gain bonusTable a := gain_nonneg (2 ^ 52) 16 (by decide) a
  have bonus_b := gain_bonus_lower b
  have sum : (b : ℚ) ≤ a * b := by exact_mod_cast Nat.le_mul_of_pos_left b first
  have some : (0 : ℚ) ≤ a := Nat.cast_nonneg a
  have some' : (0 : ℚ) ≤ b := Nat.cast_nonneg b
  change gain rateTable (a + b) ≤ gain rateTable a + gain rateTable b +
    gain rateTable a * gain rateTable b + 2 * b * (1 + gain rateTable a) / (2 ^ 60 : Nat) at rate
  change gain bonusTable (a + b) ≤ gain bonusTable a + gain bonusTable b +
    gain bonusTable a * gain bonusTable b + 2 * b * (1 + gain bonusTable a) / (2 ^ 52 : Nat) at bonus
  simp only [worth]
  generalize gain rateTable (a + b) = rate_sum at *
  generalize gain bonusTable (a + b) = bonus_sum at *
  generalize gain rateTable a = sa at *
  generalize gain rateTable b = sb at *
  generalize gain bonusTable a = ua at *
  generalize gain bonusTable b = ub at *
  generalize (a : ℚ) = x at *
  generalize (b : ℚ) = y at *
  push_cast at rate bonus
  have ub_nonneg : 0 ≤ ub := le_trans (by positivity) bonus_b
  have larger : w ≤ w' := by linarith [div_nonneg some (by norm_num : (0 : ℚ) ≤ 153000)]
  -- the larger part gained against the interest on the bonus
  have advantage : x * (24 / 10 ^ 7) ≤ w' - w - w * ua := by
    have lost : w * ua ≤ 18 / 100 * (x / 43936) :=
      mul_le_mul part bonus_a bonus_a_nonneg (by norm_num)
    linarith
  have gained : y / 2 ^ 16 * (x * (24 / 10 ^ 7)) ≤ ub * (w' - w - w * ua) :=
    mul_le_mul bonus_b advantage (by positivity) ub_nonneg
  -- the roundings of the tables
  have rounded : 2 * y * (1 + sa) / 2 ^ 60 + w * (2 * y * (1 + ua) / 2 ^ 52) ≤ y / 2 ^ 50 := by
    have rate_part : 2 * y * (1 + sa) / 2 ^ 60 ≤ y / 2 ^ 51 := by
      rw [div_le_div_iff₀ (by norm_num) (by norm_num)]
      nlinarith
    have bonus_part : w * (2 * y * (1 + ua) / 2 ^ 52) ≤ y / 2 ^ 51 := by
      have whole : 2 * y * (1 + ua) / 2 ^ 52 ≤ 3 * y / 2 ^ 52 := by
        rw [div_le_div_iff_of_pos_right (by norm_num)]
        nlinarith
      have part' : w * (2 * y * (1 + ua) / 2 ^ 52) ≤ 18 / 100 * (3 * y / 2 ^ 52) :=
        mul_le_mul part whole (by positivity) (by norm_num)
      linarith
    linarith
  have scaled : w * bonus_sum ≤
      w * (ua + ub + ua * ub) + w * (2 * y * (1 + ua) / 2 ^ 52) := by
    rw [← mul_add]
    exact mul_le_mul_of_nonneg_left bonus nonneg
  have crossed : 0 ≤ w' * sa * ub + w * ua * sb + w * w' * ua * ub := by
    have w'_nonneg : 0 ≤ w' := le_trans nonneg larger
    positivity
  calc
    1 + rate_sum + w * bonus_sum + x * y / 2 ^ 35
        ≤ 1 + (sa + sb + sa * sb) + w * (ua + ub + ua * ub) + y / 2 ^ 50 + x * y / 2 ^ 35 := by
      linarith
    _ ≤ 1 + (sa + sb + sa * sb) + w * (ua + ub + ua * ub) + y / 2 ^ 16 * (x * (24 / 10 ^ 7)) := by
      linarith
    _ ≤ 1 + (sa + sb + sa * sb) + w * (ua + ub + ua * ub) + ub * (w' - w - w * ua) := by
      linarith
    _ ≤ 1 + (sa + sb + sa * sb) + w * (ua + ub + ua * ub) + ub * (w' - w - w * ua) +
        (w' * sa * ub + w * ua * sb + w * w' * ua * ub) := by linarith
    _ = (1 + sa + w * ua) * (1 + sb + w' * ub) := by ring

/-! ## Valuations within a month before the fork -/

section Month

variable (pow : Int → Int → Int) (chainHeight nValue outputBlockHeight valuationHeight : Int)

theorem month_blocks (ordered : outputBlockHeight ≤ valuationHeight)
    (month : valuationHeight - outputBlockHeight ≤ thirtyDays) :
    interestBlocks outputBlockHeight valuationHeight 0 = valuationHeight - outputBlockHeight := by
  rw [interestBlocks, if_neg (by decide)]
  omega

theorem early_output (mined : 0 ≤ outputBlockHeight) (early : outputBlockHeight < fork1Height) :
    belowFork1 outputBlockHeight = true := by
  simp [belowFork1, mined, early]

theorem exactValue_month (mined : 0 ≤ outputBlockHeight) (early : outputBlockHeight < fork1Height)
    (ordered : outputBlockHeight ≤ valuationHeight)
    (month : valuationHeight - outputBlockHeight ≤ thirtyDays) :
    exactValue pow chainHeight nValue outputBlockHeight valuationHeight 0 =
      nValue + earned rateTable (valuationHeight - outputBlockHeight) nValue +
        rest (earned bonusTable (valuationHeight - outputBlockHeight) nValue)
          ((twoYears - outputBlockHeight) ^ 4) (twoYears ^ 4) := by
  have own := early_output outputBlockHeight mined early
  simp only [exactValue, exactInterest, exactStandard, exactBonus, exactTermBonus, own,
    Bool.or_true, if_true, month_blocks outputBlockHeight valuationHeight ordered month]
  rw [if_neg (fun long => absurd long.1 (by decide))]
  ring

/-- The value is what the amount is worth, to two units. -/
theorem exactValue_worth (mined : 0 ≤ outputBlockHeight) (early : outputBlockHeight < fork1Height)
    (ordered : outputBlockHeight ≤ valuationHeight)
    (month : valuationHeight - outputBlockHeight ≤ thirtyDays) :
    let unit := worth (paidPart outputBlockHeight) (valuationHeight - outputBlockHeight).toNat
    (exactValue pow chainHeight nValue outputBlockHeight valuationHeight 0 : ℚ) <
        nValue * unit + 1 ∧
      (nValue : ℚ) * unit - 2 <
        exactValue pow chainHeight nValue outputBlockHeight valuationHeight 0 := by
  intro unit
  obtain ⟨nonneg, part⟩ := paidPart_bounds outputBlockHeight mined early
  rw [exactValue_month pow chainHeight nValue outputBlockHeight valuationHeight mined early ordered
    month]
  obtain ⟨rate_upper, rate_lower⟩ := rate_rat (valuationHeight - outputBlockHeight) nValue
  obtain ⟨bonus_upper, bonus_lower⟩ := bonus_rat (valuationHeight - outputBlockHeight) nValue
  obtain ⟨rest_upper, rest_lower⟩ := rest_rat
    (earned bonusTable (valuationHeight - outputBlockHeight) nValue) outputBlockHeight
  have upper := mul_le_mul_of_nonneg_right bonus_upper nonneg
  have lower := mul_le_mul_of_nonneg_right (le_of_lt bonus_lower) nonneg
  have sum : (nValue : ℚ) * unit = nValue +
      nValue * gain rateTable (valuationHeight - outputBlockHeight).toNat +
      nValue * gain bonusTable (valuationHeight - outputBlockHeight).toNat *
        paidPart outputBlockHeight := by
    simp only [unit, worth]
    ring
  rw [sum]
  push_cast
  constructor <;> linarith

theorem worth_month (w : ℚ) (k : Nat) (month : k ≤ 21600) (nonneg : 0 ≤ w)
    (part : w ≤ 18 / 100) : 1 ≤ worth w k ∧ worth w k ≤ 118 / 100 := by
  obtain ⟨rate, -, bonus⟩ := month_gains k month
  have rate_nonneg : 0 ≤ gain rateTable k := gain_nonneg (2 ^ 60) 18 (by decide) k
  have bonus_nonneg : 0 ≤ gain bonusTable k := gain_nonneg (2 ^ 52) 16 (by decide) k
  have product : w * gain bonusTable k ≤ 18 / 100 * (1 / 2) :=
    mul_le_mul part bonus bonus_nonneg (by norm_num)
  have product_nonneg := mul_nonneg nonneg bonus_nonneg
  rw [worth]
  constructor <;> linarith

/-- A month's interest stays within `MAX_MONEY` for up to four fifths of it. -/
theorem month_unclamped (amount : 0 ≤ nValue) (most : 5 * nValue ≤ 4 * maxMoney)
    (mined : 0 ≤ outputBlockHeight) (early : outputBlockHeight < fork1Height)
    (ordered : outputBlockHeight ≤ valuationHeight)
    (month : valuationHeight - outputBlockHeight ≤ thirtyDays) :
    Unclamped pow chainHeight nValue outputBlockHeight valuationHeight 0 := by
  have money : maxMoney = 600000000000000000 := rfl
  have days : thirtyDays = 21600 := rfl
  have few : (valuationHeight - outputBlockHeight).toNat ≤ 21600 := by omega
  have nonneg : (0 : ℚ) ≤ nValue := by exact_mod_cast amount
  have limit : (5 : ℚ) * nValue ≤ 4 * maxMoney := by exact_mod_cast most
  have large : (600000000000000000 : ℚ) = maxMoney := by rw [money]; norm_num
  obtain ⟨rate, -, bonus⟩ := month_gains (valuationHeight - outputBlockHeight).toNat few
  have blocks := month_blocks outputBlockHeight valuationHeight ordered month
  have part := paidPart_bounds outputBlockHeight mined early
  constructor
  · constructor
    · rw [exactStandard, early_output outputBlockHeight mined early, Bool.or_true, if_pos rfl,
        blocks]
      have upper := (rate_rat (valuationHeight - outputBlockHeight) nValue).1
      have scaled := mul_le_mul_of_nonneg_left rate nonneg
      have within : (earned rateTable (valuationHeight - outputBlockHeight) nValue : ℚ) ≤
          maxMoney := by linarith
      exact_mod_cast within
    · intro _
      rw [blocks]
      have upper := (bonus_rat (valuationHeight - outputBlockHeight) nValue).1
      have scaled := mul_le_mul_of_nonneg_left bonus nonneg
      have within : (earned bonusTable (valuationHeight - outputBlockHeight) nValue : ℚ) ≤
          maxMoney := by linarith
      exact_mod_cast within
  · have upper := (exactValue_worth pow chainHeight nValue outputBlockHeight valuationHeight mined
      early ordered month).1
    have scaled := mul_le_mul_of_nonneg_left
      (worth_month (paidPart outputBlockHeight) _ few part.1 part.2).2 nonneg
    have within : (exactValue pow chainHeight nValue outputBlockHeight valuationHeight 0 : ℚ) ≤
        maxMoney := by linarith
    exact_mod_cast within

/-- The post-fork rate does not enter. -/
theorem getInterest_before_fork (pow' : Int → Int → Int) (maturationBlock : Int)
    (mined : 0 ≤ outputBlockHeight) (early : outputBlockHeight < fork1Height) :
    getInterest pow chainHeight nValue outputBlockHeight valuationHeight maturationBlock =
      getInterest pow' chainHeight nValue outputBlockHeight valuationHeight maturationBlock := by
  simp only [getInterest, standardInterest, early_output outputBlockHeight mined early,
    Bool.or_true, if_true]

theorem getInterest_month (amount : 0 ≤ nValue) (most : 5 * nValue ≤ 4 * maxMoney)
    (mined : 0 ≤ outputBlockHeight) (early : outputBlockHeight < fork1Height)
    (ordered : outputBlockHeight ≤ valuationHeight)
    (month : valuationHeight - outputBlockHeight ≤ thirtyDays) :
    getInterest pow chainHeight nValue outputBlockHeight valuationHeight 0 =
      exactValue (fun paid _ => paid) chainHeight nValue outputBlockHeight valuationHeight 0 := by
  have money : maxMoney = 600000000000000000 := rfl
  rw [getInterest_before_fork pow chainHeight nValue outputBlockHeight valuationHeight
    (fun paid _ => paid) 0 mined early]
  exact getInterest_exact (fun paid _ => paid) chainHeight nValue outputBlockHeight valuationHeight
    0 ⟨fun _ _ => Int.le_refl _, fun _ _ _ _ => Int.le_refl _⟩
    ⟨amount, by omega, mined, ordered, by decide⟩
    (month_unclamped _ chainHeight nValue outputBlockHeight valuationHeight amount most mined early
      ordered month)

/-- Money valued where it was paid out is worth itself. -/
theorem getInterest_unspent (inside : moneyRange nValue = true) :
    getInterest pow chainHeight nValue outputBlockHeight outputBlockHeight 0 = nValue := by
  have money : maxMoney = 600000000000000000 := rfl
  obtain ⟨amount, most⟩ := (moneyRange_iff nValue).mp inside
  rw [getInterest_same_height pow chainHeight nValue outputBlockHeight 0 amount]
  split
  · rfl
  · rw [wrap64_of_fits nValue (by omega) (by omega), validateCoins_exact nValue amount most]

/-- Rolling a balance over within a month is worth no more than holding it when it is rolled over
at an end of the month; in between it is worth more, unless the balance is so small that the
roundings hide it. -/
theorem rollover_against_holding (m : Int) (inside : moneyRange nValue = true)
    (ordered : outputBlockHeight ≤ m) (ordered' : m ≤ valuationHeight)
    (early : valuationHeight < fork1Height)
    (month : valuationHeight - outputBlockHeight ≤ thirtyDays) :
    let held := getInterest pow chainHeight nValue outputBlockHeight valuationHeight 0
    let rolled := getInterest pow chainHeight
      (getInterest pow chainHeight nValue outputBlockHeight m 0) m valuationHeight 0
    (m = outputBlockHeight ∨ m = valuationHeight → rolled ≤ held) ∧
      (0 ≤ outputBlockHeight → 2 * nValue ≤ maxMoney →
        2 ^ 38 ≤ nValue * ((m - outputBlockHeight) * (valuationHeight - m)) → held < rolled) := by
  intro held rolled
  obtain ⟨amount, -⟩ := (moneyRange_iff nValue).mp inside
  have days : thirtyDays = 21600 := rfl
  constructor
  · rintro (same | same)
    · subst same
      simp only [rolled, held, getInterest_unspent pow chainHeight nValue m inside]
      exact Int.le_refl _
    · subst same
      simp only [rolled, held]
      rw [getInterest_unspent pow chainHeight _ m
        (getInterest_range pow chainHeight nValue outputBlockHeight m 0 inside)]
  · intro mined most large
    have money : maxMoney = 600000000000000000 := rfl
    have first := getInterest_month pow chainHeight nValue outputBlockHeight m amount (by omega)
      mined (by omega) ordered (by omega)
    have whole := getInterest_month pow chainHeight nValue outputBlockHeight valuationHeight amount
      (by omega) mined (by omega) (by omega) month
    -- the amount after the first period
    obtain ⟨first_upper, first_lower⟩ := exactValue_worth (fun paid _ => paid) chainHeight nValue
      outputBlockHeight m mined (by omega) ordered (by omega)
    obtain ⟨whole_upper, -⟩ := exactValue_worth (fun paid _ => paid) chainHeight nValue
      outputBlockHeight valuationHeight mined (by omega) (by omega) month
    simp only [rolled, held, first, whole]
    have kept := exactValue_ge (fun paid _ => paid) chainHeight nValue outputBlockHeight m 0
      ⟨fun _ _ => Int.le_refl _, fun _ _ _ _ => Int.le_refl _⟩ amount mined
    generalize exactValue (fun paid _ => paid) chainHeight nValue outputBlockHeight m 0 = moved at *
    generalize exactValue (fun paid _ => paid) chainHeight nValue outputBlockHeight valuationHeight
      0 = whole_value at *
    obtain ⟨part_nonneg, part_most⟩ := paidPart_bounds outputBlockHeight mined (by omega)
    obtain ⟨part_nonneg', part_most'⟩ := paidPart_bounds m (by omega) (by omega)
    obtain ⟨-, first_unit⟩ := worth_month (paidPart outputBlockHeight) (m - outputBlockHeight).toNat
      (by omega) part_nonneg part_most
    obtain ⟨second_least, second_unit⟩ := worth_month (paidPart m) (valuationHeight - m).toNat
      (by omega) part_nonneg' part_most'
    have amount' : (0 : ℚ) ≤ nValue := by exact_mod_cast amount
    have moved_most : 5 * moved ≤ 4 * maxMoney := by
      have scaled := mul_le_mul_of_nonneg_left first_unit amount'
      have limit : (2 : ℚ) * nValue ≤ maxMoney := by exact_mod_cast most
      have size : (600000000000000000 : ℚ) = maxMoney := by rw [money]; norm_num
      have within : (5 : ℚ) * moved ≤ 4 * maxMoney := by linarith
      exact_mod_cast within
    rw [getInterest_month pow chainHeight moved m valuationHeight (by omega) moved_most (by omega)
      (by omega) ordered' (by omega)]
    obtain ⟨-, second_lower⟩ := exactValue_worth (fun paid _ => paid) chainHeight moved m
      valuationHeight (by omega) (by omega) ordered' (by omega)
    generalize exactValue (fun paid _ => paid) chainHeight moved m valuationHeight 0 = rolled_value
      at *
    have blocks : (valuationHeight - outputBlockHeight).toNat =
        (m - outputBlockHeight).toNat + (valuationHeight - m).toNat := by omega
    have apart : m ≠ outputBlockHeight := by
      intro same
      rw [same, Int.sub_self, Int.zero_mul, Int.mul_zero] at large
      exact absurd large (by decide)
    have casts : ((m - outputBlockHeight : Int) : ℚ) = (m - outputBlockHeight).toNat ∧
        ((valuationHeight - m : Int) : ℚ) = (valuationHeight - m).toNat := by
      constructor
      · exact_mod_cast (Int.toNat_of_nonneg (by omega)).symm
      · exact_mod_cast (Int.toNat_of_nonneg (by omega)).symm
    have later := paidPart_later outputBlockHeight m ordered (by omega)
    rw [casts.1] at later
    have gained := worth_rollover (paidPart outputBlockHeight) (paidPart m)
      (m - outputBlockHeight).toNat (valuationHeight - m).toNat (by omega) part_nonneg part_most
      later (by omega)
    have large' : (2 : ℚ) ^ 38 ≤ nValue * ((m - outputBlockHeight).toNat *
        (valuationHeight - m).toNat) := by
      rw [← casts.1, ← casts.2]
      exact_mod_cast large
    rw [blocks] at whole_upper
    generalize worth (paidPart outputBlockHeight)
      ((m - outputBlockHeight).toNat + (valuationHeight - m).toNat) = whole_worth at *
    generalize worth (paidPart outputBlockHeight) (m - outputBlockHeight).toNat = first_worth at *
    generalize worth (paidPart m) (valuationHeight - m).toNat = second_worth at *
    generalize ((m - outputBlockHeight).toNat : ℚ) * (valuationHeight - m).toNat = area at *
    have more : (whole_value : ℚ) < rolled_value := by
      calc
        (whole_value : ℚ) < nValue * whole_worth + 1 := whole_upper
        _ ≤ nValue * whole_worth + nValue * area / 2 ^ 35 - 5 := by linarith
        _ = nValue * (whole_worth + area / 2 ^ 35) - 5 := by ring
        _ ≤ nValue * (first_worth * second_worth) - 5 := by
          have scaled := mul_le_mul_of_nonneg_left gained amount'
          linarith
        _ ≤ (nValue * first_worth - 2) * second_worth - 2 := by linarith
        _ ≤ moved * second_worth - 2 := by
          have scaled := mul_le_mul_of_nonneg_right (le_of_lt first_lower)
            (le_trans zero_le_one second_least)
          linarith
        _ ≤ rolled_value := le_of_lt second_lower
    exact_mod_cast more

end Month

/-- Ten thousand coins rolled over after the first of two days. -/
theorem rollover_beats_holding :
    getInterest (fun amount _ => amount) 5000 (10000 * coin) 0 1440 0 <
      getInterest (fun amount _ => amount) 5000
        (getInterest (fun amount _ => amount) 5000 (10000 * coin) 0 720 0) 720 1440 0 := by
  decide +kernel

theorem rollover_against_holding_applied :
    getInterest (fun amount _ => amount) 5000 (10000 * coin) 100 4420 0 <
      getInterest (fun amount _ => amount) 5000
        (getInterest (fun amount _ => amount) 5000 (10000 * coin) 100 2260 0) 2260 4420 0 :=
  (rollover_against_holding (fun amount _ => amount) 5000 (10000 * coin) 100 4420 2260 (by decide)
    (by decide) (by decide) (by decide) (by decide)).2 (by decide) (by decide) (by decide)

end RoiCoin
