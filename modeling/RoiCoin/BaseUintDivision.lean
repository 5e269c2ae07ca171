import RoiCoin.BaseUint

/-! Comparison, bit length and division of `base_uint`. -/

namespace RoiCoin.BaseUint

variable {WIDTH : Nat}

theorem compareWords_value (a b : List (BitVec 32)) (m : Nat) :
    compareWords a b m =
      if WordBits.value a % 2 ^ (32 * m) < WordBits.value b % 2 ^ (32 * m) then -1
      else if WordBits.value a % 2 ^ (32 * m) > WordBits.value b % 2 ^ (32 * m) then 1
      else 0 := by
  induction m with
  | zero => simp [compareWords, Nat.mod_one]
  | succ m ih =>
      have power : 0 < 2 ^ (32 * m) := Nat.two_pow_pos _
      have lowLeft := Nat.mod_lt (WordBits.value a) power
      have lowRight := Nat.mod_lt (WordBits.value b) power
      rw [compareWords, ih, WordBits.value_before_add a (by decide),
        WordBits.value_before_add b (by decide)]
      generalize WordBits.value a % 2 ^ (32 * m) = left at *
      generalize WordBits.value b % 2 ^ (32 * m) = right at *
      simp only [BitVec.lt_def, GT.gt]
      generalize (a.getD m 0).toNat = high
      generalize (b.getD m 0).toNat = other
      rcases Nat.lt_trichotomy high other with below | same | above
      · have apart := Nat.mul_le_mul_right (2 ^ (32 * m)) (Nat.succ_le_of_lt below)
        rw [Nat.succ_mul] at apart
        rw [if_pos below, if_pos (by omega)]
      · subst same
        simp
      · have apart := Nat.mul_le_mul_right (2 ^ (32 * m)) (Nat.succ_le_of_lt above)
        rw [Nat.succ_mul] at apart
        rw [if_neg (by omega), if_pos above, if_neg (by omega), if_pos (by omega)]

theorem compareTo_value (a b : BaseUint WIDTH) :
    a.compareTo b = if a.value < b.value then -1 else if a.value > b.value then 1 else 0 := by
  have words := compareWords_value a.pn b.pn WIDTH
  have first : WordBits.value a.pn % 2 ^ (32 * WIDTH) = a.value := Nat.mod_eq_of_lt a.value_lt
  have second : WordBits.value b.pn % 2 ^ (32 * WIDTH) = b.value := Nat.mod_eq_of_lt b.value_lt
  rw [first, second] at words
  exact words

theorem compareTo_nonneg (a b : BaseUint WIDTH) : a.compareTo b ≥ 0 ↔ b.value ≤ a.value := by
  rw [compareTo_value]
  split
  · omega
  · split <;> omega

theorem bits_eq (a n : Nat) (reached : 2 ^ n ≤ a) (below : a < 2 ^ (n + 1)) :
    ArithUint256.bits a = n + 1 := by
  have upper := (ArithUint256.bits_le a (n + 1)).mpr below
  have lower : ¬ ArithUint256.bits a ≤ n := by rw [ArithUint256.bits_le]; omega
  omega

theorem bitsWord_eq (word : BitVec 32) (n : Nat) (nonzero : word ≠ 0)
    (small : word.toNat < 2 ^ (n + 1)) : bitsWord word n = ArithUint256.bits word.toNat := by
  have positive : 0 < word.toNat := by
    by_contra zero
    exact nonzero (BitVec.eq_of_toNat_eq (by simpa using zero))
  induction n with
  | zero =>
      have one : word.toNat = 1 := by omega
      rw [bitsWord, one]
      rfl
  | succ n ih =>
      rw [bitsWord]
      split
      · rename_i top
        exact (bits_eq _ (n + 1) (Nat.ge_two_pow_of_testBit top) small).symm
      · rename_i clear
        refine ih ?_
        by_contra large
        have quotient : word.toNat / 2 ^ (n + 1) = 1 :=
          Nat.div_eq_of_lt_le (by omega) (by rw [Nat.pow_succ] at small; omega)
        rw [Nat.testBit_eq_decide_div_mod_eq, quotient] at clear
        exact clear rfl

theorem bitsLoop_eq (pn : List (BitVec 32)) (m : Nat) :
    bitsLoop pn m = ArithUint256.bits (WordBits.value pn % 2 ^ (32 * m)) := by
  induction m with
  | zero => simp [bitsLoop, Nat.mod_one, ArithUint256.bits]
  | succ m ih =>
      have low := Nat.mod_lt (WordBits.value pn) (Nat.two_pow_pos (32 * m))
      rw [bitsLoop, WordBits.value_before_add pn (by decide), ih]
      generalize WordBits.value pn % 2 ^ (32 * m) = rest at *
      generalize pn.getD m 0 = word
      by_cases zero : word = 0
      · subst zero
        simp
      · rw [if_pos zero, bitsWord_eq word 31 zero word.isLt]
        obtain ⟨n, length⟩ : ∃ n, ArithUint256.bits word.toNat = n + 1 := by
          refine Nat.exists_eq_succ_of_ne_zero ?_
          have positive : ¬ ArithUint256.bits word.toNat ≤ 0 := by
            rw [ArithUint256.bits_le]
            intro empty
            exact zero (BitVec.eq_of_toNat_eq (by simpa using empty))
          omega
        have reached : 2 ^ n ≤ word.toNat := by
          have := ArithUint256.bits_le word.toNat n
          omega
        have below : word.toNat + 1 ≤ 2 ^ (n + 1) := (ArithUint256.bits_le _ _).mp (by omega)
        have lower := Nat.mul_le_mul_right (2 ^ (32 * m)) reached
        have upper := Nat.mul_le_mul_right (2 ^ (32 * m)) below
        rw [← Nat.pow_add] at lower upper
        rw [Nat.succ_mul] at upper
        rw [length, ← Nat.add_assoc]
        refine (bits_eq _ (32 * m + n) ?_ ?_).symm
        · rw [Nat.add_comm (32 * m)]
          omega
        · have exponent : 32 * m + n + 1 = n + 1 + 32 * m := by omega
          rw [exponent]
          omega

theorem bits_value (a : BaseUint WIDTH) : a.bits = ArithUint256.bits a.value := by
  have loop := bitsLoop_eq a.pn WIDTH
  have whole : WordBits.value a.pn % 2 ^ (32 * WIDTH) = a.value := Nat.mod_eq_of_lt a.value_lt
  rw [whole] at loop
  exact loop

/-- The loop of `operator/=` is long division on the values, as long as the divisor is
aligned with the turn. -/
theorem divLoop_value (b turns : Nat) (num div quotient : BaseUint WIDTH)
    (room : turns ≤ 32 * WIDTH) (aligned : ∀ shift, turns = shift + 1 → div.value = b * 2 ^ shift) :
    (divLoop turns num div quotient).value =
      (LongDivision.divide b turns num.value quotient.value).2 := by
  induction turns generalizing num div quotient with
  | zero => rfl
  | succ shift ih =>
      have here := aligned shift rfl
      have next : ∀ lower, shift = lower + 1 → (div.shrAssign 1).value = b * 2 ^ lower := by
        intro lower rest
        rw [shrAssign_value, here, rest, Nat.pow_succ, ← Nat.mul_assoc]
        exact Nat.mul_div_cancel _ (by decide)
      have inside : shift / 32 < WIDTH := by omega
      have bit : ((1 : BitVec 32) <<< (shift % 32)).toNat * 2 ^ (32 * (shift / 32)) = 2 ^ shift := by
        have small : 2 ^ (shift % 32) < 2 ^ 32 :=
          Nat.pow_lt_pow_right (by decide) (Nat.mod_lt _ (by decide))
        have one : ((1 : BitVec 32) <<< (shift % 32)).toNat = 2 ^ (shift % 32) := by
          rw [BitVec.toNat_shiftLeft, Nat.shiftLeft_eq]
          exact (congrArg (· % 2 ^ 32) (Nat.one_mul _)).trans (Nat.mod_eq_of_lt small)
        rw [one, ← Nat.pow_add, Nat.mod_add_div]
      rw [divLoop, LongDivision.divide]
      by_cases fits : b * 2 ^ shift ≤ num.value
      · rw [if_pos ((compareTo_nonneg _ _).mpr (by rw [here]; exact fits)), if_pos fits,
          ih _ _ _ (by omega) next, subAssign_value _ _ (by rw [here]; exact fits), here,
          value_orWord _ _ _ inside, bit]
      · rw [if_neg (fun above => fits (by rw [← here]; exact (compareTo_nonneg _ _).mp above)),
          if_neg fits, ih _ _ _ (by omega) next]

theorem divAssign_value (a b : BaseUint WIDTH) (nonzero : b.value ≠ 0) :
    ∃ quotient, a.divAssign b = .ok quotient ∧ quotient.value = a.value / b.value := by
  have positive : ¬ b.bits = 0 := by
    rw [bits_value, ← Nat.le_zero, ArithUint256.bits_le]
    omega
  have reached : ¬ b.value < 2 ^ (b.bits - 1) := by
    rw [← ArithUint256.bits_le, ← bits_value]
    omega
  have below : b.value < 2 ^ b.bits := (ArithUint256.bits_le _ _).mp (by rw [bits_value])
  have numBelow : a.value < 2 ^ a.bits := (ArithUint256.bits_le _ _).mp (by rw [bits_value])
  have wide : a.bits ≤ 32 * WIDTH := by
    rw [bits_value, ArithUint256.bits_le]
    exact a.value_lt
  rw [divAssign, if_neg positive]
  by_cases short : b.bits > a.bits
  · have smaller : a.value < b.value := by
      have widths : 2 ^ a.bits ≤ 2 ^ (b.bits - 1) := Nat.pow_le_pow_right (by decide) (by omega)
      omega
    exact ⟨zero, if_pos short, by rw [value_zero, Nat.div_eq_of_lt smaller]⟩
  · refine ⟨_, if_neg short, ?_⟩
    have exponent : b.bits + (a.bits - b.bits) = a.bits := by omega
    have scaled : b.value * 2 ^ (a.bits - b.bits) < 2 ^ (32 * WIDTH) := by
      calc
        b.value * 2 ^ (a.bits - b.bits) < 2 ^ b.bits * 2 ^ (a.bits - b.bits) :=
          Nat.mul_lt_mul_of_pos_right below (Nat.two_pow_pos _)
        _ = 2 ^ a.bits := by rw [← Nat.pow_add, exponent]
        _ ≤ 2 ^ (32 * WIDTH) := Nat.pow_le_pow_right (by decide) wide
    have aligned : ∀ shift, a.bits - b.bits + 1 = shift + 1 →
        (b.shlAssign (a.bits - b.bits)).value = b.value * 2 ^ shift := by
      intro shift same
      rw [shlAssign_value, Nat.mod_eq_of_lt scaled, Nat.succ.inj same]
    have start : a.value < b.value * 2 ^ (a.bits - b.bits + 1) := by
      calc
        a.value < 2 ^ a.bits := numBelow
        _ = 2 ^ (b.bits - 1) * 2 ^ (a.bits - b.bits + 1) := by
          rw [← Nat.pow_add]; congr 1; omega
        _ ≤ b.value * 2 ^ (a.bits - b.bits + 1) := Nat.mul_le_mul_right _ (by omega)
    rw [divLoop_value b.value _ _ _ _ (by omega) aligned,
      LongDivision.divide_value _ _ _ _ (by omega) start (by rw [value_zero]; exact Nat.dvd_zero _),
      value_zero, Nat.zero_add]

/-- A zero divisor is reported. -/
theorem divAssign_zero (a b : BaseUint WIDTH) (zero : b.value = 0) :
    a.divAssign b = .error "Division by zero" := by
  have empty : b.bits = 0 := by rw [bits_value, zero]; rfl
  rw [divAssign, if_pos empty]

end RoiCoin.BaseUint
