import RoiCoin.Lib.LongDivision
import RoiCoin.Lib.WordBits
import RoiCoin.BlockTree

/-! The word loops of `base_uint`, and the compact targets and block proofs computed with them. -/

namespace RoiCoin

/-- `base_uint<BITS>`: `WIDTH` words of 32 bits, least significant first. -/
structure BaseUint (WIDTH : Nat) where
  pn : List (BitVec 32)
  size : pn.length = WIDTH
  deriving DecidableEq

namespace BaseUint

variable {WIDTH : Nat}

def value (a : BaseUint WIDTH) : Nat := WordBits.value a.pn

def zero : BaseUint WIDTH := ⟨List.replicate WIDTH 0, List.length_replicate⟩

/-- The conversion from `uint64_t`. -/
def ofUint64 (b : BitVec 64) : BaseUint (WIDTH + 2) where
  pn := b.setWidth 32 :: (b >>> 32).setWidth 32 :: List.replicate WIDTH 0
  size := by simp

/-- `pn[i] |= word` -/
def orWord (a : BaseUint WIDTH) (i : Nat) (word : BitVec 32) : BaseUint WIDTH :=
  ⟨a.pn.modify i (· ||| word), (List.length_modify _ _ _).trans a.size⟩

/-- The loop body of `operator<<=`, with `shift` already reduced below 32. -/
def shlWord (a : BaseUint WIDTH) (k shift : Nat) (pn : BaseUint WIDTH) (i : Nat) :
    BaseUint WIDTH :=
  let pn := if i + k + 1 < WIDTH ∧ shift ≠ 0
    then pn.orWord (i + k + 1) (a.pn.getD i 0 >>> (32 - shift)) else pn
  if i + k < WIDTH then pn.orWord (i + k) (a.pn.getD i 0 <<< shift) else pn

/-- `operator<<=` -/
def shlAssign (a : BaseUint WIDTH) (shift : Nat) : BaseUint WIDTH :=
  (List.range WIDTH).foldl (shlWord a (shift / 32) (shift % 32)) zero

/-- The loop body of `operator>>=`; `i - k - 1 >= 0` and `i - k >= 0` on integers. -/
def shrWord (a : BaseUint WIDTH) (k shift : Nat) (pn : BaseUint WIDTH) (i : Nat) :
    BaseUint WIDTH :=
  let pn := if k + 1 ≤ i ∧ shift ≠ 0
    then pn.orWord (i - k - 1) (a.pn.getD i 0 <<< (32 - shift)) else pn
  if k ≤ i then pn.orWord (i - k) (a.pn.getD i 0 >>> shift) else pn

/-- `operator>>=` -/
def shrAssign (a : BaseUint WIDTH) (shift : Nat) : BaseUint WIDTH :=
  (List.range WIDTH).foldl (shrWord a (shift / 32) (shift % 32)) zero

/-- The loop of `operator+=`, with its `uint64_t` sum. -/
def addWords : Nat → List (BitVec 32) → List (BitVec 32) → List (BitVec 32)
  | _, [], _ => []
  | _, word :: pn, [] => word :: pn
  | carry, word :: pn, other :: b =>
      let n := (carry + word.toNat + other.toNat) % 2 ^ 64
      BitVec.ofNat 32 n :: addWords (n / 2 ^ 32) pn b

theorem addWords_length (carry : Nat) (pn b : List (BitVec 32)) :
    (addWords carry pn b).length = pn.length := by
  induction pn generalizing carry b with
  | nil => rfl
  | cons word pn ih => cases b with
    | nil => rfl
    | cons other b => simp [addWords, ih]

/-- `operator+=` -/
def addAssign (a b : BaseUint WIDTH) : BaseUint WIDTH :=
  ⟨addWords 0 a.pn b.pn, (addWords_length _ _ _).trans a.size⟩

/-- `operator~` -/
def complement (a : BaseUint WIDTH) : BaseUint WIDTH :=
  ⟨a.pn.map (~~~ ·), (List.length_map _).trans a.size⟩

/-- The loop of the prefix `operator++`. -/
def incrementWords : List (BitVec 32) → List (BitVec 32)
  | [] => []
  | word :: pn => if word + 1 = 0 then (word + 1) :: incrementWords pn else (word + 1) :: pn

theorem incrementWords_length (pn : List (BitVec 32)) : (incrementWords pn).length = pn.length := by
  induction pn with
  | nil => rfl
  | cons word pn ih => rw [incrementWords]; split <;> simp [ih]

/-- The prefix `operator++`. -/
def increment (a : BaseUint WIDTH) : BaseUint WIDTH :=
  ⟨incrementWords a.pn, (incrementWords_length _).trans a.size⟩

/-- The unary `operator-`. -/
def negate (a : BaseUint WIDTH) : BaseUint WIDTH := a.complement.increment

/-- `operator-=` -/
def subAssign (a b : BaseUint WIDTH) : BaseUint WIDTH := a.addAssign b.negate

/-- The loop of `operator*=(uint32_t)`. -/
def scaleWords (b32 : BitVec 32) : Nat → List (BitVec 32) → List (BitVec 32)
  | _, [] => []
  | carry, word :: pn =>
      let n := (carry + b32.toNat * word.toNat) % 2 ^ 64
      BitVec.ofNat 32 n :: scaleWords b32 (n / 2 ^ 32) pn

theorem scaleWords_length (b32 : BitVec 32) (carry : Nat) (pn : List (BitVec 32)) :
    (scaleWords b32 carry pn).length = pn.length := by
  induction pn generalizing carry with
  | nil => rfl
  | cons word pn ih => simp [scaleWords, ih]

/-- `operator*=(uint32_t)` -/
def scaleAssign (a : BaseUint WIDTH) (b32 : BitVec 32) : BaseUint WIDTH :=
  ⟨scaleWords b32 0 a.pn, (scaleWords_length _ _ _).trans a.size⟩

/-- The inner loop of `operator*=`, from position `j` on. -/
def mulWords (word : BitVec 32) : Nat → List (BitVec 32) → List (BitVec 32) → List (BitVec 32)
  | _, [], _ => []
  | _, old :: pn, [] => old :: pn
  | carry, old :: pn, other :: b =>
      let n := (carry + old.toNat + word.toNat * other.toNat) % 2 ^ 64
      BitVec.ofNat 32 n :: mulWords word (n / 2 ^ 32) pn b

theorem mulWords_length (word : BitVec 32) (carry : Nat) (pn b : List (BitVec 32)) :
    (mulWords word carry pn b).length = pn.length := by
  induction pn generalizing carry b with
  | nil => rfl
  | cons old pn ih => cases b with
    | nil => rfl
    | cons other b => simp [mulWords, ih]

/-- The outer loop body of `operator*=`. -/
def mulRow (a b : BaseUint WIDTH) (pn : BaseUint WIDTH) (j : Nat) : BaseUint WIDTH where
  pn := pn.pn.take j ++ mulWords (a.pn.getD j 0) 0 (pn.pn.drop j) b.pn
  size := by
    rw [List.length_append, mulWords_length, ← List.length_append, List.take_append_drop, pn.size]

/-- `operator*=(const base_uint&)` -/
def mulAssign (a b : BaseUint WIDTH) : BaseUint WIDTH :=
  (List.range WIDTH).foldl (mulRow a b) zero

/-- The loop of `CompareTo`, from the top word down. -/
def compareWords (a b : List (BitVec 32)) : Nat → Int
  | 0 => 0
  | i + 1 =>
      if a.getD i 0 < b.getD i 0 then -1
      else if a.getD i 0 > b.getD i 0 then 1
      else compareWords a b i

def compareTo (a b : BaseUint WIDTH) : Int := compareWords a.pn b.pn WIDTH

/-- `EqualTo(uint64_t)` -/
def equalTo (a : BaseUint WIDTH) (b : BitVec 64) : Bool :=
  if (a.pn.drop 2).any (· != 0) then false
  else if a.pn.getD 1 0 != (b >>> 32).setWidth 32 then false
  else a.pn.getD 0 0 == b.setWidth 32

/-- The loop over the bits of the highest word that is set. -/
def bitsWord (word : BitVec 32) : Nat → Nat
  | 0 => 1
  | bits + 1 => if word.toNat.testBit (bits + 1) then bits + 2 else bitsWord word bits

def bitsLoop (pn : List (BitVec 32)) : Nat → Nat
  | 0 => 0
  | pos + 1 =>
      if pn.getD pos 0 ≠ 0 then 32 * pos + bitsWord (pn.getD pos 0) 31 else bitsLoop pn pos

/-- Position of the highest set bit plus one. -/
def bits (a : BaseUint WIDTH) : Nat := bitsLoop a.pn WIDTH

/-- The loop of `operator/=`: `turns` is `shift + 1`. -/
def divLoop : Nat → BaseUint WIDTH → BaseUint WIDTH → BaseUint WIDTH → BaseUint WIDTH
  | 0, _, _, quotient => quotient
  | shift + 1, num, div, quotient =>
      if num.compareTo div ≥ 0 then
        divLoop shift (num.subAssign div) (div.shrAssign 1)
          (quotient.orWord (shift / 32) ((1 : BitVec 32) <<< (shift % 32)))
      else divLoop shift num (div.shrAssign 1) quotient

/-- `operator/=` -/
def divAssign (a b : BaseUint WIDTH) : Except String (BaseUint WIDTH) :=
  if b.bits = 0 then .error "Division by zero"
  else if b.bits > a.bits then .ok zero
  else .ok (divLoop (a.bits - b.bits + 1) a (b.shlAssign (a.bits - b.bits)) zero)

/-- `GetLow64` -/
def getLow64 (a : BaseUint WIDTH) : BitVec 64 :=
  (a.pn.getD 0 0).setWidth 64 ||| (a.pn.getD 1 0).setWidth 64 <<< 32

theorem value_lt (a : BaseUint WIDTH) : a.value < 2 ^ (32 * WIDTH) := by
  have bound := WordBits.value_lt a.pn
  rwa [a.size] at bound

theorem value_zero : (zero : BaseUint WIDTH).value = 0 := by
  have zeros : ∀ n, WordBits.value (List.replicate n (0 : BitVec 32)) = 0 := by
    intro n
    induction n with
    | zero => rfl
    | succ n ih => rw [List.replicate_succ, WordBits.value_cons, ih]; rfl
  exact zeros WIDTH

theorem value_orWord (a : BaseUint WIDTH) (i : Nat) (word : BitVec 32) (inside : i < WIDTH) :
    (a.orWord i word).value = a.value ||| word.toNat * 2 ^ (32 * i) :=
  WordBits.value_modify a.pn (by decide) i word (by rw [a.size]; exact inside)

theorem value_before (a : BaseUint WIDTH) (m : Nat) :
    a.value % 2 ^ (32 * (m + 1)) =
      a.value % 2 ^ (32 * m) ||| (a.pn.getD m 0).toNat * 2 ^ (32 * m) :=
  WordBits.value_before a.pn (by decide) m

theorem or_mul_two_pow (a b n : Nat) : (a ||| b) * 2 ^ n = a * 2 ^ n ||| b * 2 ^ n := by
  simp only [← Nat.shiftLeft_eq, Nat.shiftLeft_or_distrib]

theorem high_bit (word : BitVec 32) (b : Nat) (high : 32 ≤ b) : word.toNat.testBit b = false :=
  Nat.testBit_lt_two_pow
    (Nat.lt_of_lt_of_le word.isLt (Nat.pow_le_pow_right (by decide) high))

/-- Where the bits of one word go in a left shift: the low part stays in its word, the
rest spills into the next. -/
theorem shifted_left (word : BitVec 32) (position shift : Nat) (small : shift < 32) :
    word.toNat * 2 ^ (32 * position) * 2 ^ shift % 2 ^ (32 * WIDTH) =
      (if position + 1 < WIDTH ∧ shift ≠ 0
        then (word >>> (32 - shift)).toNat * 2 ^ (32 * (position + 1)) else 0) |||
      (if position < WIDTH then (word <<< shift).toNat * 2 ^ (32 * position) else 0) := by
  apply Nat.eq_of_testBit_eq
  intro b
  rw [Nat.mul_assoc, ← Nat.pow_add, Nat.testBit_mod_two_pow, Nat.testBit_mul_two_pow,
    Nat.testBit_or]
  have spilled : (if position + 1 < WIDTH ∧ shift ≠ 0
      then (word >>> (32 - shift)).toNat * 2 ^ (32 * (position + 1)) else 0).testBit b =
      (decide (position + 1 < WIDTH ∧ shift ≠ 0 ∧ 32 * (position + 1) ≤ b) &&
        word.toNat.testBit (b - (32 * position + shift))) := by
    split
    · rename_i spill
      rw [Nat.testBit_mul_two_pow, BitVec.toNat_ushiftRight, Nat.testBit_shiftRight]
      by_cases reached : 32 * (position + 1) ≤ b
      · have index : 32 - shift + (b - 32 * (position + 1)) = b - (32 * position + shift) := by
          omega
        simp [spill, reached, index]
      · simp [reached]
    · rename_i kept
      have empty : ¬ (position + 1 < WIDTH ∧ shift ≠ 0 ∧ 32 * (position + 1) ≤ b) :=
        fun spill => kept ⟨spill.1, spill.2.1⟩
      simp [empty]
  have stayed : (if position < WIDTH
      then (word <<< shift).toNat * 2 ^ (32 * position) else 0).testBit b =
      (decide (position < WIDTH ∧ 32 * position + shift ≤ b ∧ b < 32 * (position + 1)) &&
        word.toNat.testBit (b - (32 * position + shift))) := by
    split
    · rename_i inside
      rw [Nat.testBit_mul_two_pow, BitVec.toNat_shiftLeft, Nat.testBit_mod_two_pow,
        Nat.testBit_shiftLeft]
      have index : b - 32 * position - shift = b - (32 * position + shift) := by omega
      rw [index, ← Bool.and_assoc, ← Bool.and_assoc]
      congr 1
      simp only [← Bool.decide_and, decide_eq_decide]
      omega
    · rename_i outside
      simp [outside]
  rw [spilled, stayed, ← Bool.and_or_distrib_right]
  by_cases high : 32 ≤ b - (32 * position + shift)
  · simp [high_bit word _ high]
  · rw [← Bool.and_assoc]
    congr 1
    simp only [← Bool.decide_and, ← Bool.decide_or, decide_eq_decide]
    omega

theorem value_shlWord (a : BaseUint WIDTH) (k shift : Nat) (small : shift < 32) (m : Nat)
    (pn : BaseUint WIDTH) :
    (shlWord a k shift pn m).value = pn.value |||
      (a.pn.getD m 0).toNat * 2 ^ (32 * (m + k)) * 2 ^ shift % 2 ^ (32 * WIDTH) := by
  rw [shifted_left _ _ _ small, shlWord]
  by_cases spill : m + k + 1 < WIDTH ∧ shift ≠ 0 <;> by_cases inside : m + k < WIDTH
  · simp only [if_pos spill, if_pos inside, value_orWord _ _ _ inside,
      value_orWord _ _ _ spill.1, Nat.or_assoc]
  · omega
  · simp only [if_neg spill, if_pos inside, value_orWord _ _ _ inside, Nat.zero_or]
  · simp only [if_neg spill, if_neg inside, Nat.or_zero]

theorem shlAssign_value (a : BaseUint WIDTH) (shift : Nat) :
    (a.shlAssign shift).value = a.value * 2 ^ shift % 2 ^ (32 * WIDTH) := by
  have small : shift % 32 < 32 := Nat.mod_lt _ (by decide)
  have turns : ∀ m, ((List.range m).foldl (shlWord a (shift / 32) (shift % 32)) zero).value =
      a.value % 2 ^ (32 * m) * 2 ^ shift % 2 ^ (32 * WIDTH) := by
    intro m
    induction m with
    | zero => simp [value_zero, Nat.mod_one]
    | succ m ih =>
        have amount : 2 ^ (32 * (m + shift / 32)) * 2 ^ (shift % 32) =
            2 ^ (32 * m) * 2 ^ shift := by
          rw [← Nat.pow_add, ← Nat.pow_add]
          congr 1
          omega
        rw [List.range_succ, List.foldl_concat, value_shlWord _ _ _ small, ih, value_before,
          Nat.mul_assoc _ _ (2 ^ (shift % 32)), amount, or_mul_two_pow, Nat.or_mod_two_pow,
          Nat.mul_assoc]
  rw [shlAssign, turns, Nat.mod_eq_of_lt a.value_lt]

/-- Where the bits of one word go in a right shift: the high part stays, the rest falls
into the word before. -/
theorem shifted_right (word : BitVec 32) (m k shift : Nat) (small : shift < 32) :
    word.toNat * 2 ^ (32 * m) / 2 ^ (32 * k + shift) =
      (if k + 1 ≤ m ∧ shift ≠ 0
        then (word <<< (32 - shift)).toNat * 2 ^ (32 * (m - k - 1)) else 0) |||
      (if k ≤ m then (word >>> shift).toNat * 2 ^ (32 * (m - k)) else 0) := by
  apply Nat.eq_of_testBit_eq
  intro b
  rw [Nat.testBit_div_two_pow, Nat.testBit_mul_two_pow, Nat.testBit_or]
  have spilled : (if k + 1 ≤ m ∧ shift ≠ 0
      then (word <<< (32 - shift)).toNat * 2 ^ (32 * (m - k - 1)) else 0).testBit b =
      (decide (k + 1 ≤ m ∧ shift ≠ 0 ∧ 32 * m ≤ b + (32 * k + shift) ∧ b < 32 * (m - k)) &&
        word.toNat.testBit (b + (32 * k + shift) - 32 * m)) := by
    split
    · rename_i spill
      rw [Nat.testBit_mul_two_pow, BitVec.toNat_shiftLeft, Nat.testBit_mod_two_pow,
        Nat.testBit_shiftLeft]
      have index : b - 32 * (m - k - 1) - (32 - shift) = b + (32 * k + shift) - 32 * m := by omega
      rw [index, ← Bool.and_assoc, ← Bool.and_assoc]
      congr 1
      simp only [← Bool.decide_and, decide_eq_decide]
      omega
    · rename_i kept
      have empty : ¬ (k + 1 ≤ m ∧ shift ≠ 0 ∧ 32 * m ≤ b + (32 * k + shift) ∧ b < 32 * (m - k)) :=
        fun spill => kept ⟨spill.1, spill.2.1⟩
      simp only [empty, decide_false, Bool.false_and, Nat.zero_testBit]
  have stayed : (if k ≤ m then (word >>> shift).toNat * 2 ^ (32 * (m - k)) else 0).testBit b =
      (decide (k ≤ m ∧ 32 * (m - k) ≤ b) &&
        word.toNat.testBit (b + (32 * k + shift) - 32 * m)) := by
    split
    · rename_i inside
      rw [Nat.testBit_mul_two_pow, BitVec.toNat_ushiftRight, Nat.testBit_shiftRight]
      by_cases reached : 32 * (m - k) ≤ b
      · have index : shift + (b - 32 * (m - k)) = b + (32 * k + shift) - 32 * m := by omega
        simp [inside, reached, index]
      · simp [reached]
    · rename_i outside
      simp [outside]
  rw [spilled, stayed, ← Bool.and_or_distrib_right]
  by_cases high : 32 ≤ b + (32 * k + shift) - 32 * m
  · simp [high_bit word _ high]
  · congr 1
    simp only [← Bool.decide_or, decide_eq_decide]
    omega

theorem value_shrWord (a : BaseUint WIDTH) (k shift : Nat) (small : shift < 32) (m : Nat)
    (inside : m < WIDTH) (pn : BaseUint WIDTH) :
    (shrWord a k shift pn m).value = pn.value |||
      (a.pn.getD m 0).toNat * 2 ^ (32 * m) / 2 ^ (32 * k + shift) := by
  have before : m - k - 1 < WIDTH := by omega
  have here : m - k < WIDTH := by omega
  rw [shifted_right _ _ _ _ small, shrWord]
  by_cases spill : k + 1 ≤ m ∧ shift ≠ 0 <;> by_cases stays : k ≤ m
  · simp only [if_pos spill, if_pos stays, value_orWord _ _ _ before, value_orWord _ _ _ here,
      Nat.or_assoc]
  · omega
  · simp only [if_neg spill, if_pos stays, value_orWord _ _ _ here, Nat.zero_or]
  · simp only [if_neg spill, if_neg stays, Nat.or_zero]

theorem shrAssign_value (a : BaseUint WIDTH) (shift : Nat) :
    (a.shrAssign shift).value = a.value / 2 ^ shift := by
  have small : shift % 32 < 32 := Nat.mod_lt _ (by decide)
  have amount : 32 * (shift / 32) + shift % 32 = shift := Nat.div_add_mod shift 32
  have turns : ∀ m, m ≤ WIDTH →
      ((List.range m).foldl (shrWord a (shift / 32) (shift % 32)) zero).value =
        a.value % 2 ^ (32 * m) / 2 ^ shift := by
    intro m
    induction m with
    | zero => simp [value_zero, Nat.mod_one]
    | succ m ih =>
        intro bound
        rw [List.range_succ, List.foldl_concat, value_shrWord _ _ _ small m (by omega),
          ih (by omega), value_before, Nat.or_div_two_pow, amount]
  rw [shrAssign, turns WIDTH (Nat.le_refl _), Nat.mod_eq_of_lt a.value_lt]

theorem addWords_value (carry : Nat) (pn b : List (BitVec 32)) (carried : carry < 2 ^ 32)
    (same : pn.length = b.length) :
    WordBits.value (addWords carry pn b) =
      (carry + WordBits.value pn + WordBits.value b) % 2 ^ (32 * pn.length) := by
  induction pn generalizing carry b with
  | nil => simp [addWords, Nat.mod_one]
  | cons word pn ih => cases b with
    | nil => cases same
    | cons other b =>
        have first := word.isLt
        have second := other.isLt
        have fits : (carry + word.toNat + other.toNat) % 2 ^ 64 =
            carry + word.toNat + other.toNat := Nat.mod_eq_of_lt (by omega)
        have rest := ih ((carry + word.toNat + other.toNat) / 2 ^ 32) b (by omega)
          (Nat.succ.inj same)
        rw [Nat.add_assoc _ (WordBits.value pn)] at rest
        rw [addWords, fits, WordBits.value_carry _ _ _ _ rest, List.length_cons,
          WordBits.value_cons, WordBits.value_cons]
        congr 1
        ring

theorem addAssign_value (a b : BaseUint WIDTH) :
    (a.addAssign b).value = (a.value + b.value) % 2 ^ (32 * WIDTH) := by
  have sum := addWords_value 0 a.pn b.pn (by decide) (a.size.trans b.size.symm)
  rw [a.size, Nat.zero_add] at sum
  exact sum

theorem complement_value (a : BaseUint WIDTH) :
    a.complement.value + a.value + 1 = 2 ^ (32 * WIDTH) := by
  have total := WordBits.value_complement a.pn
  rwa [a.size] at total

theorem incrementWords_value (pn : List (BitVec 32)) :
    WordBits.value (incrementWords pn) = (WordBits.value pn + 1) % 2 ^ (32 * pn.length) := by
  induction pn with
  | nil => simp [incrementWords]
  | cons word pn ih =>
      have first := word.isLt
      have below := WordBits.value_lt (word :: pn)
      have next : (word + 1).toNat = (word.toNat + 1) % 2 ^ 32 := BitVec.toNat_add word 1
      rw [incrementWords]
      split
      · rename_i wraps
        have zero : word + 1 = BitVec.ofNat 32 (2 ^ 32) := wraps
        have top : word.toNat + 1 = 2 ^ 32 := by
          have cleared : (word.toNat + 1) % 2 ^ 32 = 0 := by rw [← next, wraps]; rfl
          omega
        have rest : WordBits.value (incrementWords pn) =
            (2 ^ 32 / 2 ^ 32 + WordBits.value pn) % 2 ^ (32 * pn.length) := by
          rw [ih, Nat.add_comm]
          rfl
        rw [zero, WordBits.value_carry _ _ _ _ rest, List.length_cons, WordBits.value_cons, ← top]
        congr 1
        omega
      · rename_i stays
        have small : word.toNat + 1 < 2 ^ 32 := by
          by_contra large
          have top : word.toNat + 1 = 2 ^ 32 := by omega
          rw [top] at next
          exact stays (BitVec.eq_of_toNat_eq next)
        have fits := WordBits.value_lt ((word + 1) :: pn)
        rw [WordBits.value_cons, next, Nat.mod_eq_of_lt small, List.length_cons] at fits
        rw [WordBits.value_cons, next, Nat.mod_eq_of_lt small, WordBits.value_cons,
          List.length_cons, Nat.mod_eq_of_lt (by omega)]
        omega

theorem negate_value (a : BaseUint WIDTH) :
    a.negate.value = (2 ^ (32 * WIDTH) - a.value) % 2 ^ (32 * WIDTH) := by
  have step := incrementWords_value a.complement.pn
  have total := a.complement_value
  have flipped : a.complement.value + 1 = 2 ^ (32 * WIDTH) - a.value := by omega
  rw [a.complement.size] at step
  rw [← flipped]
  exact step

/-- Subtracting the smaller number is exact. -/
theorem subAssign_value (a b : BaseUint WIDTH) (below : b.value ≤ a.value) :
    (a.subAssign b).value = a.value - b.value := by
  have first := a.value_lt
  have split : a.value + (2 ^ (32 * WIDTH) - b.value) = a.value - b.value + 2 ^ (32 * WIDTH) := by
    omega
  rw [subAssign, addAssign_value, negate_value, Nat.add_mod_mod, split, Nat.add_mod_right,
    Nat.mod_eq_of_lt (by omega)]

/-- A product of two words plus two words below it fits in 64 bits. -/
theorem product_fits (word other : BitVec 32) (carry old : Nat) (carried : carry < 2 ^ 32)
    (small : old < 2 ^ 32) : carry + old + word.toNat * other.toNat < 2 ^ 64 := by
  have factor := word.isLt
  have second := other.isLt
  have product : word.toNat * other.toNat ≤ (2 ^ 32 - 1) * (2 ^ 32 - 1) :=
    Nat.mul_le_mul (by omega) (by omega)
  omega

theorem scaleWords_value (b32 : BitVec 32) (carry : Nat) (pn : List (BitVec 32))
    (carried : carry < 2 ^ 32) :
    WordBits.value (scaleWords b32 carry pn) =
      (carry + b32.toNat * WordBits.value pn) % 2 ^ (32 * pn.length) := by
  induction pn generalizing carry with
  | nil => simp [scaleWords, Nat.mod_one]
  | cons word pn ih =>
      have bound := product_fits b32 word carry 0 carried (by decide)
      have fits : (carry + b32.toNat * word.toNat) % 2 ^ 64 = carry + b32.toNat * word.toNat :=
        Nat.mod_eq_of_lt bound
      have rest := ih ((carry + b32.toNat * word.toNat) / 2 ^ 32) (by omega)
      rw [scaleWords, fits, WordBits.value_carry _ _ _ _ rest, List.length_cons,
        WordBits.value_cons]
      congr 1
      ring

theorem scaleAssign_value (a : BaseUint WIDTH) (b32 : BitVec 32) :
    (a.scaleAssign b32).value = a.value * b32.toNat % 2 ^ (32 * WIDTH) := by
  have product := scaleWords_value b32 0 a.pn (by decide)
  rw [a.size, Nat.zero_add, Nat.mul_comm] at product
  exact product

theorem mulWords_value (word : BitVec 32) (carry : Nat) (pn b : List (BitVec 32))
    (carried : carry < 2 ^ 32) (enough : pn.length ≤ b.length) :
    WordBits.value (mulWords word carry pn b) =
      (carry + WordBits.value pn + word.toNat * WordBits.value b) % 2 ^ (32 * pn.length) := by
  induction pn generalizing carry b with
  | nil => simp [mulWords, Nat.mod_one]
  | cons old pn ih => cases b with
    | nil => cases enough
    | cons other b =>
        have bound := product_fits word other carry old.toNat carried old.isLt
        have fits : (carry + old.toNat + word.toNat * other.toNat) % 2 ^ 64 =
            carry + old.toNat + word.toNat * other.toNat := Nat.mod_eq_of_lt bound
        have rest := ih ((carry + old.toNat + word.toNat * other.toNat) / 2 ^ 32) b (by omega)
          (Nat.le_of_succ_le_succ enough)
        rw [Nat.add_assoc _ (WordBits.value pn)] at rest
        rw [mulWords, fits, WordBits.value_carry _ _ _ _ rest, List.length_cons,
          WordBits.value_cons, WordBits.value_cons]
        congr 1
        ring

theorem mulRow_value (a b pn : BaseUint WIDTH) (j : Nat) (inside : j < WIDTH) :
    (mulRow a b pn j).value =
      (pn.value + (a.pn.getD j 0).toNat * 2 ^ (32 * j) * b.value) % 2 ^ (32 * WIDTH) := by
  have row := mulWords_value (a.pn.getD j 0) 0 (pn.pn.drop j) b.pn (by decide)
    (by rw [List.length_drop, pn.size, b.size]; omega)
  have low : (pn.pn.take j).length = j := by rw [List.length_take, pn.size]; omega
  have parts := WordBits.value_append (pn.pn.take j) (pn.pn.drop j)
  have joined := WordBits.value_suffix (pn.pn.take j) _ _ _ row
  rw [List.take_append_drop, low] at parts
  rw [low, List.length_drop, pn.size, Nat.add_sub_of_le (by omega)] at joined
  rw [value, mulRow, joined, value, parts, value]
  congr 1
  ring

theorem mulAssign_value (a b : BaseUint WIDTH) :
    (a.mulAssign b).value = a.value * b.value % 2 ^ (32 * WIDTH) := by
  have rows : ∀ m, m ≤ WIDTH → ((List.range m).foldl (mulRow a b) zero).value =
      a.value % 2 ^ (32 * m) * b.value % 2 ^ (32 * WIDTH) := by
    intro m
    induction m with
    | zero => simp [value_zero, Nat.mod_one]
    | succ m ih =>
        intro bound
        have grown : a.value % 2 ^ (32 * (m + 1)) =
            a.value % 2 ^ (32 * m) + (a.pn.getD m 0).toNat * 2 ^ (32 * m) :=
          WordBits.value_before_add a.pn (by decide) m
        rw [List.range_succ, List.foldl_concat, mulRow_value _ _ _ _ (by omega), ih (by omega),
          Nat.mod_add_mod, grown, Nat.add_mul]
  rw [mulAssign, rows WIDTH (Nat.le_refl _), Nat.mod_eq_of_lt a.value_lt]

end BaseUint

end RoiCoin
