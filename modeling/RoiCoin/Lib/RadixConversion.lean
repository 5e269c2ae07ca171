import Mathlib.Data.List.TakeWhile
import Mathlib.Data.Nat.Digits.Lemmas
import Mathlib.Algebra.Order.Ring.Int
import Mathlib.Tactic.Ring
import Mathlib.Tactic.Linarith

/-! Conversion between number bases in a buffer of fixed size, most significant digit first. -/

namespace RadixConversion

/-- The number that the digits stand for. -/
def value (base : Nat) (digits : List Nat) : Nat := Nat.ofDigits base digits.reverse

/-- `buffer * factor + carry` from the last digit to the first, and what is carried out. -/
def push (base factor carry : Nat) : List Nat → List Nat × Nat
  | [] => ([], carry)
  | digit :: digits =>
      let (rest, carry) := push base factor carry digits
      let carry := carry + factor * digit
      (carry % base :: rest, carry / base)

/-- Digits without leading zeros. -/
def stripped (digits : List Nat) : List Nat := digits.dropWhile (· == 0)

/-! ## Values -/

@[simp] theorem value_nil (base : Nat) : value base [] = 0 := rfl

theorem value_cons (base digit : Nat) (digits : List Nat) :
    value base (digit :: digits) = value base digits + base ^ digits.length * digit :=
  Nat.ofDigits_reverse_cons digits digit

theorem value_one (base digit : Nat) : value base [digit] = digit := by
  simp [value]

theorem value_two (base high low : Nat) : value base [high, low] = high * base + low := by
  rw [value_cons, value_one, List.length_singleton, pow_one]
  ring

theorem value_append (base digit : Nat) (digits : List Nat) :
    value base (digits ++ [digit]) = value base digits * base + digit := by
  rw [value, List.reverse_append, List.reverse_singleton, List.singleton_append, Nat.ofDigits_cons,
    value]
  ring

theorem value_append_digits (base : Nat) (front back : List Nat) :
    value base (front ++ back) = value base front * base ^ back.length + value base back := by
  rw [value, List.reverse_append, Nat.ofDigits_append, List.length_reverse, value, value]
  ring

/-- Zeros at the end. -/
theorem value_append_zeros (base count : Nat) (digits : List Nat) :
    value base (digits ++ List.replicate count 0) = value base digits * base ^ count := by
  induction count with
  | zero => simp
  | succ count ih =>
      rw [List.replicate_succ', ← List.append_assoc, value_append, ih, pow_succ]
      ring

@[simp] theorem value_zeros (base count : Nat) : value base (List.replicate count 0) = 0 := by
  rw [value, List.reverse_replicate, Nat.ofDigits_replicate_zero]

theorem value_lt (base : Nat) (digits : List Nat) (large : 1 < base)
    (small : ∀ digit ∈ digits, digit < base) : value base digits < base ^ digits.length := by
  rw [value, ← List.length_reverse]
  apply Nat.ofDigits_lt_base_pow_length large
  intro digit member
  exact small digit (List.mem_reverse.mp member)

/-- As many digits that stand for the same number are the same. -/
theorem value_injective (base : Nat) (first second : List Nat) (large : 1 < base)
    (small_first : ∀ digit ∈ first, digit < base) (small_second : ∀ digit ∈ second, digit < base)
    (length : first.length = second.length) (same : value base first = value base second) :
    first = second := by
  induction first generalizing second with
  | nil => exact (List.length_eq_zero_iff.mp length.symm).symm
  | cons digit first ih =>
      cases second with
      | nil => cases length
      | cons other second =>
          have lengths : first.length = second.length := Nat.succ.inj length
          rw [List.forall_mem_cons] at small_first small_second
          have low := value_lt base first large small_first.2
          have low' := value_lt base second large small_second.2
          rw [value_cons, value_cons, ← lengths] at same
          rw [← lengths] at low'
          have power : 0 < base ^ first.length := Nat.pow_pos (by omega)
          have lead : digit = other := by
            have left := congrArg (· / base ^ first.length) same
            simpa [Nat.add_mul_div_left _ _ power, Nat.div_eq_of_lt low,
              Nat.div_eq_of_lt low'] using left
          subst lead
          rw [ih second small_first.2 small_second.2 lengths (Nat.add_right_cancel same)]

theorem value_stripped (base : Nat) (digits : List Nat) :
    value base (stripped digits) = value base digits := by
  induction digits with
  | nil => rfl
  | cons digit digits ih =>
      by_cases zero : digit = 0
      · subst zero
        have skip : stripped (0 :: digits) = stripped digits := by simp [stripped]
        rw [skip, ih, value_cons, Nat.mul_zero, Nat.add_zero]
      · have keep : stripped (digit :: digits) = digit :: digits := by simp [stripped, zero]
        rw [keep]

/-- Digits without leading zeros are those of the number. -/
theorem stripped_eq (base : Nat) (digits : List Nat) (large : 1 < base)
    (small : ∀ digit ∈ digits, digit < base) :
    stripped digits = (Nat.digits base (value base digits)).reverse := by
  have own : Nat.digits base (value base (stripped digits)) = (stripped digits).reverse := by
    apply Nat.digits_ofDigits base large
    · intro digit member
      have inside := (List.dropWhile_suffix (· == 0)).subset (List.mem_reverse.mp member)
      exact small digit inside
    · intro nonempty
      have some : stripped digits ≠ [] := by
        intro empty
        exact nonempty (by rw [empty, List.reverse_nil])
      rw [List.getLast_reverse]
      have first := List.head_dropWhile_not (· == 0) some
      simpa [stripped] using first
  rw [← value_stripped, own, List.reverse_reverse]

/-! ## Leading zeros -/

def leading (digits : List Nat) : Nat := (digits.takeWhile (· == 0)).length

/-- The digits of a number after so many zeros. -/
def compose (base zeros n : Nat) : List Nat := List.replicate zeros 0 ++ (Nat.digits base n).reverse

theorem leading_zeros (digits : List Nat) :
    digits.takeWhile (· == 0) = List.replicate (leading digits) 0 := by
  rw [List.eq_replicate_iff]
  refine ⟨rfl, fun digit member => ?_⟩
  simpa using List.mem_takeWhile_imp member

/-- Digits are determined by their leading zeros and the number they stand for. -/
theorem compose_leading (base : Nat) (digits : List Nat) (large : 1 < base)
    (small : ∀ digit ∈ digits, digit < base) :
    compose base (leading digits) (value base digits) = digits := by
  rw [compose, ← leading_zeros, ← stripped_eq base digits large small]
  exact List.takeWhile_append_dropWhile

theorem compose_lt (base zeros n : Nat) (large : 1 < base) :
    ∀ digit ∈ compose base zeros n, digit < base := by
  intro digit member
  rcases List.mem_append.mp member with zero | other
  · have same := (List.mem_replicate.mp zero).2
    omega
  · exact Nat.digits_lt_base large (List.mem_reverse.mp other)

theorem length_compose (base zeros n : Nat) :
    (compose base zeros n).length = zeros + (Nat.digits base n).length := by
  rw [compose, List.length_append, List.length_replicate, List.length_reverse]

theorem value_compose (base zeros n : Nat) : value base (compose base zeros n) = n := by
  induction zeros with
  | zero =>
      rw [compose, List.replicate_zero, List.nil_append, value, List.reverse_reverse,
        Nat.ofDigits_digits]
  | succ zeros ih =>
      have more : compose base (zeros + 1) n = 0 :: compose base zeros n := rfl
      rw [more, value_cons, ih, Nat.mul_zero, Nat.add_zero]

theorem leading_compose (base zeros n : Nat) : leading (compose base zeros n) = zeros := by
  induction zeros with
  | zero =>
      rw [compose, List.replicate_zero, List.nil_append, leading]
      cases digits : (Nat.digits base n).reverse with
      | nil => rfl
      | cons digit rest =>
          have nonzero : digit ≠ 0 := by
            have some : Nat.digits base n ≠ [] := by
              intro empty
              rw [empty] at digits
              cases digits
            have nonzero := Nat.getLast_digit_ne_zero base (Nat.digits_ne_nil_iff_ne_zero.mp some)
            have first : (Nat.digits base n).getLast some = digit := by
              rw [← Option.some.injEq, ← List.getLast?_eq_some_getLast, ← List.head?_reverse,
                digits, List.head?_cons]
            rwa [first] at nonzero
          simp [nonzero]
  | succ zeros ih =>
      have more : compose base (zeros + 1) n = 0 :: compose base zeros n := rfl
      rw [more, leading]
      simpa [leading] using ih

/-! ## One step of the conversion -/

theorem length_push (base factor carry : Nat) (digits : List Nat) :
    (push base factor carry digits).1.length = digits.length := by
  induction digits with
  | nil => rfl
  | cons digit digits ih => simp [push, ih]

theorem push_lt (base factor carry : Nat) (digits : List Nat) (positive : 0 < base) :
    ∀ digit ∈ (push base factor carry digits).1, digit < base := by
  induction digits with
  | nil =>
      intro digit member
      cases member
  | cons digit digits ih =>
      simp only [push, List.forall_mem_cons]
      exact ⟨Nat.mod_lt _ positive, ih⟩

theorem push_value (base factor carry : Nat) (digits : List Nat) :
    value base (push base factor carry digits).1 +
        base ^ digits.length * (push base factor carry digits).2 =
      value base digits * factor + carry := by
  induction digits with
  | nil => simp [push]
  | cons digit digits ih =>
      have divided := Nat.mod_add_div ((push base factor carry digits).2 + factor * digit) base
      simp only [push, value_cons, length_push, List.length_cons, pow_succ]
      calc value base (push base factor carry digits).1 +
              base ^ digits.length *
                (((push base factor carry digits).2 + factor * digit) % base) +
            base ^ digits.length * base *
              (((push base factor carry digits).2 + factor * digit) / base)
          = value base (push base factor carry digits).1 + base ^ digits.length *
              (((push base factor carry digits).2 + factor * digit) % base +
                base * (((push base factor carry digits).2 + factor * digit) / base)) := by ring
        _ = value base (push base factor carry digits).1 + base ^ digits.length *
              ((push base factor carry digits).2 + factor * digit) := by rw [divided]
        _ = value base (push base factor carry digits).1 +
              base ^ digits.length * (push base factor carry digits).2 +
                base ^ digits.length * (factor * digit) := by ring
        _ = value base digits * factor + carry + base ^ digits.length * (factor * digit) := by
              rw [ih]
        _ = (value base digits + base ^ digits.length * digit) * factor + carry := by ring

/-- A buffer with room for the result carries nothing out. -/
theorem push_room (base factor carry : Nat) (digits : List Nat)
    (room : value base digits * factor + carry < base ^ digits.length) :
    (push base factor carry digits).2 = 0 ∧
      value base (push base factor carry digits).1 = value base digits * factor + carry := by
  have total := push_value base factor carry digits
  have none : (push base factor carry digits).2 = 0 := by
    by_contra carried
    have positive : 1 ≤ (push base factor carry digits).2 := Nat.pos_of_ne_zero carried
    have large := Nat.mul_le_mul_left (base ^ digits.length) positive
    omega
  rw [none, Nat.mul_zero, Nat.add_zero] at total
  exact ⟨none, total⟩

/-- The room for `left` more digits is still there after one of them. -/
theorem room_step (base factor carry left size before : Nat) (small : carry < factor)
    (room : (before + 1) * factor ^ (left + 1) ≤ base ^ size) :
    before * factor + carry < base ^ size ∧
      (before * factor + carry + 1) * factor ^ left ≤ base ^ size := by
  have bound : before * factor + carry + 1 ≤ (before + 1) * factor := by
    rw [Nat.add_mul, Nat.one_mul]
    omega
  have later : (before * factor + carry + 1) * factor ^ left ≤ base ^ size := by
    calc (before * factor + carry + 1) * factor ^ left
        ≤ (before + 1) * factor * factor ^ left := Nat.mul_le_mul_right _ bound
      _ = (before + 1) * factor ^ (left + 1) := by ring
      _ ≤ base ^ size := room
  have positive : 0 < factor ^ left := Nat.pow_pos (by omega)
  have once := Nat.le_mul_of_pos_right (before * factor + carry + 1) positive
  exact ⟨by omega, later⟩

/-- A buffer sized by a rational approximation of the logarithm has room for every input. -/
theorem size_suffices (base factor num den n : Nat) (large : 1 < base) (positive : 0 < den)
    (close : factor ^ den ≤ base ^ num) : factor ^ n < base ^ (n * num / den + 1) := by
  have above : n * num < (n * num / den + 1) * den := by
    rw [Nat.mul_comm (n * num / den + 1) den]
    exact Nat.lt_mul_div_succ (n * num) positive
  have powers : (factor ^ n) ^ den < (base ^ (n * num / den + 1)) ^ den := by
    calc (factor ^ n) ^ den = (factor ^ den) ^ n := by rw [← pow_mul, ← pow_mul, Nat.mul_comm]
      _ ≤ (base ^ num) ^ n := Nat.pow_le_pow_left close n
      _ = base ^ (n * num) := by rw [← pow_mul, Nat.mul_comm]
      _ < base ^ ((n * num / den + 1) * den) := Nat.pow_lt_pow_right large above
      _ = (base ^ (n * num / den + 1)) ^ den := pow_mul _ _ _
  exact lt_of_pow_lt_pow_left₀ den (Nat.zero_le _) powers

end RadixConversion
