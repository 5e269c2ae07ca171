import RoiCoin.Lib.RadixConversion

/-! Digits of `a` bits read as digits of `b` bits, most significant bits first. -/

namespace Regrouping

open RadixConversion

/-- The digits written, followed by the bits left over, have the bits of the digits read. -/
structure Regrouped (a b : Nat) (input output : List Nat) (left bits : Nat) : Prop where
  number : value (2 ^ b) output * 2 ^ bits + left = value (2 ^ a) input
  length : b * output.length + bits = a * input.length
  small : left < 2 ^ bits
  digits : ∀ digit ∈ output, digit < 2 ^ b

variable {a b : Nat} {input output : List Nat} {left bits : Nat}

theorem regrouped_nil (a b : Nat) : Regrouped a b [] [] 0 0 :=
  ⟨rfl, rfl, Nat.one_pos, List.forall_mem_nil _⟩

/-- One more digit read: the new digits and what is left have the bits that were left and those of
the digit. -/
theorem Regrouped.push (regrouped : Regrouped a b input output left bits) (digit : Nat)
    (written : List Nat) (left' bits' : Nat)
    (number : value (2 ^ b) written * 2 ^ bits' + left' = left * 2 ^ a + digit)
    (length : b * written.length + bits' = bits + a) (small : left' < 2 ^ bits')
    (digits : ∀ digit ∈ written, digit < 2 ^ b) :
    Regrouped a b (input ++ [digit]) (output ++ written) left' bits' where
  number := by
    have powers : (2 ^ b) ^ written.length * 2 ^ bits' = 2 ^ bits * 2 ^ a := by
      rw [← pow_mul, ← pow_add, ← pow_add, length]
    rw [value_append_digits, value_append, ← regrouped.number]
    calc (value (2 ^ b) output * (2 ^ b) ^ written.length + value (2 ^ b) written) * 2 ^ bits' +
          left'
        = value (2 ^ b) output * ((2 ^ b) ^ written.length * 2 ^ bits') +
            (value (2 ^ b) written * 2 ^ bits' + left') := by ring
      _ = value (2 ^ b) output * (2 ^ bits * 2 ^ a) + (left * 2 ^ a + digit) := by
          rw [powers, number]
      _ = (value (2 ^ b) output * 2 ^ bits + left) * 2 ^ a + digit := by ring
  length := by
    have before := regrouped.length
    rw [List.length_append, List.length_append, List.length_singleton, Nat.mul_add, Nat.mul_add,
      Nat.mul_one]
    omega
  small := small
  digits := by
    intro digit member
    rcases List.mem_append.mp member with old | new
    · exact regrouped.digits digit old
    · exact digits digit new

/-- A digit read that fills no digit. -/
theorem Regrouped.keep (regrouped : Regrouped a b input output left bits) (digit : Nat)
    (bounded : digit < 2 ^ a) :
    Regrouped a b (input ++ [digit]) (output ++ []) (left * 2 ^ a + digit) (bits + a) := by
  have small : left * 2 ^ a + digit < 2 ^ (bits + a) := by
    calc left * 2 ^ a + digit < left * 2 ^ a + 2 ^ a := by omega
      _ = (left + 1) * 2 ^ a := by ring
      _ ≤ 2 ^ bits * 2 ^ a := Nat.mul_le_mul_right _ regrouped.small
      _ = 2 ^ (bits + a) := (pow_add 2 bits a).symm
  exact regrouped.push digit [] _ _ (by rw [value_nil, Nat.zero_mul, Nat.zero_add]) (by simp) small
    (List.forall_mem_nil _)

/-- A digit read that fills one digit. -/
theorem Regrouped.one (regrouped : Regrouped a b input output left bits) (digit shift : Nat)
    (bounded : digit < 2 ^ a) (within : shift ≤ a) (fills : bits + a = b + shift) :
    Regrouped a b (input ++ [digit]) (output ++ [left * 2 ^ (a - shift) + digit / 2 ^ shift])
      (digit % 2 ^ shift) shift := by
  have split : 2 ^ a = 2 ^ (a - shift) * 2 ^ shift := by rw [← pow_add, Nat.sub_add_cancel within]
  have high : digit / 2 ^ shift < 2 ^ (a - shift) := by
    rw [Nat.div_lt_iff_lt_mul (Nat.two_pow_pos shift), ← split]
    exact bounded
  have number : (left * 2 ^ (a - shift) + digit / 2 ^ shift) * 2 ^ shift + digit % 2 ^ shift =
      left * 2 ^ a + digit := by
    calc (left * 2 ^ (a - shift) + digit / 2 ^ shift) * 2 ^ shift + digit % 2 ^ shift
        = left * (2 ^ (a - shift) * 2 ^ shift) +
            (2 ^ shift * (digit / 2 ^ shift) + digit % 2 ^ shift) := by ring
      _ = left * 2 ^ a + digit := by rw [← split, Nat.div_add_mod]
  have small : left * 2 ^ (a - shift) + digit / 2 ^ shift < 2 ^ b := by
    calc left * 2 ^ (a - shift) + digit / 2 ^ shift
        < left * 2 ^ (a - shift) + 2 ^ (a - shift) := by omega
      _ = (left + 1) * 2 ^ (a - shift) := by ring
      _ ≤ 2 ^ bits * 2 ^ (a - shift) := Nat.mul_le_mul_right _ regrouped.small
      _ = 2 ^ b := by rw [← pow_add]; congr 1; omega
  refine regrouped.push digit [_] _ shift ?_ ?_ (Nat.mod_lt _ (Nat.two_pow_pos shift)) ?_
  · rw [value_one, number]
  · rw [List.length_singleton]
    omega
  · simpa using small

/-- A digit read that fills two digits. -/
theorem Regrouped.two (regrouped : Regrouped a b input output left bits) (digit shift : Nat)
    (bounded : digit < 2 ^ a) (within : b + shift ≤ a) (fills : bits + a = b + (b + shift)) :
    Regrouped a b (input ++ [digit])
      (output ++ [left * 2 ^ (a - (b + shift)) + digit / 2 ^ (b + shift),
        digit / 2 ^ shift % 2 ^ b]) (digit % 2 ^ shift) shift := by
  have first := regrouped.one digit (b + shift) bounded within fills
  have top := first.digits (left * 2 ^ (a - (b + shift)) + digit / 2 ^ (b + shift))
    (List.mem_append_right _ List.mem_cons_self)
  have split : 2 ^ a = 2 ^ (a - (b + shift)) * 2 ^ (b + shift) := by
    rw [← pow_add, Nat.sub_add_cancel within]
  have middle : digit / 2 ^ (b + shift) = digit / 2 ^ shift / 2 ^ b := by
    rw [Nat.div_div_eq_div_mul, ← pow_add, Nat.add_comm shift b]
  have number : ((left * 2 ^ (a - (b + shift)) + digit / 2 ^ (b + shift)) * 2 ^ b +
      digit / 2 ^ shift % 2 ^ b) * 2 ^ shift + digit % 2 ^ shift = left * 2 ^ a + digit := by
    calc ((left * 2 ^ (a - (b + shift)) + digit / 2 ^ (b + shift)) * 2 ^ b +
          digit / 2 ^ shift % 2 ^ b) * 2 ^ shift + digit % 2 ^ shift
        = left * (2 ^ (a - (b + shift)) * 2 ^ (b + shift)) +
            (2 ^ shift * (2 ^ b * (digit / 2 ^ shift / 2 ^ b) + digit / 2 ^ shift % 2 ^ b) +
              digit % 2 ^ shift) := by rw [middle, pow_add 2 b shift]; ring
      _ = left * 2 ^ a + digit := by rw [← split, Nat.div_add_mod, Nat.div_add_mod]
  refine regrouped.push digit [_, _] _ shift ?_ ?_ (Nat.mod_lt _ (Nat.two_pow_pos shift)) ?_
  · rw [value_two, number]
  · simp only [List.length_cons, List.length_nil]
    omega
  · have bottom : digit / 2 ^ shift % 2 ^ b < 2 ^ b := Nat.mod_lt _ (Nat.two_pow_pos b)
    simp [top, bottom]

/-- The bits of the digits read, with so many zero bits after them. -/
structure Padded (a b : Nat) (input output : List Nat) (pad : Nat) : Prop where
  number : value (2 ^ b) output = value (2 ^ a) input * 2 ^ pad
  length : b * output.length = a * input.length + pad
  digits : ∀ digit ∈ output, digit < 2 ^ b

/-- Nothing is left over. -/
theorem Regrouped.whole (regrouped : Regrouped a b input output 0 0) :
    Padded a b input output 0 where
  number := by simpa using regrouped.number
  length := regrouped.length
  digits := regrouped.digits

/-- The bits left over fill one more digit, with zeros after them. -/
theorem Regrouped.fill (regrouped : Regrouped a b input output left bits) (pad : Nat)
    (whole : bits + pad = b) : Padded a b input (output ++ [left * 2 ^ pad]) pad where
  number := by
    rw [value_append, ← regrouped.number, ← whole, pow_add]
    ring
  length := by
    have before := regrouped.length
    rw [List.length_append, List.length_singleton, Nat.mul_add, Nat.mul_one]
    omega
  digits := by
    intro digit member
    rcases List.mem_append.mp member with old | new
    · exact regrouped.digits digit old
    · rw [List.mem_singleton.mp new, ← whole, pow_add]
      exact Nat.mul_lt_mul_of_pos_right regrouped.small (Nat.two_pow_pos pad)

/-- Read back without a rest, the digits read are the bits that were written, zeros after them. -/
theorem Regrouped.padded (regrouped : Regrouped a b input output 0 bits)
    (digits : ∀ digit ∈ input, digit < 2 ^ a) : Padded b a output input bits where
  number := by
    have number := regrouped.number
    rw [Nat.add_zero] at number
    exact number.symm
  length := regrouped.length.symm
  digits := digits

/-- The padded digits are determined by the digits. -/
theorem Padded.unique {input first second : List Nat} {pad pad' : Nat}
    (padded : Padded a b input first pad) (padded' : Padded a b input second pad')
    (positive : 0 < b) (low : pad < b) (low' : pad' < b) : first = second := by
  have length := padded.length
  have length' := padded'.length
  have lengths : first.length = second.length := by
    rcases Nat.lt_trichotomy first.length second.length with less | same | more
    · have bound := Nat.mul_le_mul_left b less
      rw [Nat.mul_succ] at bound
      omega
    · exact same
    · have bound := Nat.mul_le_mul_left b more
      rw [Nat.mul_succ] at bound
      omega
  rw [lengths] at length
  have pads : pad = pad' := by omega
  apply value_injective (2 ^ b) first second (Nat.one_lt_two_pow (by omega)) padded.digits
    padded'.digits lengths
  rw [padded.number, padded'.number, pads]

/-- What was padded is read back: the rest is the padding, and it is zero. -/
theorem Padded.read_back {bytes symbols : List Nat} {pad : Nat}
    (padded : Padded a b bytes symbols pad) (bounded : ∀ byte ∈ bytes, byte < 2 ^ a)
    (regrouped : Regrouped b a symbols output left bits) (positive : 0 < a) (low : pad < a)
    (short : bits < a) : output = bytes ∧ left = 0 ∧ bits = pad := by
  have length := padded.length
  have length' := regrouped.length
  have lengths : output.length = bytes.length := by
    rcases Nat.lt_trichotomy output.length bytes.length with less | same | more
    · have bound := Nat.mul_le_mul_left a less
      rw [Nat.mul_succ] at bound
      omega
    · exact same
    · have bound := Nat.mul_le_mul_left a more
      rw [Nat.mul_succ] at bound
      omega
  rw [lengths] at length'
  have pads : bits = pad := by omega
  subst pads
  have number := regrouped.number
  have small := regrouped.small
  rw [padded.number] at number
  have power := Nat.two_pow_pos bits
  have same : value (2 ^ a) output = value (2 ^ a) bytes := by
    have divided := congrArg (· / 2 ^ bits) number
    simpa [Nat.mul_comm _ (2 ^ bits), Nat.mul_add_div power, Nat.div_eq_of_lt small,
      Nat.mul_div_cancel_left _ power] using divided
  have rest : left = 0 := by
    rw [same] at number
    omega
  exact ⟨value_injective (2 ^ a) output bytes (Nat.one_lt_two_pow (by omega)) regrouped.digits
    bounded lengths same, rest, rfl⟩

end Regrouping
