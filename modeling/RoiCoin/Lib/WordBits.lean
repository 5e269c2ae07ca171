import Mathlib.Data.Nat.Digits.Lemmas
import Mathlib.Tactic.Ring

/-! Numbers kept in words of `w` bits, least significant first. -/

namespace WordBits

variable {w : Nat}

def value (words : List (BitVec w)) : Nat := Nat.ofDigits (2 ^ w) (words.map BitVec.toNat)

@[simp] theorem value_nil : value ([] : List (BitVec w)) = 0 := rfl

@[simp] theorem value_cons (word : BitVec w) (words : List (BitVec w)) :
    value (word :: words) = word.toNat + 2 ^ w * value words := Nat.ofDigits_cons

theorem value_append (low high : List (BitVec w)) :
    value (low ++ high) = value low + 2 ^ (w * low.length) * value high := by
  rw [value, List.map_append, Nat.ofDigits_append, List.length_map, ← Nat.pow_mul, value, value]

theorem value_lt (words : List (BitVec w)) : value words < 2 ^ (w * words.length) := by
  induction words with
  | nil => simp
  | cons word words ih =>
      have first := word.isLt
      calc
        value (word :: words) = word.toNat + 2 ^ w * value words := value_cons word words
        _ < 2 ^ w * (value words + 1) := by rw [Nat.mul_succ]; omega
        _ ≤ 2 ^ w * 2 ^ (w * words.length) := Nat.mul_le_mul_left _ ih
        _ = 2 ^ (w * (word :: words).length) := by
          rw [List.length_cons, Nat.mul_succ, Nat.pow_add, Nat.mul_comm]

/-- A bit of the value is a bit of the word it falls in. -/
theorem testBit_value (words : List (BitVec w)) (positive : 0 < w) (b : Nat) :
    (value words).testBit b = (words.getD (b / w) 0).toNat.testBit (b % w) := by
  induction words generalizing b with
  | nil => simp
  | cons word words ih =>
      rw [value_cons, Nat.add_comm, Nat.testBit_two_pow_mul_add _ word.isLt]
      by_cases inside : b < w
      · simp [inside, Nat.div_eq_of_lt inside, Nat.mod_eq_of_lt inside]
      · obtain ⟨rest, rfl⟩ : ∃ rest, b = rest + w := ⟨b - w, by omega⟩
        have outside : ¬ rest + w < w := inside
        rw [if_neg outside, Nat.add_sub_cancel, ih, Nat.add_div_right rest positive,
          Nat.add_mod_right]
        rfl

/-- Or-ing into one word sets the same bits of the value. -/
theorem value_modify (words : List (BitVec w)) (positive : 0 < w) (i : Nat) (bits : BitVec w)
    (inside : i < words.length) :
    value (words.modify i (· ||| bits)) = value words ||| bits.toNat * 2 ^ (w * i) := by
  apply Nat.eq_of_testBit_eq
  intro b
  rw [testBit_value _ positive, Nat.testBit_or, testBit_value _ positive,
    Nat.testBit_mul_two_pow, List.getD_eq_getElem?_getD, List.getElem?_modify,
    List.getD_eq_getElem?_getD]
  have position := Nat.div_add_mod b w
  have offset := Nat.mod_lt b positive
  by_cases here : i = b / w
  · subst here
    have reached : w * (b / w) ≤ b := by omega
    have inner : b - w * (b / w) = b % w := by omega
    simp [inside, reached, inner]
  · have elsewhere : (decide (w * i ≤ b) && bits.toNat.testBit (b - w * i)) = false := by
      by_cases later : w * i ≤ b
      · have counted : i ≤ b / w := by
          rw [Nat.le_div_iff_mul_le positive, Nat.mul_comm]
          exact later
        have far : w * (i + 1) ≤ w * (b / w) := Nat.mul_le_mul_left w (by omega)
        have high : 2 ^ w ≤ 2 ^ (b - w * i) :=
          Nat.pow_le_pow_right (by decide) (by rw [Nat.mul_succ] at far; omega)
        simp [Nat.testBit_lt_two_pow (Nat.lt_of_lt_of_le bits.isLt high)]
      · simp [later]
    simp [here, elsewhere]

/-- The words up to one position and the word there. -/
theorem value_before (words : List (BitVec w)) (positive : 0 < w) (m : Nat) :
    value words % 2 ^ (w * (m + 1)) =
      value words % 2 ^ (w * m) ||| (words.getD m 0).toNat * 2 ^ (w * m) := by
  apply Nat.eq_of_testBit_eq
  intro b
  rw [Nat.testBit_mod_two_pow, Nat.testBit_or, Nat.testBit_mod_two_pow, Nat.testBit_mul_two_pow,
    testBit_value _ positive]
  have position := Nat.div_add_mod b w
  have offset := Nat.mod_lt b positive
  have next : w * (m + 1) = w * m + w := Nat.mul_succ w m
  by_cases before : b < w * m
  · have inside : b < w * (m + 1) := by omega
    have outside : ¬ w * m ≤ b := by omega
    simp [before, inside, outside]
  · have reached : w * m ≤ b := by omega
    by_cases inside : b < w * (m + 1)
    · have here : b / w = m := Nat.div_eq_of_lt_le (by rw [Nat.mul_comm]; exact reached)
        (by rw [Nat.mul_comm]; exact inside)
      have inner : b - w * m = b % w := by subst here; omega
      simp [before, inside, reached, here, inner]
    · have high : 2 ^ w ≤ 2 ^ (b - w * m) := Nat.pow_le_pow_right (by decide) (by omega)
      have clear := Nat.testBit_lt_two_pow (Nat.lt_of_lt_of_le (words.getD m 0).isLt high)
      simp only [before, inside, clear, decide_false, Bool.false_and, Bool.and_false, Bool.or_self]

theorem value_before_add (words : List (BitVec w)) (positive : 0 < w) (m : Nat) :
    value words % 2 ^ (w * (m + 1)) =
      value words % 2 ^ (w * m) + (words.getD m 0).toNat * 2 ^ (w * m) := by
  have low : value words % 2 ^ (w * m) < 2 ^ (w * m) := Nat.mod_lt _ (Nat.two_pow_pos _)
  rw [value_before words positive, Nat.or_comm, Nat.mul_comm, ← Nat.two_pow_add_eq_or_of_lt low,
    Nat.add_comm]

/-- One word of a loop that carries: the low bits of `n` stay, the rest is passed on. -/
theorem value_carry (n rest count : Nat) (words : List (BitVec w))
    (carried : value words = (n / 2 ^ w + rest) % 2 ^ (w * count)) :
    value (BitVec.ofNat w n :: words) = (n + 2 ^ w * rest) % 2 ^ (w * (count + 1)) := by
  have quotient : (n + 2 ^ w * rest) / 2 ^ w = n / 2 ^ w + rest :=
    Nat.add_mul_div_left _ _ (Nat.two_pow_pos w)
  rw [value_cons, BitVec.toNat_ofNat, carried, Nat.mul_succ, Nat.add_comm (w * count),
    Nat.pow_add, Nat.mod_mul, Nat.add_mul_mod_self_left, quotient]

/-- A change of the words from position `j` on. -/
theorem value_suffix (low high : List (BitVec w)) (rest count : Nat)
    (changed : value high = rest % 2 ^ (w * count)) :
    value (low ++ high) =
      (value low + 2 ^ (w * low.length) * rest) % 2 ^ (w * (low.length + count)) := by
  have small := value_lt low
  have quotient : (value low + 2 ^ (w * low.length) * rest) / 2 ^ (w * low.length) = rest := by
    rw [Nat.add_mul_div_left _ _ (Nat.two_pow_pos _), Nat.div_eq_of_lt small, Nat.zero_add]
  rw [value_append, changed, Nat.mul_add, Nat.pow_add, Nat.mod_mul, Nat.add_mul_mod_self_left,
    Nat.mod_eq_of_lt small, quotient]

/-- The complement of every word is the complement of the number. -/
theorem value_complement (words : List (BitVec w)) :
    value (words.map (~~~ ·)) + value words + 1 = 2 ^ (w * words.length) := by
  induction words with
  | nil => simp
  | cons word words ih =>
      have first := word.isLt
      have flipped : (~~~word).toNat = 2 ^ w - 1 - word.toNat := BitVec.toNat_not
      have rest : 2 ^ w * value (words.map (~~~ ·)) + 2 ^ w * value words + 2 ^ w =
          2 ^ (w * (words.length + 1)) := by
        rw [Nat.mul_succ, Nat.pow_add, ← ih]
        ring
      rw [List.map_cons, value_cons, value_cons, flipped, List.length_cons]
      omega

end WordBits
