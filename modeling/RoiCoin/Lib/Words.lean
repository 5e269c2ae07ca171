import Mathlib.Data.Nat.Digits.Lemmas
import Mathlib.Tactic.Ring

/-! Little-endian word vectors: a fixed number of digits in `base`, multiplied in
place by one word with the carry of the last position dropped. -/

namespace RoiCoin.Words

/-- The schoolbook loop: each position holds `carry + b * digit`, computed in an
accumulator of `wide` values, and passes the quotient by `base` on. -/
def mulWord (base wide b : Nat) : Nat → List Nat → List Nat
  | _, [] => []
  | carry, digit :: digits =>
      let n := (carry + b * digit) % wide
      n % base :: mulWord base wide b (n / base) digits

/-- The `count` low digits of a value. -/
def words (base : Nat) : Nat → Nat → List Nat
  | 0, _ => []
  | count + 1, value => value % base :: words base count (value / base)

@[simp] theorem words_length (base count value : Nat) : (words base count value).length = count := by
  induction count generalizing value with
  | zero => rfl
  | succ count ih => simp [words, ih]

theorem words_lt (base count value : Nat) (positive : 0 < base) :
    ∀ digit ∈ words base count value, digit < base := by
  induction count generalizing value with
  | zero => intro digit member; cases member
  | succ count ih =>
      intro digit member
      rcases List.mem_cons.mp member with rfl | later
      · exact Nat.mod_lt _ positive
      · exact ih _ digit later

theorem words_value (base count value : Nat) :
    Nat.ofDigits base (words base count value) = value % base ^ count := by
  induction count generalizing value with
  | zero => simp [words, Nat.mod_one]
  | succ count ih =>
      rw [words, Nat.ofDigits_cons, ih, Nat.pow_succ', Nat.mod_mul]

/-- One position never overflows the accumulator. -/
theorem accumulator_fits (base wide b carry digit : Nat) (wideEnough : base * base ≤ wide)
    (factor : b < base) (carried : carry < base) (small : digit < base) :
    carry + b * digit < wide ∧ (carry + b * digit) / base < base := by
  have product : b * digit ≤ (base - 1) * (base - 1) :=
    Nat.mul_le_mul (by omega) (by omega)
  obtain ⟨top, rfl⟩ : ∃ top, base = top + 1 := ⟨base - 1, by omega⟩
  have bound : carry + b * digit < (top + 1) * (top + 1) := by
    calc
      carry + b * digit ≤ top + top * top := by simp only [Nat.add_sub_cancel] at product; omega
      _ < (top + 1) * (top + 1) := by ring_nf; omega
  exact ⟨by omega, Nat.div_lt_of_lt_mul bound⟩

theorem mulWord_value (base wide b : Nat) (wideEnough : base * base ≤ wide) (factor : b < base)
    (digits : List Nat) (small : ∀ digit ∈ digits, digit < base) (carry : Nat)
    (carried : carry < base) :
    Nat.ofDigits base (mulWord base wide b carry digits) =
      (carry + b * Nat.ofDigits base digits) % base ^ digits.length := by
  induction digits generalizing carry with
  | nil => simp [mulWord, Nat.mod_one]
  | cons digit digits ih =>
      have fits := accumulator_fits base wide b carry digit wideEnough factor carried
        (small digit (by simp))
      have rest := ih (fun next member => small next (List.mem_cons_of_mem _ member)) _ fits.2
      have total : carry + b * Nat.ofDigits base (digit :: digits) =
          carry + b * digit + base * (b * Nat.ofDigits base digits) := by
        rw [Nat.ofDigits_cons]
        ring
      have quotient : (carry + b * digit + base * (b * Nat.ofDigits base digits)) / base =
          (carry + b * digit) / base + b * Nat.ofDigits base digits :=
        Nat.add_mul_div_left _ _ (by omega)
      rw [total, List.length_cons, Nat.pow_succ', Nat.mod_mul, Nat.add_mul_mod_self_left, quotient,
        ← rest]
      simp only [mulWord, Nat.mod_eq_of_lt fits.1, Nat.ofDigits_cons]

end RoiCoin.Words
