import RoiCoin.Script.Pushes

/-! The byte strings of positive script numbers: minimal, and as short as the sign bit allows. -/

namespace RoiCoin

theorem top_bit_clear (byte : UInt8) : byte &&& 0x80 = 0 ↔ byte.toNat < 128 := by
  have all : ∀ n : Fin 256, UInt8.ofFin n &&& 0x80 = 0 ↔ n.val < 128 := by decide +kernel
  exact all byte.toFin

theorem low_bits_clear (byte : UInt8) (low : byte.toNat < 128) :
    byte &&& 0x7f = 0 ↔ byte = 0 := by
  have all : ∀ n : Fin 256, n.val < 128 →
      (UInt8.ofFin n &&& 0x7f = 0 ↔ UInt8.ofFin n = 0) := by decide +kernel
  exact all byte.toFin low

/-- The bytes of a positive number, the most significant one last. -/
theorem digits_last (n : Nat) (positive : 0 < n) :
    ∃ (front : List Nat) (digit : Nat), Nat.digits 256 n = front ++ [digit] ∧ 0 < digit ∧
      digit < 256 ∧ digit * 256 ^ front.length ≤ n := by
  have nonempty : Nat.digits 256 n ≠ [] := Nat.digits_ne_nil_iff_ne_zero.mpr (by omega)
  have split := List.dropLast_append_getLast nonempty
  refine ⟨(Nat.digits 256 n).dropLast, (Nat.digits 256 n).getLast nonempty, split.symm, ?_, ?_, ?_⟩
  · exact Nat.pos_of_ne_zero (Nat.getLast_digit_ne_zero 256 (by omega))
  · exact Nat.digits_lt_base (by decide) (List.getLast_mem nonempty)
  · have value := Nat.ofDigits_digits 256 n
    rw [← split, Nat.ofDigits_append, Nat.ofDigits_singleton, Nat.mul_comm] at value
    omega

/-- A byte of zero follows where the most significant byte would be read as negative. -/
theorem serialize_positive (n : Nat) (front : List Nat) (digit : Nat)
    (digits : Nat.digits 256 n = front ++ [digit]) (small : digit < 256) :
    scriptNumSerialize n =
      front.map UInt8.ofNat ++ (if digit < 128 then [UInt8.ofNat digit]
        else [UInt8.ofNat digit, 0]) := by
  have byte : (UInt8.ofNat digit).toNat = digit := UInt8.toNat_ofNat_of_lt' small
  have nonneg : ¬ (n : Int) < 0 := by omega
  have top := top_bit_clear (UInt8.ofNat digit)
  rw [byte] at top
  rw [scriptNumSerialize, Int.natAbs_natCast, digits, List.map_append, List.map_singleton]
  simp only [List.getLast?_concat, if_neg nonneg, bne_iff_ne, ne_eq, top]
  by_cases low : digit < 128
  · simp [low]
  · simp [low]

theorem serialize_minimal (n : Nat) (positive : 0 < n) :
    minimallyEncoded (scriptNumSerialize n) = true := by
  obtain ⟨front, digit, digits, some, small, _⟩ := digits_last n positive
  have byte : (UInt8.ofNat digit).toNat = digit := UInt8.toNat_ofNat_of_lt' small
  rw [serialize_positive n front digit digits small]
  by_cases low : digit < 128
  · have nonzero : ¬ UInt8.ofNat digit &&& 0x7f = 0 := by
      rw [low_bits_clear _ (by rw [byte]; exact low)]
      intro zero
      rw [zero] at byte
      have none : (0 : UInt8).toNat = 0 := rfl
      omega
    rw [if_pos low, minimallyEncoded, List.reverse_concat]
    cases (front.map UInt8.ofNat).reverse with
    | nil => simpa using nonzero
    | cons second rest => simp [nonzero]
  · have high : ¬ UInt8.ofNat digit &&& 0x80 = 0 := by
      rw [top_bit_clear, byte]
      exact low
    rw [if_neg low, minimallyEncoded]
    simp [high]

/-- Below `128 * 256 ^ k` the sign bit fits into `k + 1` bytes. -/
theorem serialize_length_signed (n k : Nat) (positive : 0 < n) (bound : n < 128 * 256 ^ k) :
    1 ≤ (scriptNumSerialize n).length ∧ (scriptNumSerialize n).length ≤ k + 1 := by
  obtain ⟨front, digit, digits, some, small, lower⟩ := digits_last n positive
  rw [serialize_positive n front digit digits small]
  by_cases low : digit < 128
  · have power : 256 ^ front.length < 256 ^ (k + 1) := by
      calc 256 ^ front.length
          = 1 * 256 ^ front.length := (Nat.one_mul _).symm
        _ ≤ digit * 256 ^ front.length := Nat.mul_le_mul_right _ some
        _ ≤ n := lower
        _ < 128 * 256 ^ k := bound
        _ ≤ 256 * 256 ^ k := Nat.mul_le_mul_right _ (by decide)
        _ = 256 ^ (k + 1) := by rw [Nat.pow_succ, Nat.mul_comm]
    have length := (Nat.pow_lt_pow_iff_right (by decide)).mp power
    simp [low]
    omega
  · have power : 256 ^ front.length < 256 ^ k := by
      have times : 128 * 256 ^ front.length < 128 * 256 ^ k := by
        calc 128 * 256 ^ front.length
            ≤ digit * 256 ^ front.length := Nat.mul_le_mul_right _ (by omega)
          _ ≤ n := lower
          _ < 128 * 256 ^ k := bound
      exact Nat.lt_of_mul_lt_mul_left times
    have length := (Nat.pow_lt_pow_iff_right (by decide)).mp power
    simp [low]
    omega

end RoiCoin
