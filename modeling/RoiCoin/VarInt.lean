import RoiCoin.Serialize

/-! The variable-length integers are one-to-one (`GetSizeOfVarInt`, `WriteVarInt`, `ReadVarInt`). -/

namespace RoiCoin

open Codec

def getSizeOfVarInt (n : Nat) : Nat :=
  if n ≤ 0x7f then 1 else getSizeOfVarInt (n / 128 - 1) + 1
termination_by n
decreasing_by omega

/-- What `ReadVarInt` makes of bytes where nothing overflows. -/
def varIntValue (n : Nat) : Bytes → Nat
  | [] => n
  | chData :: rest =>
      varIntValue (n * 128 + chData.toNat % 128 + if chData ≥ 0x80 then 1 else 0) rest

/-- The last byte alone has the high bit clear. -/
def Terminated (bytes : Bytes) : Prop :=
  ∃ front last, bytes = front ++ [last] ∧ (∀ byte ∈ front, byte ≥ 0x80) ∧ ¬ last ≥ 0x80

/-! ## The encoding -/

theorem writeVarInt_loop_size (fuel : Nat) (more : Bool) (n : Nat) (enough : n < 128 ^ (fuel + 1)) :
    (writeVarIntLoop fuel more n).length = getSizeOfVarInt n := by
  induction fuel generalizing more n with
  | zero =>
      rw [writeVarIntLoop, getSizeOfVarInt, if_pos (by omega)]
      rfl
  | succ fuel ih =>
      rw [writeVarIntLoop, getSizeOfVarInt]
      split
      · rfl
      · have shorter : n / 128 - 1 < 128 ^ (fuel + 1) := by
          rw [Nat.pow_succ] at enough
          omega
        rw [List.length_append, ih true _ shorter, List.length_singleton]

theorem fuel_enough (bits n : Nat) (fits : n < 2 ^ bits) : n < 128 ^ ((bits + 6) / 7) := by
  calc
    n < 2 ^ bits := fits
    _ ≤ 2 ^ (7 * ((bits + 6) / 7)) := Nat.pow_le_pow_right (by decide) (by omega)
    _ = 128 ^ ((bits + 6) / 7) := by rw [Nat.pow_mul]

theorem writeVarInt_size (bits n : Nat) (fits : n < 2 ^ bits) :
    (writeVarInt bits n).length = getSizeOfVarInt n := by
  apply writeVarInt_loop_size
  calc
    n < 128 ^ ((bits + 6) / 7) := fuel_enough bits n fits
    _ ≤ 128 ^ ((bits + 6) / 7 + 1) := Nat.pow_le_pow_right (by decide) (Nat.le_succ _)

/-- The bytes fit into `tmp`. -/
theorem getSizeOfVarInt_le (n k : Nat) (positive : 1 ≤ k) (small : n < 128 ^ k) :
    getSizeOfVarInt n ≤ k := by
  induction k generalizing n with
  | zero => omega
  | succ k ih =>
      rw [getSizeOfVarInt]
      split
      · omega
      · have some : 1 ≤ k := by
          by_contra none
          have zero : k = 0 := by omega
          rw [zero] at small
          omega
        have shorter : n / 128 - 1 < 128 ^ k := by
          rw [Nat.pow_succ] at small
          omega
        have rest := ih (n / 128 - 1) some shorter
        omega

theorem writeVarInt_leading (fuel n : Nat) :
    ∀ byte ∈ writeVarIntLoop fuel true n, byte ≥ 0x80 := by
  induction fuel generalizing n with
  | zero =>
      intro byte member
      rw [List.mem_singleton.mp member, varIntByte_high]
  | succ fuel ih =>
      intro byte member
      rw [writeVarIntLoop] at member
      split at member
      · rw [List.mem_singleton.mp member, varIntByte_high]
      · rcases List.mem_append.mp member with leading | last
        · exact ih _ byte leading
        · rw [List.mem_singleton.mp last, varIntByte_high]

theorem writeVarInt_terminated (bits n : Nat) : Terminated (writeVarInt bits n) := by
  have last : ¬ varIntByte false n ≥ 0x80 := by
    rw [varIntByte_high]
    exact Bool.false_ne_true
  rw [writeVarInt]
  cases (bits + 6) / 7 with
  | zero => exact ⟨[], _, rfl, by simp, last⟩
  | succ fuel =>
      rw [writeVarIntLoop]
      split
      · exact ⟨[], _, rfl, by simp, last⟩
      · exact ⟨_, _, rfl, writeVarInt_leading fuel _, last⟩

/-! ## Any terminated bytes -/

theorem varIntValue_append (n : Nat) (front back : Bytes) :
    varIntValue n (front ++ back) = varIntValue (varIntValue n front) back := by
  induction front generalizing n with
  | nil => rfl
  | cons byte front ih => exact ih _

theorem varIntByte_of (more : Bool) (n : Nat) (byte : UInt8) (low : byte.toNat % 128 = n % 128)
    (high : byte ≥ 0x80 ↔ more = true) : varIntByte more n = byte := by
  apply UInt8.toNat_inj.mp
  have small := byte.toNat_lt
  have own := varIntByte_low more n
  have other := (varIntByte more n).toNat_lt
  have flag := varIntByte_high more n
  rw [← high, ge_iff_le, ge_iff_le, UInt8.le_iff_toNat_le, UInt8.le_iff_toNat_le] at flag
  have bound : (0x80 : UInt8).toNat = 128 := rfl
  omega

theorem leading_value (front : Bytes) (byte : UInt8) (top : byte ≥ 0x80) :
    varIntValue 0 (front ++ [byte]) = varIntValue 0 front * 128 + byte.toNat % 128 + 1 := by
  rw [varIntValue_append, varIntValue, varIntValue, if_pos top]

theorem leading_positive (front : Bytes) (some : front ≠ [])
    (high : ∀ byte ∈ front, byte ≥ 0x80) : 1 ≤ varIntValue 0 front := by
  have split := List.dropLast_append_getLast some
  have top := high _ (List.getLast_mem some)
  rw [← split, leading_value _ _ top]
  exact Nat.le_add_left _ _

/-- Leading bytes are the encoding of what they stand for less one. -/
theorem leading_written (fuel : Nat) (front : Bytes) (some : front ≠ [])
    (high : ∀ byte ∈ front, byte ≥ 0x80) (enough : varIntValue 0 front ≤ 128 ^ (fuel + 1)) :
    writeVarIntLoop fuel true (varIntValue 0 front - 1) = front := by
  induction front using List.reverseRecOn generalizing fuel with
  | nil => exact absurd rfl some
  | append_singleton front byte ih =>
      have top : byte ≥ 0x80 := high byte (by simp)
      have leading : ∀ other ∈ front, other ≥ 0x80 := fun other member => high other (by simp [member])
      have last : ∀ v, varIntByte true (v * 128 + byte.toNat % 128) = byte :=
        fun v => varIntByte_of true _ byte (by omega) (iff_of_true top rfl)
      rw [leading_value front byte top] at enough ⊢
      rw [Nat.add_sub_cancel]
      by_cases alone : front = []
      · have none : varIntValue 0 front = 0 := by rw [alone, varIntValue]
        have single := last 0
        rw [Nat.zero_mul, Nat.zero_add] at single
        rw [none, Nat.zero_mul, Nat.zero_add, alone, List.nil_append]
        cases fuel with
        | zero => rw [writeVarIntLoop, single]
        | succ fuel => rw [writeVarIntLoop, if_pos (by omega), single]
      · have positive := leading_positive front alone leading
        cases fuel with
        | zero => omega
        | succ fuel =>
            rw [Nat.pow_succ] at enough
            have quotient : (varIntValue 0 front * 128 + byte.toNat % 128) / 128 - 1 =
                varIntValue 0 front - 1 := by omega
            rw [writeVarIntLoop, if_neg (by omega), quotient, ih fuel alone leading (by omega), last]

/-- Bytes of which the last alone has the high bit clear are the encoding of what they stand for. -/
theorem terminated_written (bits : Nat) (bytes : Bytes) (terminated : Terminated bytes)
    (fits : varIntValue 0 bytes < 2 ^ bits) : writeVarInt bits (varIntValue 0 bytes) = bytes := by
  obtain ⟨front, last, rfl, high, low⟩ := terminated
  have enough := fuel_enough bits _ fits
  have value : varIntValue 0 (front ++ [last]) = varIntValue 0 front * 128 + last.toNat % 128 := by
    rw [varIntValue_append, varIntValue, varIntValue, if_neg low, Nat.add_zero]
  have byte : ∀ v, varIntByte false (v * 128 + last.toNat % 128) = last :=
    fun v => varIntByte_of false _ last (by omega) (iff_of_false low Bool.false_ne_true)
  rw [value] at enough ⊢
  rw [writeVarInt]
  by_cases alone : front = []
  · have none : varIntValue 0 front = 0 := by rw [alone, varIntValue]
    have single := byte 0
    rw [Nat.zero_mul, Nat.zero_add] at single
    rw [none, Nat.zero_mul, Nat.zero_add, alone, List.nil_append]
    cases (bits + 6) / 7 with
    | zero => rw [writeVarIntLoop, single]
    | succ fuel => rw [writeVarIntLoop, if_pos (by omega), single]
  · have positive := leading_positive front alone high
    cases size : (bits + 6) / 7 with
    | zero =>
        rw [size] at enough
        omega
    | succ fuel =>
        rw [size, Nat.pow_succ] at enough
        have written := leading_written fuel front alone high (by rw [Nat.pow_succ]; omega)
        have quotient : (varIntValue 0 front * 128 + last.toNat % 128) / 128 - 1 =
            varIntValue 0 front - 1 := by omega
        rw [writeVarIntLoop, if_neg (by omega), quotient, written, byte]

/-- Every number of the width reads back from its encoding, which fits into the buffer and is as
long as its computed size; two numbers have two encodings; and whatever terminated bytes decode to,
without overflow, has them for its encoding. -/
theorem varInt_one_to_one (bits : Nat) (positive : 1 ≤ bits) :
    (∀ n < 2 ^ bits, ∀ tail, (readVarInt bits).run (writeVarInt bits n ++ tail) = some (n, tail)) ∧
      (∀ n < 2 ^ bits, getSizeOfVarInt n = (writeVarInt bits n).length ∧
        (writeVarInt bits n).length ≤ (bits + 6) / 7 ∧ Terminated (writeVarInt bits n)) ∧
      (∀ m < 2 ^ bits, ∀ n < 2 ^ bits, writeVarInt bits m = writeVarInt bits n → m = n) ∧
      ∀ bytes tail, Terminated bytes → varIntValue 0 bytes < 2 ^ bits →
        (readVarInt bits).run (bytes ++ tail) = some (varIntValue 0 bytes, tail) ∧
          writeVarInt bits (varIntValue 0 bytes) = bytes := by
  have reads : ∀ n < 2 ^ bits, ∀ tail,
      (readVarInt bits).run (writeVarInt bits n ++ tail) = some (n, tail) :=
    fun n fits tail => reads_varInt bits n fits tail
  refine ⟨reads, ?_, ?_, ?_⟩
  · intro n fits
    have size := writeVarInt_size bits n fits
    refine ⟨size.symm, ?_, writeVarInt_terminated bits n⟩
    rw [size]
    exact getSizeOfVarInt_le n _ (by omega) (fuel_enough bits n fits)
  · intro m first n second same
    have left := reads m first []
    rw [same, reads n second [], Option.some.injEq, Prod.mk.injEq] at left
    exact left.1.symm
  · intro bytes tail terminated fits
    have written := terminated_written bits bytes terminated fits
    refine ⟨?_, written⟩
    have back := reads _ fits tail
    rwa [written] at back

/-- Two bytes of an `unsigned char`, and the largest of a 64-bit integer. -/
theorem varInt_one_to_one_byte :
    1 ≤ 8 ∧ (readVarInt 8).run (writeVarInt 8 255 ++ [9]) = some (255, [9]) ∧
      (writeVarInt 64 18446744073709551615).length ≤ 10 :=
  ⟨by decide, (varInt_one_to_one 8 (by decide)).1 255 (by decide) [9],
    ((varInt_one_to_one 64 (by decide)).2.1 18446744073709551615 (by decide)).2.1⟩

end RoiCoin
