import Mathlib.Tactic.Ring
import Mathlib.Tactic.Linarith

/-! Big-endian integers in two's complement, and which byte strings are the shortest for their
value. -/

namespace BigEndian

def unsigned : List UInt8 → Nat
  | [] => 0
  | byte :: rest => byte.toNat * 256 ^ rest.length + unsigned rest

/-- The first byte carries the sign. -/
def signed : List UInt8 → Int
  | [] => 0
  | byte :: rest =>
      (if byte.toNat < 128 then (byte.toNat : Int) else byte.toNat - 256) * 256 ^ rest.length +
        unsigned rest

/-- At least one byte, and no fewer bytes have the same value. -/
structure Shortest (bytes : List UInt8) : Prop where
  nonempty : bytes ≠ []
  least : ∀ other, other ≠ [] → signed other = signed bytes → bytes.length ≤ other.length

/-- A zero byte before a byte that could carry the sign itself. -/
def padded : List UInt8 → Bool
  | first :: next :: _ => first.toNat == 0 && decide (next.toNat < 128)
  | _ => false

theorem unsigned_lt (bytes : List UInt8) : unsigned bytes < 256 ^ bytes.length := by
  induction bytes with
  | nil => simp [unsigned]
  | cons byte rest ih =>
      have small : byte.toNat + 1 ≤ 256 := byte.toNat_lt
      calc unsigned (byte :: rest)
          < byte.toNat * 256 ^ rest.length + 256 ^ rest.length := by
            rw [unsigned]
            omega
        _ = (byte.toNat + 1) * 256 ^ rest.length := by ring
        _ ≤ 256 * 256 ^ rest.length := Nat.mul_le_mul_right _ small
        _ = 256 ^ (byte :: rest).length := by
            rw [List.length_cons]
            ring

/-- Without a sign bit the value is the unsigned one. -/
theorem signed_plain (byte : UInt8) (rest : List UInt8) (plain : byte.toNat < 128) :
    signed (byte :: rest) = unsigned (byte :: rest) := by
  simp [signed, unsigned, plain]

theorem signed_nonneg_iff (byte : UInt8) (rest : List UInt8) :
    0 ≤ signed (byte :: rest) ↔ byte.toNat < 128 := by
  constructor
  · intro nonneg
    by_contra negative
    have small : byte.toNat < 256 := byte.toNat_lt
    have lower : (unsigned rest : Int) < 256 ^ rest.length := by exact_mod_cast unsigned_lt rest
    have factor : ((byte.toNat : Int) - 256) * 256 ^ rest.length ≤ -1 * 256 ^ rest.length :=
      mul_le_mul_of_nonneg_right (by omega) (by positivity)
    rw [signed, if_neg negative] at nonneg
    linarith
  · intro plain
    rw [signed_plain byte rest plain]
    exact Int.natCast_nonneg _

/-- A value that is not negative leaves the sign bit free. -/
theorem signed_lt (bytes : List UInt8) (nonempty : bytes ≠ []) (nonneg : 0 ≤ signed bytes) :
    2 * signed bytes < 256 ^ bytes.length := by
  cases bytes with
  | nil => exact absurd rfl nonempty
  | cons byte rest =>
      have plain := (signed_nonneg_iff byte rest).mp nonneg
      have lower : unsigned rest < 256 ^ rest.length := unsigned_lt rest
      have double : 2 * unsigned (byte :: rest) < 256 ^ (byte :: rest).length := by
        calc 2 * unsigned (byte :: rest)
            < 2 * (byte.toNat * 256 ^ rest.length + 256 ^ rest.length) := by
              rw [unsigned]
              omega
          _ = 2 * (byte.toNat + 1) * 256 ^ rest.length := by ring
          _ ≤ 256 * 256 ^ rest.length := Nat.mul_le_mul_right _ (by omega)
          _ = 256 ^ (byte :: rest).length := by
              rw [List.length_cons]
              ring
      rw [signed_plain byte rest plain]
      exact_mod_cast double

/-- Without padding the value needs its length. -/
theorem unsigned_large (byte : UInt8) (rest : List UInt8) (unpadded : padded (byte :: rest) = false)
    (plain : byte.toNat < 128) (long : rest ≠ []) :
    256 ^ rest.length ≤ 2 * unsigned (byte :: rest) := by
  cases rest with
  | nil => exact absurd rfl long
  | cons next tail =>
      by_cases zero : byte.toNat = 0
      · have high : 128 ≤ next.toNat := by simpa [padded, zero] using unpadded
        calc 256 ^ (next :: tail).length
            = 2 * (128 * 256 ^ tail.length) := by
              rw [List.length_cons]
              ring
          _ ≤ 2 * (next.toNat * 256 ^ tail.length) :=
              Nat.mul_le_mul_left 2 (Nat.mul_le_mul_right _ high)
          _ ≤ 2 * unsigned (byte :: next :: tail) := by
              simp only [unsigned, zero]
              omega
      · have whole : 1 * 256 ^ (next :: tail).length ≤
            byte.toNat * 256 ^ (next :: tail).length :=
          Nat.mul_le_mul_right _ (by omega)
        rw [unsigned]
        omega

/-- For a value that is not negative, the shortest form is the one without padding. -/
theorem shortest_iff (byte : UInt8) (rest : List UInt8) (plain : byte.toNat < 128) :
    Shortest (byte :: rest) ↔ padded (byte :: rest) = false := by
  constructor
  · intro shortest
    by_contra redundant
    cases rest with
    | nil => simp [padded] at redundant
    | cons next tail =>
        have both : byte.toNat = 0 ∧ next.toNat < 128 := by simpa [padded] using redundant
        have same : signed (next :: tail) = signed (byte :: next :: tail) := by
          rw [signed_plain next tail both.2, signed_plain byte _ plain,
            unsigned.eq_2 byte (next :: tail), both.1]
          simp
        have fewer := shortest.least (next :: tail) (by simp) same
        simp at fewer
  · intro unpadded
    refine ⟨by simp, ?_⟩
    intro other nonempty same
    by_contra fewer
    have nonneg : 0 ≤ signed other := by
      rw [same]
      exact (signed_nonneg_iff byte rest).mpr plain
    have bound := signed_lt other nonempty nonneg
    have few := List.length_pos_iff.mpr nonempty
    rw [List.length_cons] at fewer
    have large := unsigned_large byte rest unpadded plain (List.length_pos_iff.mp (by omega))
    have power : 256 ^ other.length ≤ 256 ^ rest.length :=
      Nat.pow_le_pow_right (by omega) (by omega)
    rw [same, signed_plain byte rest plain] at bound
    have bound' : 2 * unsigned (byte :: rest) < 256 ^ other.length := by exact_mod_cast bound
    omega

end BigEndian
