import RoiCoin.Lib.Codec
import RoiCoin.Lib.Words
import RoiCoin.Script.Script

/-! Serialization of integers and vectors (`serialize.h`).

Reading fails with `none` where the source throws. -/

namespace RoiCoin

open Codec

def maxSize : Nat := 0x02000000

/-! ## Fixed width -/

/-- The low `count` bytes, the least significant first. -/
def writeLE (count value : Nat) : Bytes := (Words.words 256 count value).map UInt8.ofNat

def readFixed (count : Nat) : Reader Nat := do
  let bytes ← take count
  return readLE bytes

/-! ## Variable-length integers

`bits` is the width of the type; the buffer of `WriteVarInt` has `(bits + 6) / 7` bytes. -/

/-- One byte of a variable-length integer; all but the last have the high bit. -/
def varIntByte (more : Bool) (n : Nat) : UInt8 := UInt8.ofNat (n % 128 + if more then 128 else 0)

/-- The loop of `WriteVarInt` with the bytes already in the order in which they are written. -/
def writeVarIntLoop : Nat → Bool → Nat → Bytes
  | 0, more, n => [varIntByte more n]
  | fuel + 1, more, n =>
      if n ≤ 0x7f then [varIntByte more n]
      else writeVarIntLoop fuel true (n / 128 - 1) ++ [varIntByte more n]

def writeVarInt (bits n : Nat) : Bytes := writeVarIntLoop ((bits + 6) / 7) false n

/-- `WriteVarInt` of an `int`: a negative number passes the test for a single byte. -/
def writeVarIntSigned (n : Int) : Bytes :=
  if n < 0 then [varIntByte false (n % 128).toNat] else writeVarInt 32 n.toNat

/-- The loop of `ReadVarInt` from the value so far. -/
def readVarIntFrom (bits n : Nat) : Bytes → Option (Nat × Bytes)
  | [] => none
  | chData :: rest =>
      let n := (n * 128 + chData.toNat % 128) % 2 ^ bits
      if chData ≥ 0x80 then readVarIntFrom bits ((n + 1) % 2 ^ bits) rest else some (n, rest)

def readVarInt (bits : Nat) : Reader Nat := readVarIntFrom bits 0

/-! ## Sizes and vectors -/

def writeCompactSize (nSize : Nat) : Bytes :=
  if nSize < 253 then [UInt8.ofNat nSize]
  else if nSize ≤ 0xffff then 253 :: writeLE 2 nSize
  else if nSize ≤ 0xffffffff then 254 :: writeLE 4 nSize
  else 255 :: writeLE 8 nSize

/-- The value after the first byte, which is refused below `least`. -/
def readLongSize (count least : Nat) : Reader Nat := do
  let nSizeRet ← readFixed count
  check (least ≤ nSizeRet)
  return nSizeRet

def readSizeAfter (chSize : UInt8) : Reader Nat :=
  if chSize < 253 then pure chSize.toNat
  else if chSize = 253 then readLongSize 2 253
  else if chSize = 254 then readLongSize 4 0x10000
  else readLongSize 8 0x100000000

def readCompactSize : Reader Nat := do
  let chSize ← readByte
  let nSizeRet ← readSizeAfter chSize
  check (nSizeRet ≤ maxSize)
  return nSizeRet

def writeVector {α : Type} (write : α → Bytes) (v : List α) : Bytes :=
  writeCompactSize v.length ++ v.flatMap write

def readVector {α : Type} (read : Reader α) : Reader (List α) := do
  let nSize ← readCompactSize
  many read nSize

/-! ## Reading back what was written -/

theorem writeLE_length (count value : Nat) : (writeLE count value).length = count := by
  rw [writeLE, List.length_map, Words.words_length]

theorem readLE_writeLE (count value : Nat) : readLE (writeLE count value) = value % 256 ^ count := by
  have bytes : (writeLE count value).map UInt8.toNat = Words.words 256 count value := by
    rw [writeLE, List.map_map]
    apply List.map_congr_left ?_ |>.trans (List.map_id _)
    intro digit member
    have small := Words.words_lt 256 count value (by decide) digit member
    exact Nat.mod_eq_of_lt small
  rw [readLE, bytes, Words.words_value]

theorem reads_fixed (count value : Nat) (fits : value < 256 ^ count) :
    Reads (readFixed count) (writeLE count value) value := by
  have whole := reads_return (take count) readLE _ _
    (reads_take (writeLE count value) count (writeLE_length count value))
  rwa [readLE_writeLE, Nat.mod_eq_of_lt fits] at whole

theorem varIntByte_low (more : Bool) (n : Nat) : (varIntByte more n).toNat % 128 = n % 128 := by
  cases more <;> simp [varIntByte]

theorem varIntByte_high (more : Bool) (n : Nat) : varIntByte more n ≥ 0x80 ↔ more = true := by
  rw [ge_iff_le, UInt8.le_iff_toNat_le]
  cases more <;> simp [varIntByte] <;> omega

/-- Reading goes on after the leading bytes with the value they stand for. -/
theorem readVarInt_leading (bits fuel m : Nat) (rest : Bytes) (enough : m < 128 ^ (fuel + 1))
    (fits : m + 1 < 2 ^ bits) :
    readVarIntFrom bits 0 (writeVarIntLoop fuel true m ++ rest) =
      readVarIntFrom bits (m + 1) rest := by
  induction fuel generalizing m rest with
  | zero =>
      have small : m % 128 = m := Nat.mod_eq_of_lt enough
      rw [writeVarIntLoop, List.singleton_append, readVarIntFrom]
      simp only [varIntByte_low, small, (varIntByte_high true m).mpr, if_true, Nat.zero_mul,
        Nat.zero_add]
      rw [Nat.mod_eq_of_lt (by omega : m < 2 ^ bits), Nat.mod_eq_of_lt fits]
  | succ fuel ih =>
      rw [writeVarIntLoop]
      split
      · have small : m % 128 = m := Nat.mod_eq_of_lt (by omega)
        rw [List.singleton_append, readVarIntFrom]
        simp only [varIntByte_low, small, (varIntByte_high true m).mpr, if_true, Nat.zero_mul,
          Nat.zero_add]
        rw [Nat.mod_eq_of_lt (by omega : m < 2 ^ bits), Nat.mod_eq_of_lt fits]
      · have shorter : m / 128 - 1 < 128 ^ (fuel + 1) := by
          rw [Nat.pow_succ] at enough
          omega
        rw [List.append_assoc, ih (m / 128 - 1) _ shorter (by omega), List.singleton_append,
          readVarIntFrom]
        have value : (m / 128 - 1 + 1) * 128 + m % 128 = m := by omega
        simp only [varIntByte_low, (varIntByte_high true m).mpr, if_true, value]
        rw [Nat.mod_eq_of_lt (by omega : m < 2 ^ bits), Nat.mod_eq_of_lt fits]

theorem reads_varInt (bits n : Nat) (fits : n < 2 ^ bits) :
    Reads (readVarInt bits) (writeVarInt bits n) n := by
  intro rest
  have last : ¬ varIntByte false n ≥ 0x80 := by
    rw [varIntByte_high]
    exact Bool.false_ne_true
  have single : ∀ m, m * 128 + n % 128 = n →
      readVarIntFrom bits m (varIntByte false n :: rest) = some (n, rest) := by
    intro m value
    rw [readVarIntFrom]
    simp only [varIntByte_low, if_neg last, value]
    rw [Nat.mod_eq_of_lt fits]
  have enough : n < 128 ^ ((bits + 6) / 7 + 1) := by
    calc
      n < 2 ^ bits := fits
      _ ≤ 2 ^ (7 * ((bits + 6) / 7 + 1)) := Nat.pow_le_pow_right (by decide) (by omega)
      _ = 128 ^ ((bits + 6) / 7 + 1) := by rw [Nat.pow_mul]
  show readVarIntFrom bits 0 (writeVarInt bits n ++ rest) = some (n, rest)
  rw [writeVarInt]
  cases size : (bits + 6) / 7 with
  | zero =>
      rw [size] at enough
      exact single 0 (by omega)
  | succ fuel =>
      rw [size] at enough
      rw [writeVarIntLoop]
      split
      · exact single 0 (by omega)
      · have shorter : n / 128 - 1 < 128 ^ (fuel + 1) := by
          rw [Nat.pow_succ] at enough
          omega
        rw [List.append_assoc, readVarInt_leading bits fuel (n / 128 - 1) _ shorter (by omega)]
        exact single _ (by omega)

theorem writeVarIntSigned_neg (n : Int) (negative : n < 0) :
    writeVarIntSigned n = writeVarInt 32 (n % 128).toNat := by
  have small : (n % 128).toNat ≤ 0x7f := by omega
  rw [writeVarIntSigned, if_pos negative, writeVarInt, writeVarIntLoop, if_pos small]

/-- A negative `int` reads back as its low seven bits. -/
theorem reads_varIntSigned (n : Int) (fits : n < 2 ^ 31) :
    Reads (readVarInt 32) (writeVarIntSigned n) (if n < 0 then n % 128 else n).toNat := by
  split
  · rename_i negative
    rw [writeVarIntSigned_neg n negative]
    exact reads_varInt 32 _ (by omega)
  · rename_i nonneg
    rw [writeVarIntSigned, if_neg nonneg]
    exact reads_varInt 32 _ (by omega)

theorem reads_longSize (count least value : Nat) (fits : value < 256 ^ count)
    (large : least ≤ value) : Reads (readLongSize count least) (writeLE count value) value :=
  reads_guarded (readFixed count) (least ≤ ·) _ value (reads_fixed count value fits) large

theorem reads_compactSize (nSize : Nat) (small : nSize ≤ maxSize) :
    Reads readCompactSize (writeCompactSize nSize) nSize := by
  have most : maxSize = 33554432 := rfl
  have rest : ∀ chSize bytes, Reads (readSizeAfter chSize) bytes nSize →
      Reads readCompactSize (chSize :: bytes) nSize := by
    intro chSize bytes after
    apply reads_bind readByte _ [chSize] bytes chSize nSize (reads_byte chSize)
    exact reads_guarded (readSizeAfter chSize) (· ≤ maxSize) bytes nSize after small
  rw [writeCompactSize]
  split
  · rename_i short
    have value : (UInt8.ofNat nSize).toNat = nSize := Nat.mod_eq_of_lt (by omega)
    have below : UInt8.ofNat nSize < 253 := by
      rw [UInt8.lt_iff_toNat_lt, value]
      exact short
    apply rest
    rw [readSizeAfter, if_pos below, value]
    exact reads_pure nSize
  · split
    · apply rest
      exact reads_longSize 2 253 nSize (by omega) (by omega)
    · split
      · apply rest
        exact reads_longSize 4 0x10000 nSize (by omega) (by omega)
      · omega

theorem reads_vector {α : Type} (read : Reader α) (write : α → Bytes) (v : List α)
    (small : v.length ≤ maxSize) (single : ∀ a ∈ v, Reads read (write a) a) :
    Reads (readVector read) (writeVector write v) v :=
  reads_bind readCompactSize _ _ _ v.length v (reads_compactSize v.length small)
    (reads_many read write v single)

/-! ## Writing back what was read -/

theorem writeLE_readLE (bytes : Bytes) : writeLE bytes.length (readLE bytes) = bytes := by
  induction bytes with
  | nil => rfl
  | cons byte bytes ih =>
      have small : byte.toNat < 256 := byte.toNat_lt
      have low : (byte.toNat + 256 * readLE bytes) % 256 = byte.toNat := by omega
      have high : (byte.toNat + 256 * readLE bytes) / 256 = readLE bytes := by omega
      have value : readLE (byte :: bytes) = byte.toNat + 256 * readLE bytes := by
        rw [readLE, List.map_cons, Nat.ofDigits_cons, ← readLE]
      rw [value, List.length_cons, writeLE, Words.words, List.map_cons, low, high, UInt8.ofNat_toNat,
        ← writeLE, ih]

theorem readLE_lt (bytes : Bytes) : readLE bytes < 256 ^ bytes.length := by
  have value := readLE_writeLE bytes.length (readLE bytes)
  rw [writeLE_readLE] at value
  rw [value]
  exact Nat.mod_lt _ (by positivity)

theorem run_fixed (count n : Nat) (bytes rest : Bytes) :
    (readFixed count).run bytes = some (n, rest) ↔ n < 256 ^ count ∧ writeLE count n ++ rest = bytes := by
  rw [readFixed]
  simp only [run_bind, run_take, run_pure]
  constructor
  · rintro ⟨front, middle, ⟨rfl, rfl⟩, rfl, rfl⟩
    exact ⟨readLE_lt front, by rw [writeLE_readLE]⟩
  · rintro ⟨fits, rfl⟩
    refine ⟨writeLE count n, rest, ⟨writeLE_length count n, rfl⟩, ?_, rfl⟩
    rw [readLE_writeLE, Nat.mod_eq_of_lt fits]

theorem run_longSize (count least n : Nat) (bytes rest : Bytes)
    (found : (readLongSize count least).run bytes = some (n, rest)) :
    least ≤ n ∧ n < 256 ^ count ∧ writeLE count n ++ rest = bytes := by
  simp only [readLongSize, run_bind, run_fixed, run_check, run_pure] at found
  obtain ⟨value, middle, ⟨fits, written⟩, _, after, ⟨large, rfl⟩, rfl, rfl⟩ := found
  exact ⟨large, fits, written⟩

/-- Sizes in a longer form than needed are refused. -/
theorem canonical_compactSize (nSize : Nat) (bytes rest : Bytes)
    (found : readCompactSize.run bytes = some (nSize, rest)) :
    nSize ≤ maxSize ∧ writeCompactSize nSize ++ rest = bytes := by
  simp only [readCompactSize, run_bind, run_byte, run_check, run_pure] at found
  obtain ⟨chSize, middle, rfl, value, after, sized, _, last, ⟨small, rfl⟩, rfl, rfl⟩ := found
  refine ⟨small, ?_⟩
  have byte_small : chSize.toNat < 256 := chSize.toNat_lt
  rw [readSizeAfter] at sized
  split_ifs at sized with short two four
  · obtain ⟨rfl, rfl⟩ := (run_pure _ _ _ _).mp sized
    have value_small : chSize.toNat < 253 := UInt8.lt_iff_toNat_lt.mp short
    rw [writeCompactSize, if_pos value_small, UInt8.ofNat_toNat]
    rfl
  · obtain ⟨large, fits, rfl⟩ := run_longSize 2 253 value middle after sized
    rw [writeCompactSize, if_neg (by omega), if_pos (by omega), two]
    rfl
  · obtain ⟨large, fits, rfl⟩ := run_longSize 4 0x10000 value middle after sized
    rw [writeCompactSize, if_neg (by omega), if_neg (by omega), if_pos (by omega), four]
    rfl
  · obtain ⟨large, -, -⟩ := run_longSize 8 0x100000000 value middle after sized
    have most : maxSize = 33554432 := rfl
    omega

theorem canonical_vector {α : Type} (read : Reader α) (write : α → Bytes)
    (single : Canonical read write) (v : List α) (bytes rest : Bytes)
    (found : (readVector read).run bytes = some (v, rest)) :
    v.length ≤ maxSize ∧ writeVector write v ++ rest = bytes := by
  rw [readVector, run_bind] at found
  obtain ⟨nSize, middle, sized, elements⟩ := found
  obtain ⟨small, rfl⟩ := canonical_compactSize nSize bytes middle sized
  obtain ⟨rfl, rfl⟩ := canonical_many read write single nSize middle rest v elements
  exact ⟨small, by rw [writeVector, List.append_assoc]⟩

theorem all_vector {α : Type} (read : Reader α) (good : α → Prop)
    (single : ∀ bytes rest a, read.run bytes = some (a, rest) → good a) (v : List α)
    (bytes rest : Bytes) (found : (readVector read).run bytes = some (v, rest)) :
    ∀ a ∈ v, good a := by
  rw [readVector, run_bind] at found
  obtain ⟨nSize, middle, -, elements⟩ := found
  exact all_many read good single nSize middle rest v elements

end RoiCoin
