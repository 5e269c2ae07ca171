import RoiCoin.Script.Numbers
import RoiCoin.Script.StackSizes

/-! Script numbers in their 64 bits (`CScriptNum` of `script/script.h`).

`CScriptNum` holds an `int64_t`. An operation gives nothing where an assertion fails or a signed
result overflows. -/

namespace RoiCoin

/-! ## The byte strings of all numbers -/

theorem readLE_append (front back : Bytes) :
    readLE (front ++ back) = readLE front + 256 ^ front.length * readLE back := by
  rw [readLE, List.map_append, Nat.ofDigits_append, List.length_map, readLE, readLE]

theorem readLE_singleton (byte : UInt8) : readLE [byte] = byte.toNat := by
  rw [readLE, List.map_singleton, Nat.ofDigits_singleton]

theorem magnitude_clear (byte : UInt8) : byte &&& 0x7f = 0 ↔ byte.toNat % 128 = 0 := by
  have all : ∀ n : Fin 256, UInt8.ofFin n &&& 0x7f = 0 ↔ n.val % 128 = 0 := by decide +kernel
  exact all byte.toFin

theorem with_top_bit (byte : UInt8) (low : byte.toNat < 128) :
    byte ||| 0x80 = UInt8.ofNat (byte.toNat + 128) := by
  have all : ∀ n : Fin 256, n.val < 128 →
      UInt8.ofFin n ||| 0x80 = UInt8.ofNat (n.val + 128) := by decide +kernel
  exact all byte.toFin low

/-- The byte that carries the sign: a digit below 128 with the sign on top. -/
def signByte (negative : Bool) (digit : Nat) : UInt8 :=
  UInt8.ofNat (digit + if negative then 128 else 0)

theorem signByte_toNat (negative : Bool) (digit : Nat) (low : digit < 128) :
    (signByte negative digit).toNat = digit + if negative then 128 else 0 := by
  rw [signByte]
  apply UInt8.toNat_ofNat_of_lt'
  show _ < 256
  split <;> omega

/-- A byte of its own carries the sign where the most significant digit leaves it no room. -/
theorem serialize_digits (value : Int) (front : List Nat) (digit : Nat)
    (digits : Nat.digits 256 value.natAbs = front ++ [digit]) (small : digit < 256) :
    scriptNumSerialize value = front.map UInt8.ofNat ++
      (if digit < 128 then [signByte (value < 0) digit]
        else [UInt8.ofNat digit, signByte (value < 0) 0]) := by
  have byte : (UInt8.ofNat digit).toNat = digit := UInt8.toNat_ofNat_of_lt' small
  have top := top_bit_clear (UInt8.ofNat digit)
  rw [byte] at top
  rw [scriptNumSerialize, digits, List.map_append, List.map_singleton]
  simp only [List.getLast?_concat, bne_iff_ne, ne_eq, top, List.dropLast_concat]
  by_cases low : digit < 128
  · have signed := with_top_bit (UInt8.ofNat digit) (by rw [byte]; exact low)
    rw [byte] at signed
    by_cases negative : value < 0
    · simp [low, negative, signByte, signed]
    · simp [low, negative, signByte]
  · by_cases negative : value < 0
    · simp [low, negative, signByte]
    · simp [low, negative, signByte]

theorem setVch_signed (front : Bytes) (negative : Bool) (digit : Nat) (low : digit < 128) :
    setVch (front ++ [signByte negative digit]) =
      (if negative then -1 else 1) * ((readLE front + 256 ^ front.length * digit : Nat) : Int) := by
  have byte := signByte_toNat negative digit low
  have top := top_bit_clear (signByte negative digit)
  have power : (2 : Int) ^ (8 * front.length) = ((256 ^ front.length : Nat) : Int) := by
    rw [Int.pow_mul]
    norm_num
  rw [setVch, List.getLast?_concat]
  simp only [bne_iff_ne, ne_eq, top, byte]
  rw [readLE_append, readLE_singleton, byte, List.length_append, List.length_singleton,
    Nat.add_sub_cancel, power]
  cases negative with
  | true =>
      simp
      ring
  | false => simp [low]

theorem minimal_append (front : Bytes) (back : UInt8) :
    minimallyEncoded (front ++ [back]) = true ↔
      back.toNat % 128 ≠ 0 ∨ ∃ rest second, front = rest ++ [second] ∧ 128 ≤ second.toNat := by
  have back_low := magnitude_clear back
  rw [minimallyEncoded, List.reverse_concat]
  cases front using List.reverseRecOn with
  | nil => simp [back_low]
  | append_singleton rest second =>
      have second_top := top_bit_clear second
      rw [List.reverse_concat]
      simp only [Bool.or_eq_true, bne_iff_ne, ne_eq, back_low, second_top, Nat.not_lt]
      constructor
      · intro either
        rcases either with low | top
        · exact .inl low
        · exact .inr ⟨rest, second, rfl, top⟩
      · intro either
        rcases either with low | ⟨rest', second', same, top⟩
        · exact .inl low
        · rw [(List.append_inj' same rfl).2.symm |> List.singleton_inj.mp] at top
          exact .inr top

theorem readLE_map (digits : List Nat) (small : ∀ digit ∈ digits, digit < 256) :
    readLE (digits.map UInt8.ofNat) = Nat.ofDigits 256 digits := by
  have same : (digits.map UInt8.ofNat).map UInt8.toNat = digits := by
    rw [List.map_map]
    refine (List.map_congr_left fun digit member => ?_).trans (List.map_id _)
    exact UInt8.toNat_ofNat_of_lt' (small digit member)
  rw [readLE, same]

theorem signed_natAbs (value : Int) :
    (if decide (value < 0) then -1 else 1) * (value.natAbs : Int) = value := by
  by_cases negative : value < 0
  · simp only [negative, decide_true, if_true]
    omega
  · simp only [negative, decide_false, Bool.false_eq_true, if_false]
    omega

/-- Every number reads back from its bytes, and they are minimal. -/
theorem serialize_reads (value : Int) :
    setVch (scriptNumSerialize value) = value ∧
      minimallyEncoded (scriptNumSerialize value) = true := by
  by_cases zero : value = 0
  · subst zero
    decide
  obtain ⟨front, digit, digits, positive, small, -⟩ := digits_last value.natAbs (by omega)
  have bytes : ∀ d ∈ front ++ [digit], d < 256 := by
    rw [← digits]
    exact fun d member => Nat.digits_lt_base (by decide) member
  have whole : readLE ((front ++ [digit]).map UInt8.ofNat) = value.natAbs := by
    rw [readLE_map _ bytes, ← digits, Nat.ofDigits_digits]
  rw [serialize_digits value front digit digits small]
  by_cases low : digit < 128
  · rw [if_pos low]
    constructor
    · rw [List.map_append, List.map_singleton, readLE_append, readLE_singleton,
        UInt8.toNat_ofNat_of_lt' small] at whole
      rw [setVch_signed _ _ digit low, whole, signed_natAbs]
    · rw [minimal_append, signByte_toNat _ digit low]
      left
      split <;> omega
  · rw [if_neg low]
    have split : front.map UInt8.ofNat ++ [UInt8.ofNat digit, signByte (value < 0) 0] =
        (front ++ [digit]).map UInt8.ofNat ++ [signByte (value < 0) 0] := by simp
    rw [split]
    constructor
    · rw [setVch_signed _ _ 0 (by decide), whole, Nat.mul_zero, Nat.add_zero, signed_natAbs]
    · rw [minimal_append]
      right
      refine ⟨front.map UInt8.ofNat, UInt8.ofNat digit, by simp, ?_⟩
      rw [UInt8.toNat_ofNat_of_lt' small]
      omega

theorem signByte_of (byte : UInt8) : signByte (128 ≤ byte.toNat) (byte.toNat % 128) = byte := by
  apply UInt8.toNat_inj.mp
  have small := byte.toNat_lt
  rw [signByte_toNat _ _ (Nat.mod_lt _ (by decide))]
  by_cases top : 128 ≤ byte.toNat
  · simp only [top, decide_true, if_true]
    omega
  · simp only [top, decide_false, Bool.false_eq_true, if_false]
    omega

/-- The digits of a byte string that does not end in zero. -/
theorem digits_readLE (front : Bytes) (digit : Nat) (positive : 0 < digit) (small : digit < 256) :
    Nat.digits 256 (readLE front + 256 ^ front.length * digit) = front.map UInt8.toNat ++ [digit] := by
  have value : readLE front + 256 ^ front.length * digit =
      Nat.ofDigits 256 (front.map UInt8.toNat ++ [digit]) := by
    rw [Nat.ofDigits_append, Nat.ofDigits_singleton, List.length_map, readLE]
  rw [value]
  apply Nat.digits_ofDigits 256 (by decide)
  · intro d member
    rcases List.mem_append.mp member with byte | last
    · obtain ⟨b, -, rfl⟩ := List.mem_map.mp byte
      exact b.toNat_lt
    · rw [List.mem_singleton.mp last]
      exact small
  · intro _
    rw [List.getLast_append_singleton]
    omega

theorem map_ofNat_toNat (bytes : Bytes) : (bytes.map UInt8.toNat).map UInt8.ofNat = bytes := by
  rw [List.map_map]
  refine (List.map_congr_left fun byte _ => ?_).trans (List.map_id _)
  exact UInt8.ofNat_toNat

/-- A positive number and a sign decide the bytes. -/
theorem serialize_signed (value : Int) (negative : Bool) (n : Nat) (positive : 0 < n)
    (signed : value = (if negative then -1 else 1) * (n : Int)) :
    value.natAbs = n ∧ decide (value < 0) = negative := by
  cases negative with
  | true => simp at signed; simp; omega
  | false => simp at signed; simp; omega

/-- Minimal bytes are those of the number they stand for. -/
theorem serialize_setVch (vch : Bytes) (minimal : minimallyEncoded vch = true) :
    scriptNumSerialize (setVch vch) = vch := by
  cases vch using List.reverseRecOn with
  | nil => decide
  | append_singleton front back =>
      have low : back.toNat % 128 < 128 := Nat.mod_lt _ (by decide)
      have read := setVch_signed front (128 ≤ back.toNat) (back.toNat % 128) low
      rw [signByte_of] at read
      rw [minimal_append] at minimal
      by_cases top : back.toNat % 128 = 0
      · obtain ⟨rest, second, rfl, high⟩ := minimal.resolve_left (absurd top)
        have small := second.toNat_lt
        rw [top, Nat.mul_zero, Nat.add_zero, readLE_append, readLE_singleton] at read
        obtain ⟨size, sign⟩ := serialize_signed _ _ _ (by positivity) read
        have digits := digits_readLE rest second.toNat (by omega) small
        rw [← size] at digits
        have last := signByte_of back
        rw [top] at last
        rw [serialize_digits _ _ _ digits small, if_neg (by omega), sign, last, map_ofNat_toNat,
          UInt8.ofNat_toNat]
        simp
      · have positive : 0 < 256 ^ front.length * (back.toNat % 128) := by positivity
        obtain ⟨size, sign⟩ := serialize_signed _ _ _ (by omega) read
        have digits := digits_readLE front (back.toNat % 128) (by omega) (by omega)
        rw [← size] at digits
        rw [serialize_digits _ _ _ digits (by omega), if_pos low, sign, signByte_of, map_ofNat_toNat]

/-! ## In 64 bits -/

/-- The loop of `set_vch` from byte `i` on. -/
def setVchLoop (result : BitVec 64) (i : Nat) : Bytes → BitVec 64
  | [] => result
  | byte :: vch => setVchLoop (result ||| BitVec.ofNat 64 byte.toNat <<< (8 * i)) (i + 1) vch

/-- `set_vch` -/
def setVch64 (vch : Bytes) : BitVec 64 :=
  match vch.getLast? with
  | none => 0
  | some back =>
      let result := setVchLoop 0 0 vch
      if back &&& 0x80 != 0 then -(result &&& ~~~((0x80 : BitVec 64) <<< (8 * (vch.length - 1))))
      else result

/-- `CScriptNum(vch, fRequireMinimal, nMaxNumSize)` -/
def scriptNum64 (vch : Bytes) (fRequireMinimal : Bool) (nMaxNumSize : Nat) :
    Except ScriptFault (BitVec 64) :=
  if vch.length > nMaxNumSize then .error (.scriptnumError "script number overflow")
  else if fRequireMinimal && !minimallyEncoded vch then
    .error (.scriptnumError "non-minimally encoded script number")
  else .ok (setVch64 vch)

/-- `while (absvalue)`; after eight rounds no bit is left. -/
def serializeLoop : Nat → BitVec 64 → Bytes
  | 0, _ => []
  | rounds + 1, absvalue =>
      if absvalue = 0 then []
      else UInt8.ofNat (absvalue &&& 0xff).toNat :: serializeLoop rounds (absvalue >>> 8)

/-- `serialize` -/
def serialize64 (value : BitVec 64) : Bytes :=
  if value = 0 then []
  else
    let neg := value.slt 0
    let absvalue := if neg then -value else value
    let result := serializeLoop 8 absvalue
    match result.getLast? with
    | none => []
    | some back =>
        if back &&& 0x80 != 0 then result ++ [if neg then 0x80 else 0]
        else if neg then result.dropLast ++ [back ||| 0x80]
        else result

theorem serializeLoop_digits (rounds : Nat) (absvalue : BitVec 64)
    (small : absvalue.toNat < 256 ^ rounds) :
    serializeLoop rounds absvalue = (Nat.digits 256 absvalue.toNat).map UInt8.ofNat := by
  induction rounds generalizing absvalue with
  | zero =>
      have zero : absvalue.toNat = 0 := by omega
      rw [zero]
      rfl
  | succ rounds ih =>
      rw [serializeLoop]
      by_cases zero : absvalue = 0
      · rw [if_pos zero, zero]
        rfl
      · have positive : 0 < absvalue.toNat := by
          rw [Nat.pos_iff_ne_zero]
          exact fun none => zero (BitVec.eq_of_toNat_eq none)
        have low : (absvalue &&& 0xff).toNat = absvalue.toNat % 256 := by
          rw [BitVec.toNat_and]
          exact Nat.and_two_pow_sub_one_eq_mod _ 8
        have high : (absvalue >>> 8).toNat = absvalue.toNat / 256 := by
          rw [BitVec.toNat_ushiftRight, Nat.shiftRight_eq_div_pow]
        have shorter : (absvalue >>> 8).toNat < 256 ^ rounds := by
          rw [Nat.pow_succ] at small
          omega
        rw [if_neg zero, ih _ shorter, low, high, Nat.digits_def' (by decide) positive, List.map_cons]

theorem absvalue_natAbs (value : BitVec 64) :
    (if value.slt 0 then -value else value).toNat = value.toInt.natAbs := by
  have negative : value.slt 0 = true ↔ value.toInt < 0 := BitVec.slt_iff_toInt_lt
  have toInt := BitVec.toInt_eq_toNat_cond value
  have bound := value.isLt
  by_cases below : value.toInt < 0
  · rw [if_pos (negative.mpr below), BitVec.toNat_neg]
    split at toInt <;> omega
  · rw [if_neg fun sign => below (negative.mp sign)]
    split at toInt <;> omega

/-- The loops of `serialize` give the bytes of the number. -/
theorem serialize64_eq (value : BitVec 64) : serialize64 value = scriptNumSerialize value.toInt := by
  have negative : value.slt 0 = true ↔ value.toInt < 0 := BitVec.slt_iff_toInt_lt
  have small : (if value.slt 0 then -value else value).toNat < 256 ^ 8 := BitVec.isLt _
  have digits := serializeLoop_digits 8 _ small
  rw [absvalue_natAbs] at digits
  rw [serialize64]
  by_cases zero : value = 0
  · rw [if_pos zero, zero]
    rfl
  · rw [if_neg zero]
    simp only [digits, scriptNumSerialize]
    cases (List.map UInt8.ofNat (Nat.digits 256 value.toInt.natAbs)).getLast? with
    | none => rfl
    | some back => simp only [negative]

/-- Or-ing in a byte above all bits so far adds it. -/
theorem or_byte (result : BitVec 64) (i : Nat) (byte : UInt8) (below : result.toNat < 256 ^ i)
    (inside : i < 8) :
    (result ||| BitVec.ofNat 64 byte.toNat <<< (8 * i)).toNat =
      result.toNat + 256 ^ i * byte.toNat := by
  have small := byte.toNat_lt
  have power : 256 ^ i = 2 ^ (8 * i) := by rw [Nat.pow_mul]
  have room : 2 ^ (8 * i) * byte.toNat < 2 ^ 64 := by
    calc
      2 ^ (8 * i) * byte.toNat < 2 ^ (8 * i) * 2 ^ 8 :=
        Nat.mul_lt_mul_of_pos_left small (Nat.two_pow_pos _)
      _ = 2 ^ (8 * i + 8) := (Nat.pow_add _ _ _).symm
      _ ≤ 2 ^ 64 := Nat.pow_le_pow_right (by decide) (by omega)
  have shifted : (BitVec.ofNat 64 byte.toNat <<< (8 * i)).toNat = 2 ^ (8 * i) * byte.toNat := by
    have fits : byte.toNat < 2 ^ 64 := by omega
    rw [BitVec.toNat_shiftLeft, BitVec.toNat_ofNat, Nat.mod_eq_of_lt fits, Nat.shiftLeft_eq,
      Nat.mul_comm, Nat.mod_eq_of_lt room]
  rw [power] at below ⊢
  rw [BitVec.toNat_or, shifted, Nat.or_comm, ← Nat.two_pow_add_eq_or_of_lt below, Nat.add_comm]

theorem setVchLoop_toNat (result : BitVec 64) (i : Nat) (vch : Bytes)
    (below : result.toNat < 256 ^ i) (inside : i + vch.length ≤ 8) :
    (setVchLoop result i vch).toNat = result.toNat + 256 ^ i * readLE vch := by
  induction vch generalizing result i with
  | nil => rw [setVchLoop, readLE, List.map_nil, Nat.ofDigits_nil, Nat.mul_zero, Nat.add_zero]
  | cons byte vch ih =>
      rw [List.length_cons] at inside
      have small := byte.toNat_lt
      have added := or_byte result i byte below (by omega)
      have next : 256 ^ i * byte.toNat ≤ 256 ^ i * 255 := Nat.mul_le_mul_left _ (by omega)
      have value : readLE (byte :: vch) = byte.toNat + 256 * readLE vch := by
        rw [readLE, List.map_cons, Nat.ofDigits_cons, ← readLE]
      rw [setVchLoop, ih _ (i + 1) (by rw [added, Nat.pow_succ]; omega) (by omega), added, value,
        Nat.pow_succ]
      ring

/-- The mask takes the sign bit away. -/
theorem mask_sign (low i : Nat) (below : low < 2 ^ i) :
    BitVec.ofNat 64 (2 ^ i + low) &&& ~~~((1 : BitVec 64) <<< i) = BitVec.ofNat 64 low := by
  apply BitVec.eq_of_getLsbD_eq
  intro j bit
  have shape : (1 : BitVec 64) <<< i = BitVec.twoPow 64 i := (BitVec.twoPow_eq 64 i).symm
  rw [BitVec.getLsbD_and, BitVec.getLsbD_not, shape, BitVec.getLsbD_twoPow, BitVec.getLsbD_ofNat,
    BitVec.getLsbD_ofNat]
  by_cases here : i = j
  · subst here
    simp [bit, Nat.testBit_lt_two_pow below]
  · have split := Nat.two_pow_add_eq_or_of_lt below 1
    rw [Nat.mul_one] at split
    rw [split, Nat.testBit_or, Nat.testBit_two_pow_of_ne here]
    simp [bit, here]

theorem neg_toInt (m : Nat) (small : m < 2 ^ 63) : (-BitVec.ofNat 64 m).toInt = -(m : Int) := by
  have value : (BitVec.ofNat 64 m).toNat = m := by
    rw [BitVec.toNat_ofNat, Nat.mod_eq_of_lt (by omega)]
  have positive : (BitVec.ofNat 64 m).toInt = m := by
    rw [BitVec.toInt_eq_toNat_of_lt (by omega), value]
  have inside : ¬ (BitVec.ofNat 64 m).negOverflow := by
    rw [BitVec.negOverflow, positive, beq_iff_eq]
    omega
  rw [BitVec.toInt_neg_of_not_negOverflow inside, positive]

/-- Up to eight bytes are read without a loss. -/
theorem setVch64_toInt (vch : Bytes) (short : vch.length ≤ 8) : (setVch64 vch).toInt = setVch vch := by
  cases vch using List.reverseRecOn with
  | nil => rfl
  | append_singleton front back =>
      rw [List.length_append, List.length_singleton] at short
      have top := top_bit_clear back
      have small := back.toNat_lt
      have loop := setVchLoop_toNat 0 0 (front ++ [back]) (by decide)
        (by rw [List.length_append, List.length_singleton]; omega)
      have power : 256 ^ front.length = 2 ^ (8 * front.length) := by rw [Nat.pow_mul]
      have below : readLE front < 2 ^ (8 * front.length) := by
        rw [← power]
        exact readLE_lt front
      have value : (setVchLoop 0 0 (front ++ [back])).toNat =
          readLE front + 2 ^ (8 * front.length) * back.toNat := by
        rw [loop, readLE_append, readLE_singleton, power]
        simp
      have seven : 2 ^ (8 * front.length + 7) = 2 ^ (8 * front.length) * 128 := Nat.pow_add _ _ _
      have bound : 2 ^ (8 * front.length) * 128 ≤ 2 ^ 63 := by
        rw [← seven]
        exact Nat.pow_le_pow_right (by decide) (by omega)
      have read := setVch_signed front (128 ≤ back.toNat) (back.toNat % 128)
        (Nat.mod_lt _ (by decide))
      rw [signByte_of, power] at read
      rw [read, setVch64, List.getLast?_concat]
      simp only [bne_iff_ne, ne_eq, top, Nat.not_lt]
      generalize magnitude : readLE front + 2 ^ (8 * front.length) * (back.toNat % 128) = m
      have room : m < 2 ^ (8 * front.length) * 128 := by
        have rest : 2 ^ (8 * front.length) * (back.toNat % 128) ≤ 2 ^ (8 * front.length) * 127 :=
          Nat.mul_le_mul_left _ (by omega)
        omega
      by_cases high : 128 ≤ back.toNat
      · have parts : back.toNat = 128 + back.toNat % 128 := by omega
        have whole : setVchLoop 0 0 (front ++ [back]) =
            BitVec.ofNat 64 (2 ^ (8 * front.length + 7) + m) := by
          apply BitVec.eq_of_toNat_eq
          rw [value, BitVec.toNat_ofNat, Nat.mod_eq_of_lt (by omega), ← magnitude, seven]
          conv_lhs => rw [parts, Nat.mul_add]
          ring
        have mask : (0x80 : BitVec 64) <<< (8 * ((front ++ [back]).length - 1)) =
            (1 : BitVec 64) <<< (8 * front.length + 7) := by
          have one : (0x80 : BitVec 64) = (1 : BitVec 64) <<< 7 := by decide
          rw [List.length_append, List.length_singleton, Nat.add_sub_cancel, Nat.add_comm _ 7,
            BitVec.shiftLeft_add, one]
        rw [if_pos high, whole, mask, mask_sign m _ (by omega)]
        simp only [high, decide_true, if_true]
        rw [neg_toInt m (by omega), neg_one_mul]
      · have parts : back.toNat = back.toNat % 128 := by omega
        rw [← parts] at magnitude
        rw [if_neg high]
        simp only [high, decide_false, Bool.false_eq_true, if_false]
        rw [BitVec.toInt_eq_toNat_of_lt (by omega), value, magnitude, one_mul]

/-! ## Arithmetic -/

/-- `a + b` of two `int64_t`. -/
def plus (a b : BitVec 64) : Option (BitVec 64) := if a.saddOverflow b then none else some (a + b)

def minus (a b : BitVec 64) : Option (BitVec 64) := if a.ssubOverflow b then none else some (a - b)

/-- `operator+=` with its assertion. -/
def addAssign (m_value rhs : BitVec 64) : Option (BitVec 64) :=
  if rhs = 0 ∨ (BitVec.slt 0 rhs ∧ m_value.sle (BitVec.intMax 64 - rhs)) ∨
      (rhs.slt 0 ∧ (BitVec.intMin 64 - rhs).sle m_value) then
    plus m_value rhs
  else none

def subAssign (m_value rhs : BitVec 64) : Option (BitVec 64) :=
  if rhs = 0 ∨ (BitVec.slt 0 rhs ∧ (BitVec.intMin 64 + rhs).sle m_value) ∨
      (rhs.slt 0 ∧ m_value.sle (BitVec.intMax 64 + rhs)) then
    minus m_value rhs
  else none

/-- The unary `operator-` with its assertion. -/
def negated (m_value : BitVec 64) : Option (BitVec 64) :=
  if m_value = BitVec.intMin 64 then none else some (-m_value)

def bool64 (fValue : Bool) : BitVec 64 := if fValue then 1 else 0

def UnaryOp.run64 (bn : BitVec 64) : UnaryOp → Option (BitVec 64)
  | .add1 => addAssign bn 1
  | .sub1 => subAssign bn 1
  | .negate => negated bn
  | .abs => if bn.slt 0 then negated bn else some bn
  | .not => some (bool64 (bn == 0))
  | .zeroNotEqual => some (bool64 (bn != 0))

def BinaryOp.run64 (bn1 bn2 : BitVec 64) : BinaryOp → Option (BitVec 64)
  | .add => plus bn1 bn2
  | .sub => minus bn1 bn2
  | .boolAnd => some (bool64 (bn1 != 0 && bn2 != 0))
  | .boolOr => some (bool64 (bn1 != 0 || bn2 != 0))
  | .numEqual => some (bool64 (bn1 == bn2))
  | .numNotEqual => some (bool64 (bn1 != bn2))
  | .lessThan => some (bool64 (bn1.slt bn2))
  | .greaterThan => some (bool64 (bn2.slt bn1))
  | .lessThanOrEqual => some (bool64 (bn1.sle bn2))
  | .greaterThanOrEqual => some (bool64 (bn2.sle bn1))
  | .min => some (if bn1.slt bn2 then bn1 else bn2)
  | .max => some (if bn2.slt bn1 then bn1 else bn2)

theorem plus_exact (a b : BitVec 64) (above : -2 ^ 63 ≤ a.toInt + b.toInt)
    (below : a.toInt + b.toInt < 2 ^ 63) :
    ∃ r, plus a b = some r ∧ r.toInt = a.toInt + b.toInt := by
  have inside : ¬ a.saddOverflow b := by
    simp only [BitVec.saddOverflow, Bool.or_eq_true, decide_eq_true_eq, not_or]
    omega
  exact ⟨a + b, if_neg inside, BitVec.toInt_add_of_not_saddOverflow inside⟩

theorem minus_exact (a b : BitVec 64) (above : -2 ^ 63 ≤ a.toInt - b.toInt)
    (below : a.toInt - b.toInt < 2 ^ 63) :
    ∃ r, minus a b = some r ∧ r.toInt = a.toInt - b.toInt := by
  have inside : ¬ a.ssubOverflow b := by
    simp only [BitVec.ssubOverflow, Bool.or_eq_true, decide_eq_true_eq, not_or]
    omega
  exact ⟨a - b, if_neg inside, BitVec.toInt_sub_of_not_ssubOverflow inside⟩

theorem negated_exact (a : BitVec 64) (above : -2 ^ 63 < a.toInt) :
    ∃ r, negated a = some r ∧ r.toInt = -a.toInt := by
  have least : (BitVec.intMin 64).toInt = -2 ^ 63 := by decide
  have other : a ≠ BitVec.intMin 64 := by
    intro same
    rw [same, least] at above
    exact absurd above (by decide)
  exact ⟨-a, if_neg other, BitVec.toInt_neg_of_ne_intMin other⟩

theorem bool64_toInt (fValue : Bool) : (bool64 fValue).toInt = boolNum fValue := by
  cases fValue <;> decide

theorem beq_toInt (a b : BitVec 64) : (a == b) = (a.toInt == b.toInt) := by
  rw [Bool.eq_iff_iff, beq_iff_eq, beq_iff_eq, BitVec.toInt_inj]

theorem bne_toInt (a b : BitVec 64) : (a != b) = (a.toInt != b.toInt) := by
  rw [bne, bne, beq_toInt]

theorem slt_toInt (a b : BitVec 64) : a.slt b = decide (a.toInt < b.toInt) := rfl

theorem sle_toInt (a b : BitVec 64) : a.sle b = decide (a.toInt ≤ b.toInt) := rfl

/-- An operation on a number that is not the least one is exact and its assertion holds. -/
theorem unary_exact (op : UnaryOp) (a : BitVec 64) (above : -2 ^ 63 < a.toInt)
    (below : a.toInt < 2 ^ 63 - 1) : ∃ r, op.run64 a = some r ∧ r.toInt = op.run a.toInt := by
  have one : (1 : BitVec 64).toInt = 1 := by decide
  have zero : (0 : BitVec 64).toInt = 0 := by decide
  cases op with
  | add1 =>
      obtain ⟨r, exact, value⟩ := plus_exact a 1 (by omega) (by omega)
      have most : (BitVec.intMax 64 - 1).toInt = 2 ^ 63 - 2 := by decide
      have asserted : BitVec.slt 0 (1 : BitVec 64) ∧ a.sle (BitVec.intMax 64 - 1) := by
        rw [sle_toInt, most, decide_eq_true_eq]
        exact ⟨by decide, by omega⟩
      exact ⟨r, by rw [UnaryOp.run64, addAssign, if_pos (.inr (.inl asserted)), exact],
        by rw [value, one]; rfl⟩
  | sub1 =>
      obtain ⟨r, exact, value⟩ := minus_exact a 1 (by omega) (by omega)
      have least : (BitVec.intMin 64 + 1).toInt = -2 ^ 63 + 1 := by decide
      have asserted : BitVec.slt 0 (1 : BitVec 64) ∧ (BitVec.intMin 64 + 1).sle a := by
        rw [sle_toInt, least, decide_eq_true_eq]
        exact ⟨by decide, by omega⟩
      exact ⟨r, by rw [UnaryOp.run64, subAssign, if_pos (.inr (.inl asserted)), exact],
        by rw [value, one]; rfl⟩
  | negate => exact negated_exact a above
  | abs =>
      rw [UnaryOp.run64, UnaryOp.run, slt_toInt, zero]
      by_cases negative : a.toInt < 0
      · simp only [negative, decide_true, if_true]
        exact negated_exact a above
      · simp only [negative, decide_false, Bool.false_eq_true, if_false]
        exact ⟨a, rfl, rfl⟩
  | not => exact ⟨_, rfl, by rw [bool64_toInt, beq_toInt, zero]; rfl⟩
  | zeroNotEqual => exact ⟨_, rfl, by rw [bool64_toInt, bne_toInt, zero]; rfl⟩

theorem binary_exact (op : BinaryOp) (a b : BitVec 64) (left : a.toInt.natAbs < 2 ^ 62)
    (right : b.toInt.natAbs < 2 ^ 62) :
    ∃ r, op.run64 a b = some r ∧ r.toInt = op.run a.toInt b.toInt := by
  have zero : (0 : BitVec 64).toInt = 0 := by decide
  cases op with
  | add => exact plus_exact a b (by omega) (by omega)
  | sub => exact minus_exact a b (by omega) (by omega)
  | boolAnd => exact ⟨_, rfl, by rw [bool64_toInt, bne_toInt, bne_toInt, zero]; rfl⟩
  | boolOr => exact ⟨_, rfl, by rw [bool64_toInt, bne_toInt, bne_toInt, zero]; rfl⟩
  | numEqual => exact ⟨_, rfl, by rw [bool64_toInt, beq_toInt]; rfl⟩
  | numNotEqual => exact ⟨_, rfl, by rw [bool64_toInt, bne_toInt]; rfl⟩
  | lessThan => exact ⟨_, rfl, by rw [bool64_toInt, slt_toInt]; rfl⟩
  | greaterThan => exact ⟨_, rfl, by rw [bool64_toInt, slt_toInt]; rfl⟩
  | lessThanOrEqual => exact ⟨_, rfl, by rw [bool64_toInt, sle_toInt]; rfl⟩
  | greaterThanOrEqual => exact ⟨_, rfl, by rw [bool64_toInt, sle_toInt]; rfl⟩
  | min =>
      refine ⟨_, rfl, ?_⟩
      rw [apply_ite BitVec.toInt, slt_toInt, BinaryOp.run]
      simp only [decide_eq_true_eq]
  | max =>
      refine ⟨_, rfl, ?_⟩
      rw [apply_ite BitVec.toInt, slt_toInt, BinaryOp.run]
      simp only [decide_eq_true_eq, gt_iff_lt]

/-! ## The number as a whole -/

theorem serialize_length_natAbs (value : Int) :
    (scriptNumSerialize value).length = (scriptNumSerialize value.natAbs).length := by
  by_cases zero : value = 0
  · rw [zero]
    rfl
  · obtain ⟨front, digit, digits, -, small, -⟩ := digits_last value.natAbs (by omega)
    have size : ((value.natAbs : Nat) : Int).natAbs = value.natAbs := Int.natAbs_natCast _
    rw [serialize_digits value front digit digits small,
      serialize_digits (value.natAbs : Int) front digit (by rw [size]; exact digits) small,
      List.length_append, List.length_append]
    congr 1
    split <;> rfl

theorem serialize_length_eight (value : Int) (small : value.natAbs < 2 ^ 63) :
    (scriptNumSerialize value).length ≤ 8 := by
  rw [serialize_length_natAbs]
  by_cases zero : value.natAbs = 0
  · rw [zero]
    decide
  · exact (serialize_length_signed value.natAbs 7 (by omega) (by omega)).2

theorem scriptNum64_ok (vch : Bytes) (fRequireMinimal : Bool) (nMaxNumSize : Nat) (n : BitVec 64) :
    scriptNum64 vch fRequireMinimal nMaxNumSize = .ok n ↔
      vch.length ≤ nMaxNumSize ∧ (fRequireMinimal = true → minimallyEncoded vch = true) ∧
        setVch64 vch = n := by
  rw [scriptNum64]
  by_cases long : vch.length > nMaxNumSize
  · simp [long]
  · have fits : vch.length ≤ nMaxNumSize := by omega
    rw [if_neg long]
    cases fRequireMinimal <;> cases minimallyEncoded vch <;> simp [fits]

/-- The interpreter computes with the numbers that the 64 bits stand for. -/
theorem scriptNum64_toInt (vch : Bytes) (fRequireMinimal : Bool) (nMaxNumSize : Nat)
    (short : nMaxNumSize ≤ 8) :
    (scriptNum64 vch fRequireMinimal nMaxNumSize).map BitVec.toInt =
      scriptNum vch fRequireMinimal nMaxNumSize := by
  rw [scriptNum64, scriptNum]
  by_cases long : vch.length > nMaxNumSize
  · rw [if_pos long, if_pos long]
    rfl
  · rw [if_neg long, if_neg long]
    split
    · rfl
    · exact congrArg Except.ok (setVch64_toInt vch (by omega))

/-- Every number above the least one reads back from its bytes, which are minimal; minimal bytes are
those of the number they stand for; and no operation on operands of four bytes overflows. -/
theorem script_numbers_exact :
    (∀ v : BitVec 64, v ≠ BitVec.intMin 64 → scriptNum64 (serialize64 v) true 8 = .ok v) ∧
      (∀ vch : Bytes, vch.length ≤ 8 → minimallyEncoded vch = true →
        serialize64 (setVch64 vch) = vch) ∧
      ∀ vch1 vch2 fRequireMinimal bn1 bn2, scriptNum64 vch1 fRequireMinimal 4 = .ok bn1 →
        scriptNum64 vch2 fRequireMinimal 4 = .ok bn2 →
        (∀ op : UnaryOp, ∃ r, op.run64 bn1 = some r ∧ r.toInt = op.run bn1.toInt) ∧
          ∀ op : BinaryOp, ∃ r, op.run64 bn1 bn2 = some r ∧
            r.toInt = op.run bn1.toInt bn2.toInt := by
  refine ⟨?_, ?_, ?_⟩
  · intro v other
    have least : (BitVec.intMin 64).toInt = -2 ^ 63 := by decide
    have lower := BitVec.le_toInt v
    have upper := BitVec.toInt_lt (x := v)
    have above : v.toInt ≠ -2 ^ 63 := by
      rw [← least]
      exact fun same => other (BitVec.toInt_inj.mp same)
    have short := serialize_length_eight v.toInt (by omega)
    obtain ⟨value, minimal⟩ := serialize_reads v.toInt
    rw [serialize64_eq, scriptNum64_ok]
    refine ⟨short, fun _ => minimal, BitVec.toInt_inj.mp ?_⟩
    rw [setVch64_toInt _ short, value]
  · intro vch short minimal
    rw [serialize64_eq, setVch64_toInt vch short, serialize_setVch vch minimal]
  · intro vch1 vch2 fRequireMinimal bn1 bn2 first second
    have bound : ∀ vch bn, scriptNum64 vch fRequireMinimal 4 = .ok bn →
        bn.toInt.natAbs < 256 ^ 4 := by
      intro vch bn read
      obtain ⟨short, -, rfl⟩ := (scriptNum64_ok _ _ _ _).mp read
      rw [setVch64_toInt vch (by omega)]
      exact setVch_bound vch short
    have left := bound vch1 bn1 first
    have right := bound vch2 bn2 second
    exact ⟨fun op => unary_exact op bn1 (by omega) (by omega),
      fun op => binary_exact op bn1 bn2 (by omega) (by omega)⟩

/-- A number that needs a byte for its sign, and two operands of four bytes. -/
theorem script_numbers_exact_sign :
    scriptNum64 [255, 128] true 8 = .ok (-255) ∧
      ∃ r, UnaryOp.run64 0x7fffffff .add1 = some r ∧ r.toInt = 2 ^ 31 := by
  obtain ⟨reads, -, exact⟩ := script_numbers_exact
  have read : scriptNum64 [255, 255, 255, 127] true 4 = .ok 0x7fffffff := by decide
  exact ⟨reads (-255) (by decide), (exact _ _ _ _ _ read read).1 .add1⟩

end RoiCoin
