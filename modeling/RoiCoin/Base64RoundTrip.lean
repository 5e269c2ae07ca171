import RoiCoin.Base64
import RoiCoin.Lib.Regrouping

/-! What the strict decoders of base 64 and base 32 accept. -/

namespace RoiCoin

open RadixConversion Regrouping

theorem or_shifted (high low bits : Nat) (small : low < 2 ^ bits) :
    high * 2 ^ bits ||| low = high * 2 ^ bits + low := by
  rw [Nat.mul_comm, Nat.two_pow_add_eq_or_of_lt small]

theorem or_shiftedRight (high digit bits shift : Nat) (bounded : digit < 2 ^ bits)
    (within : shift ≤ bits) :
    high * 2 ^ (bits - shift) ||| digit >>> shift =
      high * 2 ^ (bits - shift) + digit / 2 ^ shift := by
  rw [Nat.shiftRight_eq_div_pow]
  apply or_shifted
  rw [Nat.div_lt_iff_lt_mul (Nat.two_pow_pos shift), ← pow_add, Nat.sub_add_cancel within]
  exact bounded

theorem low_bits (n bits : Nat) : n &&& (2 ^ bits - 1) = n % 2 ^ bits :=
  Nat.and_two_pow_sub_one_eq_mod n bits

/-! ## The machines -/

section Machines

variable (a b : Nat) (modes : List Nat)

/-- The characters stand for whole digits of the input, and `left` starts the next one. -/
structure Encoded (chars : Bytes) (input : List Nat) (st : EncodeState) (symbols : List Nat)
    (left bits : Nat) : Prop where
  strRet : st.strRet = symbols.map fun digit => chars.getD digit 0
  regrouped : Regrouped a b input symbols left bits
  mode : modes[st.mode]? = some bits
  left : st.mode ≠ 0 → st.left = left * 2 ^ (b - bits)

/-- The bytes are whole bytes of the input, and `left` is what remains. -/
structure Decoded (input : List Nat) (st : DecodeState) (bytes : List Nat) (left bits : Nat) :
    Prop where
  vchRet : st.vchRet = bytes.map UInt8.ofNat
  regrouped : Regrouped a b input bytes left bits
  mode : modes[st.mode]? = some bits
  left : st.mode ≠ 0 → st.left = left

variable {a b modes} {input : List Nat} {left bits : Nat}

/-- A step that writes a character, where `held` are the bits of `left`. -/
theorem Encoded.one {chars : Bytes} {st : EncodeState} {symbols : List Nat}
    (encoded : Encoded a b modes chars input st symbols left bits) (st' : EncodeState)
    (enc shift held : Nat) (bounded : enc < 2 ^ a) (within : shift ≤ a)
    (fills : bits + a = b + shift) (holds : held = left * 2 ^ (a - shift))
    (text : st'.strRet = st.strRet ++ [chars.getD (held ||| enc >>> shift) 0])
    (mode : modes[st'.mode]? = some shift)
    (kept : st'.mode ≠ 0 → st'.left = (enc &&& (2 ^ shift - 1)) <<< (b - shift)) :
    Encoded a b modes chars (input ++ [enc]) st'
      (symbols ++ [left * 2 ^ (a - shift) + enc / 2 ^ shift]) (enc % 2 ^ shift) shift where
  strRet := by
    rw [text, holds, or_shiftedRight left enc a shift bounded within, List.map_append,
      encoded.strRet]
    rfl
  regrouped := encoded.regrouped.one enc shift bounded within fills
  mode := mode
  left := fun started => by rw [kept started, low_bits, Nat.shiftLeft_eq]

/-- A step that writes two characters. -/
theorem Encoded.two {chars : Bytes} {st : EncodeState} {symbols : List Nat}
    (encoded : Encoded a b modes chars input st symbols left bits) (st' : EncodeState)
    (enc shift held : Nat) (bounded : enc < 2 ^ a) (within : b + shift ≤ a)
    (fills : bits + a = b + (b + shift)) (holds : held = left * 2 ^ (a - (b + shift)))
    (text : st'.strRet = st.strRet ++ [chars.getD (held ||| enc >>> (b + shift)) 0,
      chars.getD (enc >>> shift &&& (2 ^ b - 1)) 0])
    (mode : modes[st'.mode]? = some shift)
    (kept : st'.mode ≠ 0 → st'.left = (enc &&& (2 ^ shift - 1)) <<< (b - shift)) :
    Encoded a b modes chars (input ++ [enc]) st'
      (symbols ++ [left * 2 ^ (a - (b + shift)) + enc / 2 ^ (b + shift), enc / 2 ^ shift % 2 ^ b])
      (enc % 2 ^ shift) shift where
  strRet := by
    rw [text, holds, or_shiftedRight left enc a (b + shift) bounded within, low_bits,
      Nat.shiftRight_eq_div_pow, List.map_append, encoded.strRet]
    rfl
  regrouped := encoded.regrouped.two enc shift bounded within fills
  mode := mode
  left := fun started => by rw [kept started, low_bits, Nat.shiftLeft_eq]

/-- A step that writes a byte. -/
theorem Decoded.one {st : DecodeState} {bytes : List Nat}
    (decoded : Decoded a b modes input st bytes left bits) (st' : DecodeState) (dec shift : Nat)
    (bounded : dec < 2 ^ a) (within : shift ≤ a) (fills : bits + a = b + shift)
    (started : st.mode ≠ 0)
    (text : st'.vchRet = st.vchRet ++ [UInt8.ofNat (st.left <<< (a - shift) ||| dec >>> shift)])
    (mode : modes[st'.mode]? = some shift)
    (kept : st'.mode ≠ 0 → st'.left = dec &&& (2 ^ shift - 1)) :
    Decoded a b modes (input ++ [dec]) st'
      (bytes ++ [left * 2 ^ (a - shift) + dec / 2 ^ shift]) (dec % 2 ^ shift) shift where
  vchRet := by
    rw [text, decoded.left started, Nat.shiftLeft_eq,
      or_shiftedRight left dec a shift bounded within, List.map_append, decoded.vchRet]
    rfl
  regrouped := decoded.regrouped.one dec shift bounded within fills
  mode := mode
  left := fun again => by rw [kept again, low_bits]

/-- A step that writes nothing. -/
theorem Decoded.keep {st : DecodeState} {bytes : List Nat}
    (decoded : Decoded a b modes input st bytes left bits) (st' : DecodeState) (dec held : Nat)
    (bounded : dec < 2 ^ a) (holds : held = left) (text : st'.vchRet = st.vchRet)
    (mode : modes[st'.mode]? = some (bits + a)) (kept : st'.left = held <<< a ||| dec) :
    Decoded a b modes (input ++ [dec]) st' (bytes ++ []) (left * 2 ^ a + dec) (bits + a) where
  vchRet := by rw [text, List.append_nil, decoded.vchRet]
  regrouped := decoded.regrouped.keep dec bounded
  mode := mode
  left := fun _ => by rw [kept, holds, Nat.shiftLeft_eq, or_shifted left dec a bounded]

/-- Nothing is left over when no bits are. -/
theorem nothing_left (output : List Nat) (regrouped : Regrouped a b input output left 0) :
    left = 0 := by
  have small := regrouped.small
  omega

end Machines

/-! ## The steps of base 64 -/

/-- How many bits are left over in each mode. -/
def encodeBits64 : List Nat := [0, 2, 4]

def decodeBits64 : List Nat := [0, 6, 4, 2]

theorem encode64Step_encoded (input : List Nat) (st : EncodeState) (symbols : List Nat)
    (left bits enc : Nat) (encoded : Encoded 8 6 encodeBits64 pbase64 input st symbols left bits)
    (byte : enc < 256) : ∃ symbols left bits,
      Encoded 8 6 encodeBits64 pbase64 (input ++ [enc]) (encode64Step st enc) symbols left bits := by
  have mode := encoded.mode
  match position : st.mode with
  | 0 =>
      rw [position] at mode
      cases mode
      have holds : 0 = left * 2 ^ (8 - 2) := by
        rw [nothing_left symbols encoded.regrouped, Nat.zero_mul]
      exact ⟨_, _, _, encoded.one _ enc 2 0 byte (by decide) rfl holds
        (by simp [encode64Step, position]) (by simp [encode64Step, position, encodeBits64])
        (by simp [encode64Step, position])⟩
  | 1 =>
      rw [position] at mode
      cases mode
      have holds : st.left = left * 2 ^ (8 - 4) := encoded.left (by simp [position])
      exact ⟨_, _, _, encoded.one _ enc 4 st.left byte (by decide) rfl holds
        (by simp [encode64Step, position]) (by simp [encode64Step, position, encodeBits64])
        (by simp [encode64Step, position])⟩
  | 2 =>
      rw [position] at mode
      cases mode
      have holds : st.left = left * 2 ^ (8 - (6 + 0)) := encoded.left (by simp [position])
      exact ⟨_, _, _, encoded.two _ enc 0 st.left byte (by decide) rfl holds
        (by simp [encode64Step, position]) (by simp [encode64Step, position, encodeBits64])
        (by simp [encode64Step, position])⟩
  | n + 3 => simp [position, encodeBits64] at mode

theorem decode64Step_decoded (input : List Nat) (st : DecodeState) (bytes : List Nat)
    (left bits dec : Nat) (decoded : Decoded 6 8 decodeBits64 input st bytes left bits)
    (digit : dec < 64) : ∃ bytes left bits,
      Decoded 6 8 decodeBits64 (input ++ [dec]) (decode64Step st dec) bytes left bits := by
  have mode := decoded.mode
  match position : st.mode with
  | 0 =>
      rw [position] at mode
      cases mode
      have holds : 0 = left := (nothing_left bytes decoded.regrouped).symm
      exact ⟨_, _, _, decoded.keep _ dec 0 digit holds (by simp [decode64Step, position])
        (by simp [decode64Step, position, decodeBits64]) (by simp [decode64Step, position])⟩
  | 1 =>
      rw [position] at mode
      cases mode
      exact ⟨_, _, _, decoded.one _ dec 4 digit (by decide) rfl (by simp [position])
        (by simp [decode64Step, position]) (by simp [decode64Step, position, decodeBits64])
        (by simp [decode64Step, position])⟩
  | 2 =>
      rw [position] at mode
      cases mode
      exact ⟨_, _, _, decoded.one _ dec 2 digit (by decide) rfl (by simp [position])
        (by simp [decode64Step, position]) (by simp [decode64Step, position, decodeBits64])
        (by simp [decode64Step, position])⟩
  | 3 =>
      rw [position] at mode
      cases mode
      exact ⟨_, _, _, decoded.one _ dec 0 digit (by decide) rfl (by simp [position])
        (by simp [decode64Step, position]) (by simp [decode64Step, position, decodeBits64])
        (by simp [decode64Step, position])⟩
  | n + 4 => simp [position, decodeBits64] at mode

/-! ## The steps of base 32 -/

def encodeBits32 : List Nat := [0, 3, 1, 4, 2]

def decodeBits32 : List Nat := [0, 5, 2, 7, 4, 1, 6, 3]

theorem encode32Step_encoded (input : List Nat) (st : EncodeState) (symbols : List Nat)
    (left bits enc : Nat) (encoded : Encoded 8 5 encodeBits32 pbase32 input st symbols left bits)
    (byte : enc < 256) : ∃ symbols left bits,
      Encoded 8 5 encodeBits32 pbase32 (input ++ [enc]) (encode32Step st enc) symbols left bits := by
  have mode := encoded.mode
  match position : st.mode with
  | 0 =>
      rw [position] at mode
      cases mode
      have holds : 0 = left * 2 ^ (8 - 3) := by
        rw [nothing_left symbols encoded.regrouped, Nat.zero_mul]
      exact ⟨_, _, _, encoded.one _ enc 3 0 byte (by decide) rfl holds
        (by simp [encode32Step, position]) (by simp [encode32Step, position, encodeBits32])
        (by simp [encode32Step, position])⟩
  | 1 =>
      rw [position] at mode
      cases mode
      have holds : st.left = left * 2 ^ (8 - (5 + 1)) := encoded.left (by simp [position])
      exact ⟨_, _, _, encoded.two _ enc 1 st.left byte (by decide) rfl holds
        (by simp [encode32Step, position]) (by simp [encode32Step, position, encodeBits32])
        (by simp [encode32Step, position])⟩
  | 2 =>
      rw [position] at mode
      cases mode
      have holds : st.left = left * 2 ^ (8 - 4) := encoded.left (by simp [position])
      exact ⟨_, _, _, encoded.one _ enc 4 st.left byte (by decide) rfl holds
        (by simp [encode32Step, position]) (by simp [encode32Step, position, encodeBits32])
        (by simp [encode32Step, position])⟩
  | 3 =>
      rw [position] at mode
      cases mode
      have holds : st.left = left * 2 ^ (8 - (5 + 2)) := encoded.left (by simp [position])
      exact ⟨_, _, _, encoded.two _ enc 2 st.left byte (by decide) rfl holds
        (by simp [encode32Step, position]) (by simp [encode32Step, position, encodeBits32])
        (by simp [encode32Step, position])⟩
  | 4 =>
      rw [position] at mode
      cases mode
      have holds : st.left = left * 2 ^ (8 - (5 + 0)) := encoded.left (by simp [position])
      exact ⟨_, _, _, encoded.two _ enc 0 st.left byte (by decide) rfl holds
        (by simp [encode32Step, position]) (by simp [encode32Step, position, encodeBits32])
        (by simp [encode32Step, position])⟩
  | n + 5 => simp [position, encodeBits32] at mode

theorem decode32Step_decoded (input : List Nat) (st : DecodeState) (bytes : List Nat)
    (left bits dec : Nat) (decoded : Decoded 5 8 decodeBits32 input st bytes left bits)
    (digit : dec < 32) : ∃ bytes left bits,
      Decoded 5 8 decodeBits32 (input ++ [dec]) (decode32Step st dec) bytes left bits := by
  have mode := decoded.mode
  match position : st.mode with
  | 0 =>
      rw [position] at mode
      cases mode
      have holds : 0 = left := (nothing_left bytes decoded.regrouped).symm
      exact ⟨_, _, _, decoded.keep _ dec 0 digit holds (by simp [decode32Step, position])
        (by simp [decode32Step, position, decodeBits32]) (by simp [decode32Step, position])⟩
  | 1 =>
      rw [position] at mode
      cases mode
      exact ⟨_, _, _, decoded.one _ dec 2 digit (by decide) rfl (by simp [position])
        (by simp [decode32Step, position]) (by simp [decode32Step, position, decodeBits32])
        (by simp [decode32Step, position])⟩
  | 2 =>
      rw [position] at mode
      cases mode
      have holds : st.left = left := decoded.left (by simp [position])
      exact ⟨_, _, _, decoded.keep _ dec st.left digit holds (by simp [decode32Step, position])
        (by simp [decode32Step, position, decodeBits32]) (by simp [decode32Step, position])⟩
  | 3 =>
      rw [position] at mode
      cases mode
      exact ⟨_, _, _, decoded.one _ dec 4 digit (by decide) rfl (by simp [position])
        (by simp [decode32Step, position]) (by simp [decode32Step, position, decodeBits32])
        (by simp [decode32Step, position])⟩
  | 4 =>
      rw [position] at mode
      cases mode
      exact ⟨_, _, _, decoded.one _ dec 1 digit (by decide) rfl (by simp [position])
        (by simp [decode32Step, position]) (by simp [decode32Step, position, decodeBits32])
        (by simp [decode32Step, position])⟩
  | 5 =>
      rw [position] at mode
      cases mode
      have holds : st.left = left := decoded.left (by simp [position])
      exact ⟨_, _, _, decoded.keep _ dec st.left digit holds (by simp [decode32Step, position])
        (by simp [decode32Step, position, decodeBits32]) (by simp [decode32Step, position])⟩
  | 6 =>
      rw [position] at mode
      cases mode
      exact ⟨_, _, _, decoded.one _ dec 3 digit (by decide) rfl (by simp [position])
        (by simp [decode32Step, position]) (by simp [decode32Step, position, decodeBits32])
        (by simp [decode32Step, position])⟩
  | 7 =>
      rw [position] at mode
      cases mode
      exact ⟨_, _, _, decoded.one _ dec 0 digit (by decide) rfl (by simp [position])
        (by simp [decode32Step, position]) (by simp [decode32Step, position, decodeBits32])
        (by simp [decode32Step, position])⟩
  | n + 8 => simp [position, decodeBits32] at mode

/-! ## Runs of the machines -/

/-- The characters of a table, and the digits they stand for. -/
def inTable (table : List Int) (c : UInt8) : Bool := lookUp table c != -1

def digitIn (table : List Int) (c : UInt8) : Nat := (lookUp table c).toNat

theorem encoded_run (b : Nat) (modes : List Nat) (chars : Bytes)
    (step : EncodeState → Nat → EncodeState) (start : modes[0]? = some 0)
    (each : ∀ input st symbols left bits enc, Encoded 8 b modes chars input st symbols left bits →
      enc < 256 → ∃ symbols left bits,
        Encoded 8 b modes chars (input ++ [enc]) (step st enc) symbols left bits)
    (bytes : List Nat) (bounded : ∀ enc ∈ bytes, enc < 256) : ∃ symbols left bits,
      Encoded 8 b modes chars bytes (bytes.foldl step ⟨[], 0, 0⟩) symbols left bits := by
  induction bytes using List.reverseRecOn with
  | nil => exact ⟨[], 0, 0, rfl, regrouped_nil 8 b, start, fun moved => absurd rfl moved⟩
  | append_singleton bytes enc ih =>
      rw [List.forall_mem_append] at bounded
      obtain ⟨symbols, left, bits, encoded⟩ := ih bounded.1
      rw [List.foldl_append]
      exact each bytes _ symbols left bits enc encoded (bounded.2 enc List.mem_cons_self)

theorem decoded_run (b : Nat) (modes : List Nat) (step : DecodeState → Nat → DecodeState)
    (start : modes[0]? = some 0)
    (each : ∀ input st bytes left bits dec, Decoded b 8 modes input st bytes left bits →
      dec < 2 ^ b → ∃ bytes left bits,
        Decoded b 8 modes (input ++ [dec]) (step st dec) bytes left bits)
    (digits : List Nat) (bounded : ∀ dec ∈ digits, dec < 2 ^ b) : ∃ bytes left bits,
      Decoded b 8 modes digits (digits.foldl step ⟨[], 0, 0⟩) bytes left bits := by
  induction digits using List.reverseRecOn with
  | nil => exact ⟨[], 0, 0, rfl, regrouped_nil b 8, start, fun moved => absurd rfl moved⟩
  | append_singleton digits dec ih =>
      rw [List.forall_mem_append] at bounded
      obtain ⟨bytes, left, bits, decoded⟩ := ih bounded.1
      rw [List.foldl_append]
      exact each digits _ bytes left bits dec decoded (bounded.2 dec List.mem_cons_self)

theorem decodeLoopWith_eq (table : List Int) (step : DecodeState → Nat → DecodeState) (p : Bytes)
    (st : DecodeState) :
    decodeLoopWith table step p st =
      (((p.takeWhile (inTable table)).map (digitIn table)).foldl step st,
        p.dropWhile (inTable table)) := by
  induction p generalizing st with
  | nil => rfl
  | cons c p ih =>
      rw [decodeLoopWith]
      by_cases stops : lookUp table c = -1
      · have outside : ¬ inTable table c = true := by simp [inTable, stops]
        rw [if_pos stops, List.takeWhile_cons_of_neg outside, List.dropWhile_cons_of_neg outside]
        rfl
      · have inside : inTable table c = true := by simp [inTable, stops]
        rw [if_neg stops, ih, List.takeWhile_cons_of_pos inside, List.dropWhile_cons_of_pos inside]
        rfl

/-! ## Padding -/

/-- Nothing follows, or something that is no character of the table. -/
def endsBefore (table : List Int) (rest : Bytes) : Prop := lookUp table (charAt rest 0) = -1

theorem paddedBy_iff (table : List Int) (p : Bytes) (count : Nat) :
    paddedBy table p count = true ↔
      ∃ rest, p = List.replicate count equals ++ rest ∧ endsBefore table rest := by
  induction count generalizing p with
  | zero => simp [paddedBy, endsBefore]
  | succ count ih =>
      have other : (0 : UInt8) ≠ equals := by decide
      cases p with
      | nil => simp [paddedBy, List.range_succ_eq_map, charAt, other]
      | cons c p =>
          have shift : paddedBy table (c :: p) (count + 1) =
              (c == equals && paddedBy table p count) := by
            simp [paddedBy, List.range_succ_eq_map, charAt, Bool.and_assoc, Function.comp_def]
          rw [shift, Bool.and_eq_true, beq_iff_eq, ih, List.replicate_succ]
          constructor
          · intro both
            obtain ⟨same, rest, split, ends⟩ := both
            exact ⟨rest, by rw [same, split]; rfl, ends⟩
          · intro padded
            obtain ⟨rest, split, ends⟩ := padded
            rw [List.cons_append, List.cons.injEq] at split
            exact ⟨split.1, rest, split.2, ends⟩

/-! ## What is accepted -/

section Strict

/-- An alphabet, where `fold` takes the characters that the table finds to those that are
written. -/
structure Scheme (b : Nat) (chars : Bytes) (table : List Int) (fold : UInt8 → UInt8) : Prop where
  found : ∀ c, inTable table c = true →
    digitIn table c < 2 ^ b ∧ fold c = chars.getD (digitIn table c) 0
  inside : ∀ digit < 2 ^ b, ∀ c, fold c = chars.getD digit 0 →
    inTable table c = true ∧ digitIn table c = digit
  padding : ∀ c, fold c = equals ↔ c = equals
  outside : inTable table equals = false
  zero : lookUp table 0 = -1

variable (b : Nat) (chars : Bytes) (table : List Int) (fold : UInt8 → UInt8) (fill : Nat → Nat)

/-- The digits of the characters up to the first one that is not in the table. -/
theorem Scheme.digits (scheme : Scheme b chars table fold) (p : Bytes) :
    ∀ digit ∈ (p.takeWhile (inTable table)).map (digitIn table), digit < 2 ^ b := by
  intro digit member
  obtain ⟨c, inside, same⟩ := List.mem_map.mp member
  rw [← same]
  exact (scheme.found c (List.mem_takeWhile_imp inside)).1

/-- The text of padded digits, and so many `=`. -/
def Encodes (encode : Bytes → Bytes) : Prop :=
  ∀ pch : Bytes, ∃ symbols pad, Padded 8 b (pch.map UInt8.toNat) symbols pad ∧ pad < b ∧
    encode pch = (symbols.map fun digit => chars.getD digit 0) ++ List.replicate (fill pad) equals

/-- The bytes of the digits, valid if nothing but zero bits remains and the padding is right. -/
def Decodes (decode : Bytes → Bytes × Bool) : Prop :=
  ∀ p : Bytes, ∃ bytes left bits,
    Regrouped b 8 ((p.takeWhile (inTable table)).map (digitIn table)) bytes left bits ∧ bits < 8 ∧
    (decode p).1 = bytes.map UInt8.ofNat ∧ ((decode p).2 = false ↔
      left = 0 ∧ bits < b ∧ paddedBy table (p.dropWhile (inTable table)) (fill bits) = true)

/-- The string starts with the encoding, and ends or goes on with another character. -/
def Begins (encode : Bytes → Bytes) (p pch : Bytes) : Prop :=
  ∃ text rest, p = text ++ rest ∧ text.map fold = encode pch ∧ endsBefore table rest

variable (encode : Bytes → Bytes) (decode : Bytes → Bytes × Bool)
  (scheme : Scheme b chars table fold) (encodes : Encodes b chars fill encode)
  (decodes : Decodes b table fill decode)

include scheme in
/-- The characters that stand for digits are found in the table. -/
theorem text_digits (digits : List Nat) (bounded : ∀ digit ∈ digits, digit < 2 ^ b) (text : Bytes)
    (written : text.map fold = digits.map fun digit => chars.getD digit 0) :
    (∀ c ∈ text, inTable table c = true) ∧ text.map (digitIn table) = digits := by
  induction text generalizing digits with
  | nil =>
      cases digits with
      | nil => exact ⟨List.forall_mem_nil _, rfl⟩
      | cons digit digits => cases written
  | cons c text ih =>
      cases digits with
      | nil => cases written
      | cons digit digits =>
          rw [List.map_cons, List.map_cons, List.cons.injEq] at written
          rw [List.forall_mem_cons] at bounded
          obtain ⟨all, same⟩ := ih digits bounded.2 written.2
          obtain ⟨inside, own⟩ := scheme.inside digit bounded.1 c written.1
          exact ⟨List.forall_mem_cons.mpr ⟨inside, all⟩, by rw [List.map_cons, own, same]⟩

include scheme in
theorem fold_equals (text : Bytes) (count : Nat)
    (written : text.map fold = List.replicate count equals) :
    text = List.replicate count equals := by
  rw [List.eq_replicate_iff] at written ⊢
  rw [List.length_map] at written
  refine ⟨written.1, fun c member => ?_⟩
  exact (scheme.padding c).mp (written.2 (fold c) (List.mem_map_of_mem member))

include scheme in
/-- The loop stops where the digits end. -/
theorem split_text (text rest : Bytes) (count : Nat) (all : ∀ c ∈ text, inTable table c = true)
    (ends : endsBefore table rest) :
    (text ++ (List.replicate count equals ++ rest)).takeWhile (inTable table) = text ∧
      (text ++ (List.replicate count equals ++ rest)).dropWhile (inTable table) =
        List.replicate count equals ++ rest := by
  have stops : ∀ c, (List.replicate count equals ++ rest).head? = some c →
      ¬ inTable table c = true := by
    intro c first
    cases count with
    | zero =>
        cases rest with
        | nil => cases first
        | cons other rest =>
            cases first
            have last : lookUp table c = -1 := ends
            simp [inTable, last]
    | succ count =>
        cases first
        simp [scheme.outside]
  rw [List.takeWhile_append_of_pos all, List.dropWhile_append_of_pos all]
  cases tail : List.replicate count equals ++ rest with
  | nil => simp
  | cons c tail' =>
      have first := stops c (by rw [tail]; rfl)
      rw [List.takeWhile_cons_of_neg first, List.dropWhile_cons_of_neg first, List.append_nil]
      exact ⟨rfl, rfl⟩

theorem byte_bound (pch : Bytes) : ∀ byte ∈ pch.map UInt8.toNat, byte < 2 ^ 8 := by
  intro byte member
  obtain ⟨c, _, same⟩ := List.mem_map.mp member
  rw [← same]
  exact c.toNat_lt

include scheme encodes decodes in
/-- A string that begins with an encoding is decoded. -/
theorem decodes_of_begins (width : 0 < b ∧ b ≤ 8) (p pch : Bytes)
    (begins : Begins table fold encode p pch) : decode p = (pch, false) := by
  obtain ⟨text, rest, split, written, ends⟩ := begins
  obtain ⟨symbols, pad, padded, low, encoding⟩ := encodes pch
  rw [encoding, List.map_eq_append_iff] at written
  obtain ⟨body, tail, parts, body_written, tail_written⟩ := written
  obtain ⟨all, digits⟩ := text_digits b chars table fold scheme symbols padded.digits body
    body_written
  have filled := fold_equals b chars table fold scheme tail (fill pad) tail_written
  rw [parts, filled, List.append_assoc] at split
  obtain ⟨taken, dropped⟩ := split_text b chars table fold scheme body rest (fill pad) all ends
  obtain ⟨bytes, left, bits, regrouped, short, result, valid⟩ := decodes p
  rw [split, taken, digits] at regrouped
  obtain ⟨same, none, equal⟩ := padded.read_back (byte_bound pch) regrouped (by decide)
    (by omega) short
  subst none equal
  have accepted : (decode p).2 = false := by
    rw [valid, split, dropped, paddedBy_iff]
    exact ⟨rfl, low, rest, rfl, ends⟩
  have whole : (decode p).1 = pch := by
    rw [result, same]
    exact map_back UInt8.toNat UInt8.ofNat pch fun byte _ => UInt8.ofNat_toNat
  rw [← whole, ← accepted]

include scheme encodes decodes in
/-- A string that is reported valid begins with the encoding of the result. -/
theorem begins_of_decodes (width : 0 < b ∧ b ≤ 8) (p : Bytes) (valid : (decode p).2 = false) :
    Begins table fold encode p (decode p).1 := by
  obtain ⟨bytes, left, bits, regrouped, short, result, accepts⟩ := decodes p
  obtain ⟨none, low, filled⟩ := accepts.mp valid
  subst none
  obtain ⟨rest, split, ends⟩ := (paddedBy_iff table _ _).mp filled
  have all := fun c (member : c ∈ p.takeWhile (inTable table)) => List.mem_takeWhile_imp member
  have digits := scheme.digits b chars table fold p
  have bytes_back : (bytes.map UInt8.ofNat).map UInt8.toNat = bytes := by
    apply map_back UInt8.ofNat UInt8.toNat
    intro byte member
    rw [UInt8.toNat_ofNat']
    exact Nat.mod_eq_of_lt (regrouped.digits byte member)
  have padded := regrouped.padded digits
  obtain ⟨symbols, pad, padded', low', encoding⟩ := encodes (decode p).1
  rw [result, bytes_back] at padded'
  have same := padded.unique padded' width.1 low low'
  have length := padded.length
  have length' := padded'.length
  rw [same] at length
  have pads : bits = pad := by omega
  refine ⟨p.takeWhile (inTable table) ++ List.replicate (fill bits) equals, rest, ?_, ?_, ends⟩
  · rw [List.append_assoc, ← split, List.takeWhile_append_dropWhile]
  · rw [encoding, ← same, ← pads, List.map_append, List.map_replicate, (scheme.padding _).mpr rfl,
      List.map_map]
    congr 1
    apply List.map_congr_left
    intro c member
    exact (scheme.found c (all c member)).2

/-- What a decoder promises about a string, as text and as bytes. -/
structure DecodesStrictly (p : Bytes) : Prop where
  valid_iff : (decode p).2 = false ↔ ∃ pch, Begins table fold encode p pch
  result : ∀ pch, Begins table fold encode p pch → (decode p).1 = pch
  back : decode (encode p) = (p, false)

include scheme encodes decodes in
theorem decode_encode (width : 0 < b ∧ b ≤ 8)
    (fixed : ∀ digit < 2 ^ b, fold (chars.getD digit 0) = chars.getD digit 0) (pch : Bytes) :
    decode (encode pch) = (pch, false) := by
  apply decodes_of_begins b chars table fold fill encode decode scheme encodes decodes width
  refine ⟨encode pch, [], (List.append_nil _).symm, ?_, scheme.zero⟩
  obtain ⟨symbols, pad, padded, _, encoding⟩ := encodes pch
  rw [encoding, List.map_append, List.map_replicate, (scheme.padding _).mpr rfl, List.map_map]
  congr 1
  apply List.map_congr_left
  intro digit member
  exact fixed digit (padded.digits digit member)

include scheme encodes decodes in
theorem decodes_strictly (width : 0 < b ∧ b ≤ 8)
    (fixed : ∀ digit < 2 ^ b, fold (chars.getD digit 0) = chars.getD digit 0) (p : Bytes) :
    DecodesStrictly table fold encode decode p where
  valid_iff := by
    constructor
    · intro valid
      exact ⟨_, begins_of_decodes b chars table fold fill encode decode scheme encodes decodes width
        p valid⟩
    · intro begins
      obtain ⟨pch, begins⟩ := begins
      rw [decodes_of_begins b chars table fold fill encode decode scheme encodes decodes width p
        pch begins]
  result := by
    intro pch begins
    rw [decodes_of_begins b chars table fold fill encode decode scheme encodes decodes width p
      pch begins]
  back := decode_encode b chars table fold fill encode decode scheme encodes decodes width fixed p

end Strict

/-! ## Both encodings -/

/-- What is left of the last byte fills one more digit. -/
theorem encoded_text (b : Nat) (modes : List Nat) (chars : Bytes) (input : List Nat)
    (st : EncodeState) (symbols : List Nat) (left bits : Nat)
    (encoded : Encoded 8 b modes chars input st symbols left bits) (fill : Nat → Nat)
    (padding : Bytes) (starts : modes[0]? = some 0) (none : fill 0 = 0) (low : bits < b)
    (later : st.mode ≠ 0 → 0 < bits ∧ padding = List.replicate (fill (b - bits)) equals) :
    ∃ symbols pad, Padded 8 b input symbols pad ∧ pad < b ∧
      (if st.mode ≠ 0 then st.strRet ++ [chars.getD st.left 0] ++ padding else st.strRet) =
        (symbols.map fun digit => chars.getD digit 0) ++ List.replicate (fill pad) equals := by
  have regrouped := encoded.regrouped
  by_cases started : st.mode = 0
  · have mode := encoded.mode
    rw [started, starts, Option.some.injEq] at mode
    subst mode
    have rest : left = 0 := by
      have small := regrouped.small
      omega
    subst rest
    refine ⟨symbols, 0, regrouped.whole, low, ?_⟩
    rw [if_neg (not_not.mpr started), encoded.strRet, none, List.replicate_zero, List.append_nil]
  · obtain ⟨some, filled⟩ := later started
    refine ⟨_, b - bits, regrouped.fill (b - bits) (by omega), by omega, ?_⟩
    rw [if_pos started, encoded.strRet, encoded.left started, filled, List.map_append]
    rfl

def fill64 (pad : Nat) : Nat := pad / 2

def fill32 (pad : Nat) : Nat := [0, 3, 6, 1, 4].getD pad 0

theorem encodeBase64_encodes : Encodes 6 pbase64 fill64 encodeBase64 := by
  intro pch
  obtain ⟨symbols, left, bits, encoded⟩ := encoded_run 6 encodeBits64 pbase64 encode64Step rfl
    encode64Step_encoded (pch.map UInt8.toNat) (byte_bound pch)
  rw [encodeBase64]
  generalize (pch.map UInt8.toNat).foldl encode64Step ⟨[], 0, 0⟩ = st at encoded
  have padding : bits < 6 ∧ (st.mode ≠ 0 → 0 < bits ∧
      [equals] ++ (if st.mode = 1 then [equals] else []) =
        List.replicate (fill64 (6 - bits)) equals) := by
    have mode := encoded.mode
    match position : st.mode with
    | 0 =>
        rw [position] at mode
        cases mode
        exact ⟨by decide, fun started => absurd rfl started⟩
    | 1 =>
        rw [position] at mode
        cases mode
        exact ⟨by decide, fun _ => ⟨by decide, rfl⟩⟩
    | 2 =>
        rw [position] at mode
        cases mode
        exact ⟨by decide, fun _ => ⟨by decide, rfl⟩⟩
    | n + 3 => simp [position, encodeBits64] at mode
  have text := encoded_text 6 encodeBits64 pbase64 _ st symbols left bits encoded fill64 _ rfl rfl
    padding.1 padding.2
  simpa only [List.append_assoc] using text

theorem encodeBase32_encodes : Encodes 5 pbase32 fill32 encodeBase32 := by
  intro pch
  obtain ⟨symbols, left, bits, encoded⟩ := encoded_run 5 encodeBits32 pbase32 encode32Step rfl
    encode32Step_encoded (pch.map UInt8.toNat) (byte_bound pch)
  rw [encodeBase32]
  generalize (pch.map UInt8.toNat).foldl encode32Step ⟨[], 0, 0⟩ = st at encoded
  have padding : bits < 5 ∧ (st.mode ≠ 0 → 0 < bits ∧
      List.replicate (nPadding.getD st.mode 0) equals =
        List.replicate (fill32 (5 - bits)) equals) := by
    have mode := encoded.mode
    match position : st.mode with
    | 0 =>
        rw [position] at mode
        cases mode
        exact ⟨by decide, fun started => absurd rfl started⟩
    | 1 =>
        rw [position] at mode
        cases mode
        exact ⟨by decide, fun _ => ⟨by decide, rfl⟩⟩
    | 2 =>
        rw [position] at mode
        cases mode
        exact ⟨by decide, fun _ => ⟨by decide, rfl⟩⟩
    | 3 =>
        rw [position] at mode
        cases mode
        exact ⟨by decide, fun _ => ⟨by decide, rfl⟩⟩
    | 4 =>
        rw [position] at mode
        cases mode
        exact ⟨by decide, fun _ => ⟨by decide, rfl⟩⟩
    | n + 5 => simp [position, encodeBits32] at mode
  exact encoded_text 5 encodeBits32 pbase32 _ st symbols left bits encoded fill32 _ rfl rfl
    padding.1 padding.2

/-- The zero that ends a string is no character of the table. -/
theorem paddedBy_dropWhile (table : List Int) (p : Bytes) (zero : lookUp table 0 = -1) :
    paddedBy table (p.dropWhile (inTable table)) 0 = true := by
  cases rest : p.dropWhile (inTable table) with
  | nil => simp [paddedBy, charAt, zero]
  | cons c tail =>
      have stops := List.head?_dropWhile_not (inTable table) p
      rw [rest] at stops
      simpa [paddedBy, charAt, inTable] using stops

/-- Upper case letters are read as lower case ones. -/
def lower (c : UInt8) : UInt8 := if 0x41 ≤ c ∧ c ≤ 0x5a then c + 0x20 else c

theorem bytes_all (holds : UInt8 → Prop) (all : ∀ i < 256, holds (UInt8.ofNat i)) (c : UInt8) :
    holds c := by
  have own := all c.toNat c.toNat_lt
  rwa [UInt8.ofNat_toNat] at own

/-- What holds of every entry of a table and its index holds of every character. -/
theorem table_all (table : List Int) (size : table.length = 256) (holds : Int → UInt8 → Prop)
    (all : ∀ entry ∈ table.zipIdx, holds entry.1 (UInt8.ofNat entry.2)) (c : UInt8) :
    holds (lookUp table c) c := by
  have inside : c.toNat < table.length := size ▸ c.toNat_lt
  have member := all (table[c.toNat], c.toNat) (List.mem_zipIdx_iff_getElem?.mpr (by simp [inside]))
  rw [UInt8.ofNat_toNat] at member
  rwa [lookUp, List.getD_eq_getElem?_getD, List.getElem?_eq_getElem inside]

/-- The table finds the written characters, and a character as it is folded. -/
theorem inside_of_found (b : Nat) (chars : Bytes) (table : List Int) (fold : UInt8 → UInt8)
    (folded : ∀ c, lookUp table (fold c) = lookUp table c)
    (written : ∀ digit < 2 ^ b, lookUp table (chars.getD digit 0) = digit) (digit : Nat)
    (small : digit < 2 ^ b) (c : UInt8) (same : fold c = chars.getD digit 0) :
    inTable table c = true ∧ digitIn table c = digit := by
  have own : lookUp table c = digit := by rw [← folded, same, written digit small]
  have present : (digit : Int) ≠ -1 := by omega
  simp [inTable, digitIn, own, present]

theorem base64_scheme : Scheme 6 pbase64 decode64Table id where
  found := table_all decode64Table (by decide +kernel)
    (fun found c => (found != -1) = true → found.toNat < 2 ^ 6 ∧ c = pbase64.getD found.toNat 0)
    (by decide +kernel)
  inside := inside_of_found 6 pbase64 decode64Table id (fun _ => rfl) (by decide +kernel)
  padding := fun c => Iff.rfl
  outside := by decide
  zero := by decide

theorem lookUp_lower (c : UInt8) : lookUp decode32Table (lower c) = lookUp decode32Table c := by
  rw [lower]
  split
  · rename_i upper
    have all : ∀ i < 26, lookUp decode32Table (UInt8.ofNat (0x41 + i) + 0x20) =
        lookUp decode32Table (UInt8.ofNat (0x41 + i)) := by decide
    have within : 0x41 ≤ c.toNat ∧ c.toNat ≤ 0x5a := upper
    have own := all (c.toNat - 0x41) (by omega)
    have back : UInt8.ofNat (0x41 + (c.toNat - 0x41)) = c := by
      rw [Nat.add_sub_cancel' within.1, UInt8.ofNat_toNat]
    rwa [back] at own
  · rfl

theorem base32_scheme : Scheme 5 pbase32 decode32Table lower where
  found := table_all decode32Table (by decide +kernel)
    (fun found c => (found != -1) = true → found.toNat < 2 ^ 5 ∧ lower c = pbase32.getD found.toNat 0)
    (by decide +kernel)
  inside := inside_of_found 5 pbase32 decode32Table lower lookUp_lower (by decide +kernel)
  padding := bytes_all _ (by decide +kernel)
  outside := by decide
  zero := by decide

theorem decodeBase64_decodes : Decodes 6 decode64Table fill64 decodeBase64 := by
  intro p
  have digits := base64_scheme.digits _ _ _ _ p
  obtain ⟨bytes, left, bits, decoded⟩ := decoded_run 6 decodeBits64 decode64Step rfl
    decode64Step_decoded _ digits
  rw [decodeBase64, decodeLoopWith_eq]
  refine ⟨bytes, left, bits, decoded.regrouped, ?_⟩
  generalize ((p.takeWhile (inTable decode64Table)).map (digitIn decode64Table)).foldl decode64Step
    ⟨[], 0, 0⟩ = st at decoded
  have mode := decoded.mode
  have kept := decoded.left
  have small := decoded.regrouped.small
  match position : st.mode with
  | 0 =>
      rw [position] at mode
      cases mode
      have none : left = 0 := by omega
      have ends := paddedBy_dropWhile decode64Table p (by decide)
      exact ⟨by decide, decoded.vchRet, by simp [position, none, ends, fill64]⟩
  | 1 =>
      rw [position] at mode
      cases mode
      exact ⟨by decide, decoded.vchRet, by simp [position]⟩
  | 2 =>
      rw [position] at mode
      cases mode
      have start : st.left = left := kept (by simp [position])
      exact ⟨by decide, decoded.vchRet, by simp [position, start, fill64]⟩
  | 3 =>
      rw [position] at mode
      cases mode
      have start : st.left = left := kept (by simp [position])
      exact ⟨by decide, decoded.vchRet, by simp [position, start, fill64]⟩
  | n + 4 => simp [position, decodeBits64] at mode

theorem decodeBase32_decodes : Decodes 5 decode32Table fill32 decodeBase32 := by
  intro p
  have digits := base32_scheme.digits _ _ _ _ p
  obtain ⟨bytes, left, bits, decoded⟩ := decoded_run 5 decodeBits32 decode32Step rfl
    decode32Step_decoded _ digits
  rw [decodeBase32, decodeLoopWith_eq]
  refine ⟨bytes, left, bits, decoded.regrouped, ?_⟩
  generalize ((p.takeWhile (inTable decode32Table)).map (digitIn decode32Table)).foldl decode32Step
    ⟨[], 0, 0⟩ = st at decoded
  have mode := decoded.mode
  have kept := decoded.left
  have small := decoded.regrouped.small
  match position : st.mode with
  | 0 =>
      rw [position] at mode
      cases mode
      have none : left = 0 := by omega
      have ends := paddedBy_dropWhile decode32Table p (by decide)
      exact ⟨by decide, decoded.vchRet, by simp [position, none, ends, fill32]⟩
  | 1 =>
      rw [position] at mode
      cases mode
      exact ⟨by decide, decoded.vchRet, by simp [position]⟩
  | 2 =>
      rw [position] at mode
      cases mode
      have start : st.left = left := kept (by simp [position])
      exact ⟨by decide, decoded.vchRet, by simp [position, start, fill32]⟩
  | 3 =>
      rw [position] at mode
      cases mode
      exact ⟨by decide, decoded.vchRet, by simp [position]⟩
  | 4 =>
      rw [position] at mode
      cases mode
      have start : st.left = left := kept (by simp [position])
      exact ⟨by decide, decoded.vchRet, by simp [position, start, fill32]⟩
  | 5 =>
      rw [position] at mode
      cases mode
      have start : st.left = left := kept (by simp [position])
      exact ⟨by decide, decoded.vchRet, by simp [position, start, fill32]⟩
  | 6 =>
      rw [position] at mode
      cases mode
      exact ⟨by decide, decoded.vchRet, by simp [position]⟩
  | 7 =>
      rw [position] at mode
      cases mode
      have start : st.left = left := kept (by simp [position])
      exact ⟨by decide, decoded.vchRet, by simp [position, start, fill32]⟩
  | n + 8 => simp [position, decodeBits32] at mode

/-- A string is valid exactly if it begins with an encoding, in any case of the letters for base 32,
and ends there or goes on with a character that is not of the alphabet. -/
theorem strict_decoding (p : Bytes) :
    DecodesStrictly decode64Table id encodeBase64 decodeBase64 p ∧
      DecodesStrictly decode32Table lower encodeBase32 decodeBase32 p :=
  ⟨decodes_strictly 6 pbase64 decode64Table id fill64 encodeBase64 decodeBase64 base64_scheme
      encodeBase64_encodes decodeBase64_decodes (by decide) (fun _ _ => rfl) p,
    decodes_strictly 5 pbase32 decode32Table lower fill32 encodeBase32 decodeBase32 base32_scheme
      encodeBase32_encodes decodeBase32_decodes (by decide) (by decide) p⟩

/-- `QUJD!` and `QUJD=` -/
def longer64 : List Bytes := [['Q', 'U', 'J', 'D', '!'], ['Q', 'U', 'J', 'D', '=']].map (·.map charByte)

/-- `MY======` -/
def upper32 : Bytes := ['M', 'Y', '=', '=', '=', '=', '=', '='].map charByte

/-- A character after the encoding is not looked at, and upper case is read as lower case. -/
theorem strict_decoding_fails :
    (∀ p ∈ longer64, (decodeBase64 p).2 = false ∧ ∀ pch, encodeBase64 pch ≠ p) ∧
      (decodeBase32 upper32).2 = false ∧ ∀ pch, encodeBase32 pch ≠ upper32 := by
  have source64 (p pch : Bytes) (same : encodeBase64 pch = p) : pch = (decodeBase64 p).1 := by
    have back := decode_encode 6 pbase64 decode64Table id fill64 encodeBase64 decodeBase64
      base64_scheme encodeBase64_encodes decodeBase64_decodes (by decide) (fun _ _ => rfl) pch
    rw [← same, back]
  have source32 (p pch : Bytes) (same : encodeBase32 pch = p) : pch = (decodeBase32 p).1 := by
    have back := decode_encode 5 pbase32 decode32Table lower fill32 encodeBase32 decodeBase32
      base32_scheme encodeBase32_encodes decodeBase32_decodes (by decide) (by decide) pch
    rw [← same, back]
  refine ⟨?_, by decide +kernel, ?_⟩
  · have all : ∀ p ∈ longer64,
        (decodeBase64 p).2 = false ∧ encodeBase64 (decodeBase64 p).1 ≠ p := by decide +kernel
    intro p member
    refine ⟨(all p member).1, fun pch same => ?_⟩
    rw [source64 p pch same] at same
    exact (all p member).2 same
  · have other : encodeBase32 (decodeBase32 upper32).1 ≠ upper32 := by decide +kernel
    intro pch same
    rw [source32 upper32 pch same] at same
    exact other same

end RoiCoin
