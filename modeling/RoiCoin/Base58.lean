import RoiCoin.CString
import RoiCoin.Lib.Checked
import RoiCoin.Lib.RadixConversion
import Mathlib.Data.List.DropRight

/-! Base 58 (`base58.cpp`).

Sizes are natural numbers; the counter of leading zeros is an `int`. -/

namespace RoiCoin

open Checked RadixConversion

/-- How the conversions can fail other than by returning false. -/
inductive Base58Fault where
  /-- `assert(carry == 0)` -/
  | assertion
  | intOverflow
  deriving DecidableEq, Repr

abbrev Converting := Except Base58Fault

def pszBase58 : Bytes :=
  ['1', '2', '3', '4', '5', '6', '7', '8', '9', 'A', 'B', 'C', 'D', 'E', 'F', 'G', 'H', 'J', 'K',
    'L', 'M', 'N', 'P', 'Q', 'R', 'S', 'T', 'U', 'V', 'W', 'X', 'Y', 'Z', 'a', 'b', 'c', 'd', 'e',
    'f', 'g', 'h', 'i', 'j', 'k', 'm', 'n', 'o', 'p', 'q', 'r', 's', 't', 'u', 'v', 'w', 'x', 'y',
    'z'].map charByte

/-- A counter of type `int`. -/
def countInt (count : Nat) : Converting Nat :=
  if count < 2 ^ 31 then .ok count else .error .intOverflow

/-- The loop over the characters; `none` for one that is not of the alphabet. -/
def decodeLoop : Bytes → List Nat → Converting (Option (List Nat × Bytes))
  | [], b256 => .ok (some (b256, []))
  | ch :: psz, b256 =>
      if isSpace ch then .ok (some (b256, ch :: psz))
      else
        match pszBase58.idxOf? ch with
        | none => .ok none
        | some carry => do
            require ((push 256 58 carry b256).2 = 0) .assertion
            decodeLoop psz (push 256 58 carry b256).1

/-- `DecodeBase58(const char*, ..)` -/
def decodeBase58Psz (psz : Bytes) : Converting (Option Bytes) := do
  let psz := psz.dropWhile isSpace
  let zeroes ← countInt (psz.takeWhile (· == charByte '1')).length
  let psz := psz.dropWhile (· == charByte '1')
  let decoded ← decodeLoop psz (List.replicate (psz.length * 733 / 1000 + 1) 0)
  match decoded with
  | none => return none
  | some (b256, psz) =>
      if psz.dropWhile isSpace ≠ [] then return none
      else return some (List.replicate zeroes 0 ++ (stripped b256).map UInt8.ofNat)

def encodeLoop : Bytes → List Nat → Converting (List Nat)
  | [], b58 => .ok b58
  | byte :: bytes, b58 => do
      require ((push 58 256 byte.toNat b58).2 = 0) .assertion
      encodeLoop bytes (push 58 256 byte.toNat b58).1

def encodeBase58 (vch : Bytes) : Converting Bytes := do
  let zeroes ← countInt (vch.takeWhile (· == 0)).length
  let bytes := vch.dropWhile (· == 0)
  let b58 ← encodeLoop bytes (List.replicate (bytes.length * 138 / 100 + 1) 0)
  return List.replicate zeroes (charByte '1') ++
    (stripped b58).map fun digit => pszBase58.getD digit 0

/-- `DecodeBase58(const std::string&, ..)`, which passes `c_str()` on. -/
def decodeBase58 (str : Bytes) : Converting (Option Bytes) :=
  decodeBase58Psz (cStr str)

/-! ## The alphabet -/

theorem char_index : ∀ digit < 58, pszBase58.idxOf (pszBase58.getD digit 0) = digit := by decide

theorem char_member (digit : Nat) (small : digit < 58) : pszBase58.getD digit 0 ∈ pszBase58 := by
  have inside : digit < pszBase58.length := small
  rw [List.getD_eq_getElem?_getD, List.getElem?_eq_getElem inside]
  exact List.getElem_mem inside

theorem char_above : ∀ ch ∈ pszBase58, 0x31 ≤ ch := by decide +kernel

theorem char_visible (ch : UInt8) (member : ch ∈ pszBase58) : isSpace ch = false ∧ ch ≠ 0 := by
  have above : 0x31 ≤ ch.toNat := char_above ch member
  constructor
  · have plain : ch ≠ 0x20 := by
      rintro rfl
      exact absurd above (by decide)
    have late : ¬ ch ≤ 0x0d := fun control : ch.toNat ≤ 13 => by omega
    simp [isSpace, plain, late]
  · rintro rfl
    exact absurd above (by decide)

theorem char_one (ch : UInt8) (_ : ch ∈ pszBase58) :
    (ch == charByte '1') = (pszBase58.idxOf ch == 0) := by
  rw [pszBase58, List.map_cons, List.idxOf_cons, Bool.beq_comm]
  cases charByte '1' == ch <;> rfl

theorem char_found : ∀ ch ∈ pszBase58, pszBase58.idxOf? ch = some (pszBase58.idxOf ch) := by
  decide +kernel

def inAlphabet (ch : UInt8) : Bool := pszBase58.contains ch

@[simp] theorem inAlphabet_iff (ch : UInt8) : inAlphabet ch = true ↔ ch ∈ pszBase58 := by
  rw [inAlphabet, List.contains_iff_mem]

def toText (digits : List Nat) : Bytes := digits.map fun digit => pszBase58.getD digit 0

def digitsOf (text : Bytes) : List Nat := text.map pszBase58.idxOf

theorem index_char (ch : UInt8) (member : ch ∈ pszBase58) :
    pszBase58.getD (pszBase58.idxOf ch) 0 = ch := by
  rw [List.getD_eq_getElem?_getD, List.getElem?_idxOf member, Option.getD_some]

theorem digitsOf_lt (text : Bytes) (good : ∀ ch ∈ text, ch ∈ pszBase58) :
    ∀ digit ∈ digitsOf text, digit < 58 := by
  intro digit member
  obtain ⟨ch, inside, same⟩ := List.mem_map.mp member
  rw [← same]
  exact List.idxOf_lt_length_of_mem (good ch inside)

theorem toText_digitsOf (text : Bytes) (good : ∀ ch ∈ text, ch ∈ pszBase58) :
    toText (digitsOf text) = text :=
  map_back _ _ text fun ch member => index_char ch (good ch member)

theorem digitsOf_toText (digits : List Nat) (small : ∀ digit ∈ digits, digit < 58) :
    digitsOf (toText digits) = digits :=
  map_back _ _ digits fun digit member => char_index digit (small digit member)

theorem toText_good (digits : List Nat) (small : ∀ digit ∈ digits, digit < 58) :
    ∀ ch ∈ toText digits, ch ∈ pszBase58 := by
  intro ch member
  obtain ⟨digit, inside, same⟩ := List.mem_map.mp member
  rw [← same]
  exact char_member digit (small digit inside)

/-! ## Bytes as digits -/

def bytesDigits (vch : Bytes) : List Nat := vch.map UInt8.toNat

def toBytes (digits : List Nat) : Bytes := digits.map UInt8.ofNat

theorem bytesDigits_lt (vch : Bytes) : ∀ digit ∈ bytesDigits vch, digit < 256 := by
  intro digit member
  obtain ⟨byte, _, same⟩ := List.mem_map.mp member
  rw [← same]
  exact byte.toNat_lt

theorem toBytes_bytesDigits (vch : Bytes) : toBytes (bytesDigits vch) = vch :=
  map_back _ _ vch fun _ _ => UInt8.ofNat_toNat

theorem bytesDigits_toBytes (digits : List Nat) (small : ∀ digit ∈ digits, digit < 256) :
    bytesDigits (toBytes digits) = digits :=
  map_back _ _ digits fun digit member => Nat.mod_eq_of_lt (small digit member)

theorem zero_digit (byte : UInt8) : (byte == 0) = (byte.toNat == 0) := by
  rw [Bool.eq_iff_iff, beq_iff_eq, beq_iff_eq, ← UInt8.toNat_inj]
  rfl

theorem leading_bytesDigits (vch : Bytes) :
    leading (bytesDigits vch) = (vch.takeWhile (· == 0)).length := by
  rw [leading, bytesDigits, List.takeWhile_map, List.length_map]
  congr 2
  funext byte
  exact (zero_digit byte).symm

theorem stripped_bytesDigits (vch : Bytes) :
    bytesDigits (vch.dropWhile (· == 0)) = stripped (bytesDigits vch) := by
  rw [stripped, bytesDigits, bytesDigits, List.dropWhile_map]
  congr 2
  funext byte
  exact zero_digit byte

/-! ## Encoding -/

/-- The loop of `EncodeBase58` keeps in the buffer the number that was read. -/
theorem encodeLoop_ok (bytes : Bytes) (before b58 : List Nat) (small : ∀ digit ∈ b58, digit < 58)
    (same : value 58 b58 = value 256 before)
    (room : (value 256 before + 1) * 256 ^ bytes.length ≤ 58 ^ b58.length) :
    ∃ result, encodeLoop bytes b58 = .ok result ∧ (∀ digit ∈ result, digit < 58) ∧
      value 58 result = value 256 (before ++ bytesDigits bytes) := by
  induction bytes generalizing before b58 with
  | nil => exact ⟨b58, rfl, small, by simp [bytesDigits, same]⟩
  | cons byte bytes ih =>
      obtain ⟨fits, later⟩ := room_step 58 256 byte.toNat bytes.length b58.length
        (value 256 before) byte.toNat_lt room
      rw [← same] at fits
      obtain ⟨none, pushed⟩ := push_room 58 256 byte.toNat b58 fits
      rw [same, ← value_append] at pushed
      obtain ⟨result, loop, digits, total⟩ := ih (before ++ [byte.toNat])
        (push 58 256 byte.toNat b58).1 (push_lt 58 256 byte.toNat b58 (by decide)) pushed (by
          rw [value_append, length_push]
          exact later)
      refine ⟨result, ?_, digits, ?_⟩
      · have passed := require_of ((push 58 256 byte.toNat b58).2 = 0) Base58Fault.assertion none
        simp only [encodeLoop, passed, bind, Except.bind]
        exact loop
      · rw [total, List.append_assoc]
        rfl

/-- Encoding keeps the leading zeros and the number. -/
theorem encode_ok (vch : Bytes) (few : leading (bytesDigits vch) < 2 ^ 31) :
    encodeBase58 vch =
      .ok (toText (compose 58 (leading (bytesDigits vch)) (value 256 (bytesDigits vch)))) := by
  obtain ⟨bytes, rest⟩ : ∃ bytes, bytes = vch.dropWhile (· == 0) := ⟨_, rfl⟩
  have size : (List.replicate (bytes.length * 138 / 100 + 1) 0).length =
      bytes.length * 138 / 100 + 1 := List.length_replicate
  have close : 256 ^ 100 ≤ 58 ^ 138 := by norm_num
  have room := size_suffices 58 256 138 100 bytes.length (by decide) (by decide) close
  obtain ⟨b58, loop, small, total⟩ := encodeLoop_ok bytes []
    (List.replicate (bytes.length * 138 / 100 + 1) 0)
    (fun digit member => by
      rw [(List.mem_replicate.mp member).2]
      decide)
    (value_zeros 58 _) (by
      rw [size, value_nil, Nat.zero_add, Nat.one_mul]
      exact Nat.le_of_lt room)
  rw [List.nil_append, rest, stripped_bytesDigits, value_stripped] at total
  have counted : countInt (vch.takeWhile (· == 0)).length = .ok (leading (bytesDigits vch)) := by
    rw [← leading_bytesDigits, countInt, if_pos few]
  simp only [encodeBase58, counted, ← rest, loop, bind, Except.bind]
  rw [stripped_eq 58 b58 (by decide) small, total, compose, toText, List.map_append,
    List.map_replicate]
  rfl

theorem encode_overflow (vch : Bytes) (many : ¬ leading (bytesDigits vch) < 2 ^ 31) :
    encodeBase58 vch = .error .intOverflow := by
  have counted : countInt (vch.takeWhile (· == 0)).length = .error .intOverflow := by
    rw [← leading_bytesDigits, countInt, if_neg many]
  simp only [encodeBase58, counted, bind, Except.bind]

/-! ## Decoding -/

def trimSpace (str : Bytes) : Bytes := (str.dropWhile isSpace).rdropWhile isSpace

/-- The characters of the alphabet after leading spaces. -/
def base58Text (psz : Bytes) : Bytes := (psz.dropWhile isSpace).takeWhile inAlphabet

def afterText (psz : Bytes) : Bytes := (psz.dropWhile isSpace).dropWhile inAlphabet

/-- Spaces, characters of the alphabet, spaces. -/
def isBase58 (psz : Bytes) : Bool := (afterText psz).all isSpace

theorem base58Text_good (psz : Bytes) : ∀ ch ∈ base58Text psz, ch ∈ pszBase58 := by
  intro ch member
  exact (inAlphabet_iff ch).mp (List.mem_takeWhile_imp member)

theorem one_inAlphabet (ch : UInt8) (one : (ch == charByte '1') = true) :
    inAlphabet ch = true := by
  rw [beq_iff_eq] at one
  subst one
  decide

/-- Skipping the ones first does not change where the text ends. -/
theorem skip_ones (body : Bytes) :
    (body.dropWhile (· == charByte '1')).takeWhile inAlphabet =
        (body.takeWhile inAlphabet).dropWhile (· == charByte '1') ∧
      (body.dropWhile (· == charByte '1')).dropWhile inAlphabet = body.dropWhile inAlphabet ∧
      (body.takeWhile inAlphabet).takeWhile (· == charByte '1') =
        body.takeWhile (· == charByte '1') := by
  induction body with
  | nil => exact ⟨rfl, rfl, rfl⟩
  | cons ch body ih =>
      by_cases one : (ch == charByte '1') = true
      · simpa [one, one_inAlphabet ch one] using ih
      · by_cases good : inAlphabet ch = true
        · simp [one, good]
        · simp [one, good]

theorem leading_digitsOf (text : Bytes) (good : ∀ ch ∈ text, ch ∈ pszBase58) :
    leading (digitsOf text) = (text.takeWhile (· == charByte '1')).length ∧
      digitsOf (text.dropWhile (· == charByte '1')) = stripped (digitsOf text) := by
  induction text with
  | nil => exact ⟨rfl, rfl⟩
  | cons ch text ih =>
      obtain ⟨inside, others⟩ := List.forall_mem_cons.mp good
      obtain ⟨zeros, rest⟩ := ih others
      have same := char_one ch inside
      by_cases one : (ch == charByte '1') = true
      · rw [one] at same
        simp only [leading, stripped, digitsOf] at zeros rest
        simp [leading, stripped, digitsOf, one, ← same, zeros, rest]
      · rw [Bool.not_eq_true] at one
        rw [one] at same
        simp [leading, stripped, digitsOf, one, ← same]

/-- The loop ends without refusing the string at its end or at a space. -/
def endsText : Bytes → Bool
  | [] => true
  | ch :: _ => isSpace ch

/-- The loop of `DecodeBase58` keeps in the buffer the number that was read. -/
theorem decodeLoop_ok (psz : Bytes) (before b256 : List Nat) (small : ∀ digit ∈ b256, digit < 256)
    (same : value 256 b256 = value 58 before)
    (room : (value 58 before + 1) * 58 ^ psz.length ≤ 256 ^ b256.length) :
    ∃ result, decodeLoop psz b256 =
        .ok (if endsText (psz.dropWhile inAlphabet) then some (result, psz.dropWhile inAlphabet)
          else none) ∧
      (∀ digit ∈ result, digit < 256) ∧
      value 256 result = value 58 (before ++ digitsOf (psz.takeWhile inAlphabet)) := by
  induction psz generalizing before b256 with
  | nil => exact ⟨b256, rfl, small, by simp [digitsOf, same]⟩
  | cons ch psz ih =>
      by_cases good : inAlphabet ch = true
      · have member := (inAlphabet_iff ch).mp good
        have visible := (char_visible ch member).1
        have index := char_found ch member
        have digit : pszBase58.idxOf ch < 58 := List.idxOf_lt_length_of_mem member
        obtain ⟨fits, later⟩ := room_step 256 58 (pszBase58.idxOf ch) psz.length b256.length
          (value 58 before) digit room
        rw [← same] at fits
        obtain ⟨none, pushed⟩ := push_room 256 58 (pszBase58.idxOf ch) b256 fits
        rw [same, ← value_append] at pushed
        obtain ⟨result, loop, digits, total⟩ := ih (before ++ [pszBase58.idxOf ch])
          (push 256 58 (pszBase58.idxOf ch) b256).1 (push_lt 256 58 _ b256 (by decide)) pushed (by
            rw [value_append, length_push]
            exact later)
        refine ⟨result, ?_, digits, ?_⟩
        · have passed := require_of ((push 256 58 (pszBase58.idxOf ch) b256).2 = 0)
            Base58Fault.assertion none
          rw [List.dropWhile_cons_of_pos good, decodeLoop, visible, index]
          simp only [passed, bind, Except.bind, Bool.false_eq_true, if_false]
          exact loop
        · rw [total, List.takeWhile_cons_of_pos good, List.append_assoc]
          rfl
      · rw [List.dropWhile_cons_of_neg good, List.takeWhile_cons_of_neg good]
        refine ⟨b256, ?_, small, by simp [digitsOf, same]⟩
        have missing : pszBase58.idxOf? ch = none := by
          rw [List.idxOf?_eq_none_iff]
          exact fun member => good ((inAlphabet_iff ch).mpr member)
        rw [decodeLoop, missing, endsText]
        split <;> rfl

/-- Decoding keeps the leading zeros and the number, and refuses what is not base 58. -/
theorem decode_ok (psz : Bytes) (few : leading (digitsOf (base58Text psz)) < 2 ^ 31) :
    decodeBase58Psz psz =
      .ok (if isBase58 psz then
          some (toBytes (compose 256 (leading (digitsOf (base58Text psz)))
            (value 58 (digitsOf (base58Text psz)))))
        else none) := by
  obtain ⟨text, rest, ones⟩ := skip_ones (psz.dropWhile isSpace)
  obtain ⟨zeros, digits⟩ := leading_digitsOf (base58Text psz) (base58Text_good psz)
  obtain ⟨body, skipped⟩ :
    ∃ body, body = (psz.dropWhile isSpace).dropWhile (· == charByte '1') := ⟨_, rfl⟩
  have size : (List.replicate (body.length * 733 / 1000 + 1) 0).length =
      body.length * 733 / 1000 + 1 := List.length_replicate
  have close : 58 ^ 1000 ≤ 256 ^ 733 := by decide +kernel
  have room := size_suffices 256 58 733 1000 body.length (by decide) (by decide) close
  obtain ⟨b256, loop, small, total⟩ := decodeLoop_ok body []
    (List.replicate (body.length * 733 / 1000 + 1) 0)
    (fun digit member => by
      rw [(List.mem_replicate.mp member).2]
      decide)
    (value_zeros 256 _) (by
      rw [size, value_nil, Nat.zero_add, Nat.one_mul]
      exact Nat.le_of_lt room)
  have counted : countInt ((psz.dropWhile isSpace).takeWhile (· == charByte '1')).length =
      .ok (leading (digitsOf (base58Text psz))) := by
    rw [← ones, ← base58Text, ← zeros, countInt, if_pos few]
  rw [List.nil_append, skipped, text, ← base58Text, digits, value_stripped] at total
  rw [skipped, rest, ← skipped, ← afterText] at loop
  have written : (stripped b256).map UInt8.ofNat =
      toBytes (Nat.digits 256 (value 58 (digitsOf (base58Text psz)))).reverse := by
    rw [stripped_eq 256 b256 (by decide) small, total, toBytes]
  simp only [decodeBase58Psz, counted, ← skipped, loop, bind, Except.bind]
  by_cases good : isBase58 psz = true
  · have spaces : (afterText psz).dropWhile isSpace = [] := by
      rw [List.dropWhile_eq_nil_iff]
      exact List.all_eq_true.mp good
    have stops : endsText (afterText psz) = true := by
      cases after : afterText psz with
      | nil => rfl
      | cons ch others =>
          rw [isBase58, after, List.all_cons, Bool.and_eq_true] at good
          exact good.1
    simp only [stops, good, spaces, written, if_true, ne_eq, not_true_eq_false, if_false]
    simp only [compose, toBytes, List.map_append, List.map_replicate]
    rfl
  · have visible : (afterText psz).dropWhile isSpace ≠ [] := by
      intro empty
      rw [List.dropWhile_eq_nil_iff] at empty
      exact good (List.all_eq_true.mpr empty)
    by_cases stops : endsText (afterText psz) = true
    · simp only [stops, good, if_true, visible, ne_eq, not_false_eq_true]
      rfl
    · simp only [stops, good]
      rfl

theorem decode_overflow (psz : Bytes) (many : ¬ leading (digitsOf (base58Text psz)) < 2 ^ 31) :
    decodeBase58Psz psz = .error .intOverflow := by
  obtain ⟨_, _, ones⟩ := skip_ones (psz.dropWhile isSpace)
  obtain ⟨zeros, _⟩ := leading_digitsOf (base58Text psz) (base58Text_good psz)
  have counted : countInt ((psz.dropWhile isSpace).takeWhile (· == charByte '1')).length =
      .error .intOverflow := by
    rw [← ones, ← base58Text, ← zeros, countInt, if_neg many]
  simp only [decodeBase58Psz, counted, bind, Except.bind]

/-! ## Both directions -/

/-- A text of the alphabet is read as a whole. -/
theorem text_whole (text : Bytes) (good : ∀ ch ∈ text, ch ∈ pszBase58) :
    cStr text = text ∧ base58Text text = text ∧ isBase58 text = true := by
  have plain : text.dropWhile isSpace = text := by
    cases text with
    | nil => rfl
    | cons ch others =>
        have visible := (char_visible ch (good ch List.mem_cons_self)).1
        rw [List.dropWhile_cons_of_neg (by simp [visible])]
  have inside : ∀ ch ∈ text, inAlphabet ch = true :=
    fun ch member => (inAlphabet_iff ch).mpr (good ch member)
  refine ⟨?_, ?_, ?_⟩
  · exact cStr_plain text fun zero => (char_visible 0 (good 0 zero)).2 rfl
  · rw [base58Text, plain, List.takeWhile_eq_self_iff]
    exact inside
  · rw [isBase58, afterText, plain, List.dropWhile_eq_nil_iff.mpr inside, List.all_nil]

theorem trimSpace_text (psz : Bytes) (good : isBase58 psz = true) :
    trimSpace psz = base58Text psz := by
  have spaces := List.all_eq_true.mp good
  have body : psz.dropWhile isSpace = base58Text psz ++ afterText psz :=
    List.takeWhile_append_dropWhile.symm
  rw [trimSpace, body, List.rdropWhile, List.reverse_append, List.dropWhile_append_of_pos]
  · have visible : (base58Text psz).reverse.dropWhile isSpace = (base58Text psz).reverse := by
      cases text : (base58Text psz).reverse with
      | nil => rfl
      | cons ch others =>
          have member : ch ∈ base58Text psz := by
            rw [← List.mem_reverse, text]
            exact List.mem_cons_self
          have seen := (char_visible ch (base58Text_good psz ch member)).1
          rw [List.dropWhile_cons_of_neg (by simp [seen])]
    rw [visible, List.reverse_reverse]
  · intro ch member
    exact spaces ch (List.mem_reverse.mp member)

/-- The end of a C string stays in what is left of the string without spaces. -/
theorem zero_in_trimSpace (str : Bytes) (zero : 0 ∈ str) : 0 ∈ trimSpace str := by
  have visible : isSpace 0 = false := by decide
  have keeps (list : Bytes) (member : 0 ∈ list) : 0 ∈ list.dropWhile isSpace := by
    have split := List.takeWhile_append_dropWhile (p := isSpace) (l := list)
    rw [← split, List.mem_append] at member
    rcases member with early | late
    · have space := List.mem_takeWhile_imp early
      rw [visible] at space
      cases space
    · exact late
  rw [trimSpace, List.rdropWhile, List.mem_reverse]
  exact keeps _ (List.mem_reverse.mpr (keeps str zero))

/-- The string is decoded without failing, and if it is accepted it is the encoding of the result,
up to spaces around it. -/
def ReadsBack (str : Bytes) : Prop :=
  ∃ decoded, decodeBase58 str = .ok decoded ∧
    ∀ vch, decoded = some vch → encodeBase58 vch = .ok (trimSpace str)

theorem encode_decoded (zeros n : Nat) (few : zeros < 2 ^ 31) :
    encodeBase58 (toBytes (compose 256 zeros n)) = .ok (toText (compose 58 zeros n)) := by
  have digits := bytesDigits_toBytes (compose 256 zeros n) (compose_lt 256 zeros n (by decide))
  have encoded := encode_ok (toBytes (compose 256 zeros n)) (by
    rw [digits, leading_compose]
    exact few)
  rwa [digits, leading_compose, value_compose] at encoded

theorem readsBack_iff (str : Bytes) :
    ReadsBack str ↔ leading (digitsOf (base58Text (cStr str))) < 2 ^ 31 ∧
      (0 ∉ str ∨ isBase58 (cStr str) = false) := by
  by_cases few : leading (digitsOf (base58Text (cStr str))) < 2 ^ 31
  · have decoded : decodeBase58 str = _ := decode_ok (cStr str) few
    by_cases good : isBase58 (cStr str) = true
    · rw [if_pos good] at decoded
      have text := base58Text_good (cStr str)
      have encoded := encode_decoded _ (value 58 (digitsOf (base58Text (cStr str)))) few
      rw [compose_leading 58 _ (by decide) (digitsOf_lt _ text), toText_digitsOf _ text] at encoded
      have same : ReadsBack str ↔ base58Text (cStr str) = trimSpace str := by
        rw [ReadsBack, decoded]
        simp [encoded]
      rw [same]
      constructor
      · intro equal
        refine ⟨few, Or.inl fun zero => ?_⟩
        have inside := zero_in_trimSpace str zero
        rw [← equal] at inside
        exact (char_visible 0 (text 0 inside)).2 rfl
      · intro condition
        have plain := condition.2.resolve_right (by simp [good])
        have whole := cStr_plain str plain
        rw [whole] at good ⊢
        exact (trimSpace_text str good).symm
    · rw [if_neg good] at decoded
      have refused : ReadsBack str := ⟨none, decoded, fun _ given => by cases given⟩
      exact iff_of_true refused ⟨few, Or.inr (by simpa using good)⟩
  · have failed : decodeBase58 str = .error .intOverflow := decode_overflow (cStr str) few
    refine iff_of_false (fun readsBack => ?_) (fun condition => few condition.1)
    obtain ⟨decoded, found, _⟩ := readsBack
    rw [failed] at found
    cases found

/-- Encoded bytes decode to themselves exactly if the leading zeros can be counted, and a string
reads back exactly if its ones can be counted and it does not go on after a C string that would be
accepted. -/
theorem base58_round_trip (vch str : Bytes) :
    ((∃ encoded, encodeBase58 vch = .ok encoded ∧ decodeBase58 encoded = .ok (some vch)) ↔
      leading (bytesDigits vch) < 2 ^ 31) ∧
    (ReadsBack str ↔ leading (digitsOf (base58Text (cStr str))) < 2 ^ 31 ∧
      (0 ∉ str ∨ isBase58 (cStr str) = false)) := by
  refine ⟨?_, readsBack_iff str⟩
  constructor
  · intro round
    obtain ⟨str, encoded, _⟩ := round
    by_contra many
    rw [encode_overflow vch many] at encoded
    cases encoded
  · intro few
    have small :=
      compose_lt 58 (leading (bytesDigits vch)) (value 256 (bytesDigits vch)) (by decide)
    obtain ⟨plain, text, good⟩ := text_whole _ (toText_good _ small)
    have digits := digitsOf_toText _ small
    refine ⟨_, encode_ok vch few, ?_⟩
    have decoded := decode_ok (toText (compose 58 (leading (bytesDigits vch))
      (value 256 (bytesDigits vch)))) (by
        rw [text, digits, leading_compose]
        exact few)
    rw [if_pos good, text, digits, leading_compose, value_compose,
      compose_leading 256 _ (by decide) (bytesDigits_lt vch), toBytes_bytesDigits] at decoded
    rw [decodeBase58, plain]
    exact decoded

theorem encode_zeros (count : Nat) (many : 2 ^ 31 ≤ count) :
    encodeBase58 (List.replicate count 0) = .error .intOverflow := by
  apply encode_overflow
  have whole : (List.replicate count (0 : UInt8)).takeWhile (· == 0) = List.replicate count 0 := by
    rw [List.takeWhile_eq_self_iff]
    intro byte member
    rw [(List.mem_replicate.mp member).2, beq_self_eq_true]
  rw [leading_bytesDigits, whole, List.length_replicate]
  exact Nat.not_lt_of_le many

/-- The byte zero ends the string that is decoded; leading zeros are counted in an `int`. -/
theorem base58_round_trip_fails :
    (decodeBase58 [charByte '2', 0, charByte '!'] = .ok (some [1]) ∧
      encodeBase58 [1] = .ok [charByte '2'] ∧ ¬ ReadsBack [charByte '2', 0, charByte '!']) ∧
    encodeBase58 (List.replicate (2 ^ 31) 0) = .error .intOverflow := by
  refine ⟨⟨by decide +kernel, by decide +kernel, ?_⟩, encode_zeros (2 ^ 31) (Nat.le_refl _)⟩
  rw [readsBack_iff]
  decide +kernel

end RoiCoin
