import RoiCoin.CString

/-! Base 64 and base 32 (`utilstrencodings.cpp`).

The machines keep the bits that are left over in `left`; `mode` tells how many they are. A decoder
reads a C string, given as the bytes before its end. -/

namespace RoiCoin

structure EncodeState where
  strRet : Bytes
  mode : Nat
  left : Nat

structure DecodeState where
  vchRet : Bytes
  mode : Nat
  left : Nat

/-- The character at a position of a C string. -/
def charAt (p : Bytes) (i : Nat) : UInt8 := p.getD i 0

def equals : UInt8 := charByte '='

def lookUp (table : List Int) (c : UInt8) : Int := table.getD c.toNat (-1)

/-- The loop of the decoders: it stops at the first character that is not in the table, which the
end of the string is not. -/
def decodeLoopWith (table : List Int) (step : DecodeState → Nat → DecodeState) :
    Bytes → DecodeState → DecodeState × Bytes
  | [], st => (st, [])
  | c :: p, st =>
      if lookUp table c = -1 then (st, c :: p)
      else decodeLoopWith table step p (step st (lookUp table c).toNat)

/-- So many `=`, and no character of the table after them. -/
def paddedBy (table : List Int) (p : Bytes) (count : Nat) : Bool :=
  (List.range count).all (fun i => charAt p i == equals) && lookUp table (charAt p count) == -1

/-! ## Base 64 -/

def pbase64 : Bytes :=
  ['A', 'B', 'C', 'D', 'E', 'F', 'G', 'H', 'I', 'J', 'K', 'L', 'M', 'N', 'O', 'P', 'Q', 'R', 'S',
    'T', 'U', 'V', 'W', 'X', 'Y', 'Z', 'a', 'b', 'c', 'd', 'e', 'f', 'g', 'h', 'i', 'j', 'k',
    'l', 'm', 'n', 'o', 'p', 'q', 'r', 's', 't', 'u', 'v', 'w', 'x', 'y', 'z', '0', '1', '2',
    '3', '4', '5', '6', '7', '8', '9', '+', '/'].map charByte

def encode64Step (st : EncodeState) (enc : Nat) : EncodeState :=
  match st.mode with
  | 0 => ⟨st.strRet ++ [pbase64.getD (enc >>> 2) 0], 1, (enc &&& 3) <<< 4⟩
  | 1 => ⟨st.strRet ++ [pbase64.getD (st.left ||| enc >>> 4) 0], 2, (enc &&& 15) <<< 2⟩
  | 2 =>
      ⟨st.strRet ++ [pbase64.getD (st.left ||| enc >>> 6) 0, pbase64.getD (enc &&& 63) 0], 0,
        st.left⟩
  | _ => st

def encodeBase64 (pch : Bytes) : Bytes :=
  let st := (pch.map UInt8.toNat).foldl encode64Step ⟨[], 0, 0⟩
  if st.mode ≠ 0 then
    st.strRet ++ [pbase64.getD st.left 0] ++ [equals] ++ if st.mode = 1 then [equals] else []
  else st.strRet

def decode64Table : List Int := [
    -1, -1, -1, -1, -1, -1, -1, -1, -1, -1, -1, -1, -1, -1, -1, -1, -1, -1, -1, -1,
    -1, -1, -1, -1, -1, -1, -1, -1, -1, -1, -1, -1, -1, -1, -1, -1, -1, -1, -1, -1,
    -1, -1, -1, 62, -1, -1, -1, 63, 52, 53, 54, 55, 56, 57, 58, 59, 60, 61, -1, -1,
    -1, -1, -1, -1, -1, 0, 1, 2, 3, 4, 5, 6, 7, 8, 9, 10, 11, 12, 13, 14,
    15, 16, 17, 18, 19, 20, 21, 22, 23, 24, 25, -1, -1, -1, -1, -1, -1, 26, 27, 28,
    29, 30, 31, 32, 33, 34, 35, 36, 37, 38, 39, 40, 41, 42, 43, 44, 45, 46, 47, 48,
    49, 50, 51, -1, -1, -1, -1, -1, -1, -1, -1, -1, -1, -1, -1, -1, -1, -1, -1, -1,
    -1, -1, -1, -1, -1, -1, -1, -1, -1, -1, -1, -1, -1, -1, -1, -1, -1, -1, -1, -1,
    -1, -1, -1, -1, -1, -1, -1, -1, -1, -1, -1, -1, -1, -1, -1, -1, -1, -1, -1, -1,
    -1, -1, -1, -1, -1, -1, -1, -1, -1, -1, -1, -1, -1, -1, -1, -1, -1, -1, -1, -1,
    -1, -1, -1, -1, -1, -1, -1, -1, -1, -1, -1, -1, -1, -1, -1, -1, -1, -1, -1, -1,
    -1, -1, -1, -1, -1, -1, -1, -1, -1, -1, -1, -1, -1, -1, -1, -1, -1, -1, -1, -1,
    -1, -1, -1, -1, -1, -1, -1, -1, -1, -1, -1, -1, -1, -1, -1, -1]

def decode64Step (st : DecodeState) (dec : Nat) : DecodeState :=
  match st.mode with
  | 0 => ⟨st.vchRet, 1, dec⟩
  | 1 => ⟨st.vchRet ++ [UInt8.ofNat (st.left <<< 2 ||| dec >>> 4)], 2, dec &&& 15⟩
  | 2 => ⟨st.vchRet ++ [UInt8.ofNat (st.left <<< 4 ||| dec >>> 2)], 3, dec &&& 3⟩
  | 3 => ⟨st.vchRet ++ [UInt8.ofNat (st.left <<< 6 ||| dec)], 0, st.left⟩
  | _ => st

/-- The bytes, and `*pfInvalid`. -/
def decodeBase64 (p : Bytes) : Bytes × Bool :=
  let (st, p) := decodeLoopWith decode64Table decode64Step p ⟨[], 0, 0⟩
  let fInvalid :=
    match st.mode with
    | 1 => true
    | 2 => decide (st.left ≠ 0) || !paddedBy decode64Table p 2
    | 3 => decide (st.left ≠ 0) || !paddedBy decode64Table p 1
    | _ => false
  (st.vchRet, fInvalid)

/-! ## Base 32 -/

def pbase32 : Bytes :=
  ['a', 'b', 'c', 'd', 'e', 'f', 'g', 'h', 'i', 'j', 'k', 'l', 'm', 'n', 'o', 'p', 'q', 'r', 's',
    't', 'u', 'v', 'w', 'x', 'y', 'z', '2', '3', '4', '5', '6', '7'].map charByte

def encode32Step (st : EncodeState) (enc : Nat) : EncodeState :=
  match st.mode with
  | 0 => ⟨st.strRet ++ [pbase32.getD (enc >>> 3) 0], 1, (enc &&& 7) <<< 2⟩
  | 1 =>
      ⟨st.strRet ++ [pbase32.getD (st.left ||| enc >>> 6) 0, pbase32.getD (enc >>> 1 &&& 31) 0], 2,
        (enc &&& 1) <<< 4⟩
  | 2 => ⟨st.strRet ++ [pbase32.getD (st.left ||| enc >>> 4) 0], 3, (enc &&& 15) <<< 1⟩
  | 3 =>
      ⟨st.strRet ++ [pbase32.getD (st.left ||| enc >>> 7) 0, pbase32.getD (enc >>> 2 &&& 31) 0], 4,
        (enc &&& 3) <<< 3⟩
  | 4 =>
      ⟨st.strRet ++ [pbase32.getD (st.left ||| enc >>> 5) 0, pbase32.getD (enc &&& 31) 0], 0,
        st.left⟩
  | _ => st

def nPadding : List Nat := [0, 6, 4, 3, 1]

def encodeBase32 (pch : Bytes) : Bytes :=
  let st := (pch.map UInt8.toNat).foldl encode32Step ⟨[], 0, 0⟩
  if st.mode ≠ 0 then
    st.strRet ++ [pbase32.getD st.left 0] ++ List.replicate (nPadding.getD st.mode 0) equals
  else st.strRet

def decode32Table : List Int := [
    -1, -1, -1, -1, -1, -1, -1, -1, -1, -1, -1, -1, -1, -1, -1, -1, -1, -1, -1, -1,
    -1, -1, -1, -1, -1, -1, -1, -1, -1, -1, -1, -1, -1, -1, -1, -1, -1, -1, -1, -1,
    -1, -1, -1, -1, -1, -1, -1, -1, -1, -1, 26, 27, 28, 29, 30, 31, -1, -1, -1, -1,
    -1, -1, -1, -1, -1, 0, 1, 2, 3, 4, 5, 6, 7, 8, 9, 10, 11, 12, 13, 14,
    15, 16, 17, 18, 19, 20, 21, 22, 23, 24, 25, -1, -1, -1, -1, -1, -1, 0, 1, 2,
    3, 4, 5, 6, 7, 8, 9, 10, 11, 12, 13, 14, 15, 16, 17, 18, 19, 20, 21, 22,
    23, 24, 25, -1, -1, -1, -1, -1, -1, -1, -1, -1, -1, -1, -1, -1, -1, -1, -1, -1,
    -1, -1, -1, -1, -1, -1, -1, -1, -1, -1, -1, -1, -1, -1, -1, -1, -1, -1, -1, -1,
    -1, -1, -1, -1, -1, -1, -1, -1, -1, -1, -1, -1, -1, -1, -1, -1, -1, -1, -1, -1,
    -1, -1, -1, -1, -1, -1, -1, -1, -1, -1, -1, -1, -1, -1, -1, -1, -1, -1, -1, -1,
    -1, -1, -1, -1, -1, -1, -1, -1, -1, -1, -1, -1, -1, -1, -1, -1, -1, -1, -1, -1,
    -1, -1, -1, -1, -1, -1, -1, -1, -1, -1, -1, -1, -1, -1, -1, -1, -1, -1, -1, -1,
    -1, -1, -1, -1, -1, -1, -1, -1, -1, -1, -1, -1, -1, -1, -1, -1]

def decode32Step (st : DecodeState) (dec : Nat) : DecodeState :=
  match st.mode with
  | 0 => ⟨st.vchRet, 1, dec⟩
  | 1 => ⟨st.vchRet ++ [UInt8.ofNat (st.left <<< 3 ||| dec >>> 2)], 2, dec &&& 3⟩
  | 2 => ⟨st.vchRet, 3, st.left <<< 5 ||| dec⟩
  | 3 => ⟨st.vchRet ++ [UInt8.ofNat (st.left <<< 1 ||| dec >>> 4)], 4, dec &&& 15⟩
  | 4 => ⟨st.vchRet ++ [UInt8.ofNat (st.left <<< 4 ||| dec >>> 1)], 5, dec &&& 1⟩
  | 5 => ⟨st.vchRet, 6, st.left <<< 5 ||| dec⟩
  | 6 => ⟨st.vchRet ++ [UInt8.ofNat (st.left <<< 2 ||| dec >>> 3)], 7, dec &&& 7⟩
  | 7 => ⟨st.vchRet ++ [UInt8.ofNat (st.left <<< 5 ||| dec)], 0, st.left⟩
  | _ => st

/-- The bytes, and `*pfInvalid`. -/
def decodeBase32 (p : Bytes) : Bytes × Bool :=
  let (st, p) := decodeLoopWith decode32Table decode32Step p ⟨[], 0, 0⟩
  let fInvalid :=
    match st.mode with
    | 1 | 3 | 6 => true
    | 2 => decide (st.left ≠ 0) || !paddedBy decode32Table p 6
    | 4 => decide (st.left ≠ 0) || !paddedBy decode32Table p 4
    | 5 => decide (st.left ≠ 0) || !paddedBy decode32Table p 3
    | 7 => decide (st.left ≠ 0) || !paddedBy decode32Table p 1
    | _ => false
  (st.vchRet, fInvalid)

end RoiCoin
