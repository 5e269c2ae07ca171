import RoiCoin.Lib.Checked
import RoiCoin.Lib.PackedBits
import RoiCoin.Net.PartialMerkleTree
import RoiCoin.Script.SignatureHash
import RoiCoin.Script.Standard

/-! Bloom filters (`bloom.cpp`, `MurmurHash3` in `hash.cpp`).

A filter also records the keys put into it since it was loaded or cleared; no operation reads
that record. -/

namespace RoiCoin

open Checked PackedBits

/-! ## MurmurHash3 -/

def rotl32 (x : BitVec 32) (r : Nat) : BitVec 32 := (x <<< r) ||| (x >>> (32 - r))

def scrambleK1 (k1 : BitVec 32) : BitVec 32 := rotl32 (k1 * 0xcc9e2d51#32) 15 * 0x1b873593#32

def readLE32 (bytes : Bytes) : BitVec 32 := BitVec.ofNat 32 (readLE bytes)

/-- The body, and the bytes after the last whole block. -/
def murmurBody : BitVec 32 → Bytes → BitVec 32 × Bytes
  | h1, a :: b :: c :: d :: rest =>
      murmurBody (rotl32 (h1 ^^^ scrambleK1 (readLE32 [a, b, c, d])) 13 * 5#32 + 0xe6546b64#32) rest
  | h1, tail => (h1, tail)

def murmurFinal (h1 : BitVec 32) (size : Nat) : BitVec 32 :=
  let h1 := h1 ^^^ BitVec.ofNat 32 size
  let h1 := (h1 ^^^ (h1 >>> 16)) * 0x85ebca6b#32
  let h1 := (h1 ^^^ (h1 >>> 13)) * 0xc2b2ae35#32
  h1 ^^^ (h1 >>> 16)

def murmurHash3 (nHashSeed : BitVec 32) (vDataToHash : Bytes) : BitVec 32 :=
  let (h1, tail) := murmurBody nHashSeed vDataToHash
  -- the `switch` builds the word of the tail byte by byte
  let h1 := if tail = [] then h1 else h1 ^^^ scrambleK1 (readLE32 tail)
  murmurFinal h1 vDataToHash.length

/-! ## Filters -/

def maxBloomFilterSize : Nat := 36000
def maxHashFuncs : Nat := 50

def bloomUpdateNone : UInt8 := 0
def bloomUpdateAll : UInt8 := 1
def bloomUpdateP2PubkeyOnly : UInt8 := 2
def bloomUpdateMask : UInt8 := 3

structure CBloomFilter where
  vData : Bytes
  isFull : Bool
  isEmpty : Bool
  nHashFuncs : BitVec 32
  nTweak : BitVec 32
  nFlags : UInt8
  /-- The keys put in since the filter was loaded or cleared, the newest first. -/
  inserted : List Bytes
  deriving DecidableEq, Repr

/-- What a filter operation must not do. -/
inductive FilterFault where
  | divisionByZero
  | outOfBounds
  deriving DecidableEq, Repr

abbrev Filtering := Except FilterFault

namespace CBloomFilter

/-- `Hash` for a filter with data. -/
def position (filter : CBloomFilter) (nHashNum : Nat) (vDataToHash : Bytes) : Nat :=
  (murmurHash3 (BitVec.ofNat 32 nHashNum * 0xFBA4C795#32 + filter.nTweak) vDataToHash).toNat %
    (filter.vData.length * 8)

def hash (filter : CBloomFilter) (nHashNum : Nat) (vDataToHash : Bytes) : Filtering Nat :=
  if filter.vData.length * 8 = 0 then .error .divisionByZero
  else .ok (filter.position nHashNum vDataToHash)

/-- The loop of `insert` from hash number `i`, with so many hash functions left. -/
def insertLoop (vKey : Bytes) : Nat → Nat → CBloomFilter → Filtering CBloomFilter
  | 0, _, filter => .ok filter
  | left + 1, i, filter => do
      let nIndex ← filter.hash i vKey
      require (nIndex >>> 3 < filter.vData.length) .outOfBounds
      insertLoop vKey left (i + 1) { filter with vData := setBit filter.vData nIndex }

def insert (filter : CBloomFilter) (vKey : Bytes) : Filtering CBloomFilter :=
  if filter.isFull then .ok { filter with inserted := vKey :: filter.inserted }
  else do
    let filter ← insertLoop vKey filter.nHashFuncs.toNat 0 filter
    return { filter with isEmpty := false, inserted := vKey :: filter.inserted }

/-- `insert(const COutPoint&)` -/
def insertOutPoint (filter : CBloomFilter) (outpoint : COutPoint) : Filtering CBloomFilter :=
  filter.insert outpoint.write

def containsLoop (filter : CBloomFilter) (vKey : Bytes) : Nat → Nat → Filtering Bool
  | 0, _ => .ok true
  | left + 1, i => do
      let nIndex ← filter.hash i vKey
      require (nIndex >>> 3 < filter.vData.length) .outOfBounds
      if testBit filter.vData nIndex then filter.containsLoop vKey left (i + 1) else return false

def contains (filter : CBloomFilter) (vKey : Bytes) : Filtering Bool :=
  if filter.isFull then .ok true
  else if filter.isEmpty then .ok false
  else filter.containsLoop vKey filter.nHashFuncs.toNat 0

def containsOutPoint (filter : CBloomFilter) (outpoint : COutPoint) : Filtering Bool :=
  filter.contains outpoint.write

def containsHash (filter : CBloomFilter) (hash : Uint256) : Filtering Bool :=
  filter.contains (writeUint256 hash)

def clear (filter : CBloomFilter) : CBloomFilter :=
  { filter with
    vData := filter.vData.map fun _ => 0
    isFull := false
    isEmpty := true
    inserted := [] }

def reset (filter : CBloomFilter) (nNewTweak : BitVec 32) : CBloomFilter :=
  { filter.clear with nTweak := nNewTweak }

def isWithinSizeConstraints (filter : CBloomFilter) : Bool :=
  decide (filter.vData.length ≤ maxBloomFilterSize) &&
    decide (filter.nHashFuncs.toNat ≤ maxHashFuncs)

def updateEmptyFull (filter : CBloomFilter) : CBloomFilter :=
  { filter with
    isFull := filter.vData.all (· == 0xff)
    isEmpty := filter.vData.all (· == 0) }

/-- The filter of a `filterload` message; `none` counts as misbehaviour. -/
def load (vData : Bytes) (nHashFuncs nTweak : BitVec 32) (nFlags : UInt8) : Option CBloomFilter :=
  let filter : CBloomFilter := ⟨vData, true, false, nHashFuncs, nTweak, nFlags, []⟩
  if filter.isWithinSizeConstraints then some filter.updateEmptyFull else none

/-! ## Relevant transactions -/

/-- The loop through the operations of a script: some pushed data is in the filter. -/
def matchesScript (filter : CBloomFilter) : Nat → CScript → Filtering Bool
  | 0, _ => .ok false
  | fuel + 1, pc =>
      match getOp pc with
      | none => .ok false
      | some op => do
          let found ← if op.vch.length ≠ 0 then filter.contains op.vch else .ok false
          if found then return true else filter.matchesScript fuel op.rest

section Relevant

variable (getHash : CTransaction → Uint256) (fDatacarrier : Bool) (nMaxDatacarrierBytes : Nat)

/-- Whether a matched output is put into the filter; `Solver` can throw. -/
def updatesWith (nFlags : UInt8) (scriptPubKey : CScript) : Except ScriptFault Bool :=
  if nFlags &&& bloomUpdateMask = bloomUpdateAll then .ok true
  else if nFlags &&& bloomUpdateMask = bloomUpdateP2PubkeyOnly then
    (solver fDatacarrier nMaxDatacarrierBytes scriptPubKey).map fun solved =>
      solved.found && (solved.typeRet == .pubkey || solved.typeRet == .multisig)
  else .ok false

/-- The loop through the outputs from number `i`, with the value of `fFound` or what `Solver`
throws. -/
def matchOutputs (hash : Uint256) : Nat → List CTxOut → CBloomFilter → Bool →
    Filtering (CBloomFilter × Except ScriptFault Bool)
  | _, [], filter, fFound => .ok (filter, .ok fFound)
  | i, txout :: vout, filter, fFound => do
      let found ← filter.matchesScript txout.scriptPubKey.length txout.scriptPubKey
      if found then
        match updatesWith fDatacarrier nMaxDatacarrierBytes filter.nFlags txout.scriptPubKey with
        | .error fault => return (filter, .error fault)
        | .ok false => matchOutputs hash (i + 1) vout filter true
        | .ok true => do
            let filter ← filter.insertOutPoint ⟨hash, BitVec.ofNat 32 i⟩
            matchOutputs hash (i + 1) vout filter true
      else matchOutputs hash (i + 1) vout filter fFound

def matchInputs (filter : CBloomFilter) : List CTxIn → Filtering Bool
  | [] => .ok false
  | txin :: vin => do
      let spends ← filter.containsOutPoint txin.prevout
      if spends then return true
      else do
        let found ← filter.matchesScript txin.scriptSig.length txin.scriptSig
        if found then return true else filter.matchInputs vin

def isRelevantAndUpdate (filter : CBloomFilter) (tx : CTransaction) :
    Filtering (CBloomFilter × Except ScriptFault Bool) :=
  if filter.isFull then .ok (filter, .ok true)
  else if filter.isEmpty then .ok (filter, .ok false)
  else do
    let hash := getHash tx
    let fFound ← filter.containsHash hash
    let (filter, found) ←
      matchOutputs fDatacarrier nMaxDatacarrierBytes hash 0 tx.vout filter fFound
    match found with
    | .error fault => return (filter, .error fault)
    | .ok true => return (filter, .ok true)
    | .ok false => do
        let spends ← filter.matchInputs tx.vin
        return (filter, .ok spends)

end Relevant

end CBloomFilter

end RoiCoin
