import Mathlib.Data.Nat.Bits
import RoiCoin.Serialize
import RoiCoin.Transaction

/-! Partial Merkle trees (`merkleblock.h`, `merkleblock.cpp`). -/

namespace RoiCoin

open Codec

structure CPartialMerkleTree where
  nTransactions : BitVec 32
  vBits : List Bool
  vHash : List Uint256
  fBad : Bool
  deriving DecidableEq, Repr

/-! ## Shape of the tree -/

/-- The number of nodes at a height, with the source's 32-bit sum. -/
def calcTreeWidth (nTransactions : BitVec 32) (height : Nat) : Nat :=
  ((nTransactions + ((1 : BitVec 32) <<< height) - 1) >>> height).toNat

/-- The loop that looks for the height of the tree; `fuel` keeps the shift below the word. -/
def treeHeightFrom (nTransactions : BitVec 32) : Nat → Nat → Nat
  | 0, nHeight => nHeight
  | fuel + 1, nHeight =>
      if calcTreeWidth nTransactions nHeight > 1 then
        treeHeightFrom nTransactions fuel (nHeight + 1)
      else nHeight

def treeHeight (nTransactions : BitVec 32) : Nat := treeHeightFrom nTransactions 31 0

variable (hash : Uint256 → Uint256 → Uint256)

def calcHash (nTransactions : BitVec 32) (vTxid : List Uint256) : Nat → Nat → Uint256
  | 0, pos => vTxid.getD pos 0
  | height + 1, pos =>
      let left := calcHash nTransactions vTxid height (pos * 2)
      let right :=
        if pos * 2 + 1 < calcTreeWidth nTransactions height then
          calcHash nTransactions vTxid height (pos * 2 + 1)
        else left
      hash left right

/-! ## Building -/

/-- What lies below a node in a list with one entry for each transaction. -/
def below {α : Type} (height pos : Nat) (entries : List α) : List α :=
  (entries.drop (pos * 2 ^ height)).take (2 ^ height)

def parentOfMatch (nTransactions : BitVec 32) (vMatch : List Bool) (height pos : Nat) : Bool :=
  (below height pos (vMatch.take nTransactions.toNat)).any id

/-- The bits and the hashes that the traversal stores. -/
def traverseAndBuild (nTransactions : BitVec 32) (vTxid : List Uint256) (vMatch : List Bool) :
    Nat → Nat → List Bool × List Uint256
  | 0, pos =>
      ([parentOfMatch nTransactions vMatch 0 pos], [calcHash hash nTransactions vTxid 0 pos])
  | height + 1, pos =>
      if parentOfMatch nTransactions vMatch (height + 1) pos = false then
        ([false], [calcHash hash nTransactions vTxid (height + 1) pos])
      else
        let left := traverseAndBuild nTransactions vTxid vMatch height (pos * 2)
        if pos * 2 + 1 < calcTreeWidth nTransactions height then
          let right := traverseAndBuild nTransactions vTxid vMatch height (pos * 2 + 1)
          (true :: (left.1 ++ right.1), left.2 ++ right.2)
        else (true :: left.1, left.2)

/-- The constructor from the transaction ids of a block and a mask. -/
def CPartialMerkleTree.build (vTxid : List Uint256) (vMatch : List Bool) : CPartialMerkleTree :=
  let nTransactions := BitVec.ofNat 32 vTxid.length
  let stored :=
    traverseAndBuild hash nTransactions vTxid vMatch (treeHeight nTransactions) 0
  ⟨nTransactions, stored.1, stored.2, false⟩

/-! ## Extracting -/

/-- The cursors and outputs that `TraverseAndExtract` takes by reference. -/
structure Extraction where
  nBitsUsed : Nat
  nHashUsed : Nat
  vMatch : List Uint256
  fBad : Bool
  deriving DecidableEq, Repr

def Extraction.bad (state : Extraction) : Extraction := { state with fBad := true }

def CPartialMerkleTree.nextBit (tree : CPartialMerkleTree) (state : Extraction) :
    Option (Bool × Extraction) :=
  (tree.vBits[state.nBitsUsed]?).map fun fParentOfMatch =>
    (fParentOfMatch, { state with nBitsUsed := state.nBitsUsed + 1 })

/-- A node that is not descended into. -/
def CPartialMerkleTree.storedHash (tree : CPartialMerkleTree) (fMatched : Bool)
    (state : Extraction) : Uint256 × Extraction :=
  match tree.vHash[state.nHashUsed]? with
  | none => (0, state.bad)
  | some stored =>
      (stored, { state with
        nHashUsed := state.nHashUsed + 1
        vMatch := if fMatched then state.vMatch ++ [stored] else state.vMatch })

def traverseAndExtract (tree : CPartialMerkleTree) :
    Nat → Nat → Extraction → Uint256 × Extraction
  | 0, _, state =>
      match tree.nextBit state with
      | none => (0, state.bad)
      | some (fParentOfMatch, state) => tree.storedHash fParentOfMatch state
  | height + 1, pos, state =>
      match tree.nextBit state with
      | none => (0, state.bad)
      | some (false, state) => tree.storedHash false state
      | some (true, state) =>
          let left := traverseAndExtract tree height (pos * 2) state
          if pos * 2 + 1 < calcTreeWidth tree.nTransactions height then
            let right := traverseAndExtract tree height (pos * 2 + 1) left.2
            -- Equal branches are refused: the transactions under them must differ.
            (hash left.1 right.1, if right.1 = left.1 then right.2.bad else right.2)
          else (hash left.1 left.1, left.2)

/-- `ExtractMatches`: the root, zero in case of failure, and the final cursors. -/
def CPartialMerkleTree.extractMatches (tree : CPartialMerkleTree) : Uint256 × Extraction :=
  let start : Extraction := ⟨0, 0, [], tree.fBad⟩
  if tree.nTransactions = 0 then (0, start)
  else if tree.nTransactions.toNat > maxBlockSize / 60 then (0, start)
  else if tree.vHash.length > tree.nTransactions.toNat then (0, start)
  else if tree.vBits.length < tree.vHash.length then (0, start)
  else
    let (hashMerkleRoot, state) :=
      traverseAndExtract hash tree (treeHeight tree.nTransactions) 0 start
    if state.fBad then (0, state)
    else if (state.nBitsUsed + 7) / 8 ≠ (tree.vBits.length + 7) / 8 then (0, state)
    else if state.nHashUsed ≠ tree.vHash.length then (0, state)
    else (hashMerkleRoot, state)

/-! ## Serialization -/

/-- Up to eight bits, the least significant first. -/
def packByte (bits : List Bool) : UInt8 := UInt8.ofNat (bits.foldr Nat.bit 0)

def packBits (vBits : List Bool) : Bytes :=
  (List.range ((vBits.length + 7) / 8)).map fun i => packByte ((vBits.drop (8 * i)).take 8)

def unpackBits (vBytes : Bytes) : List Bool :=
  vBytes.flatMap fun byte => (List.range 8).map byte.toNat.testBit

def writeUint256 (n : Uint256) : Bytes := writeLE 32 n.toNat

def readUint256 : Reader Uint256 := do
  let n ← readFixed 32
  return BitVec.ofNat 256 n

def writePartialMerkleTree (tree : CPartialMerkleTree) : Bytes :=
  writeLE 4 tree.nTransactions.toNat ++ writeVector writeUint256 tree.vHash ++
    writeVector (fun byte => [byte]) (packBits tree.vBits)

def readPartialMerkleTree : Reader CPartialMerkleTree := do
  let nTransactions ← readFixed 4
  let vHash ← readVector readUint256
  let vBytes ← readVector readByte
  return ⟨BitVec.ofNat 32 nTransactions, unpackBits vBytes, vHash, false⟩

/-! ## Reading back what was written -/

theorem packByte_toNat (bits : List Bool) (short : bits.length ≤ 8) :
    (packByte bits).toNat = bits.foldr Nat.bit 0 := by
  have bound : ∀ list : List Bool, list.foldr Nat.bit 0 < 2 ^ list.length := by
    intro list
    induction list with
    | nil => decide
    | cons bit list ih =>
        rw [List.foldr_cons, List.length_cons, Nat.pow_succ, Nat.bit_val]
        cases bit <;> simp only [Bool.toNat_true, Bool.toNat_false] <;> omega
  have small : bits.foldr Nat.bit 0 < 256 :=
    Nat.lt_of_lt_of_le (bound bits) (Nat.pow_le_pow_right (by decide : 0 < 2) short)
  rw [packByte, UInt8.toNat_ofNat', Nat.mod_eq_of_lt small]

theorem testBit_foldr (bits : List Bool) (p : Nat) :
    (bits.foldr Nat.bit 0).testBit p = bits.getD p false := by
  induction bits generalizing p with
  | nil => simp
  | cons bit bits ih =>
      cases p with
      | zero => rw [List.foldr_cons, Nat.testBit_bit_zero, List.getD_cons_zero]
      | succ p => rw [List.foldr_cons, Nat.testBit_bit_succ, ih, List.getD_cons_succ]

/-- A byte gives its bits back, filled up with zeros. -/
theorem unpack_packByte (bits : List Bool) (short : bits.length ≤ 8) :
    (List.range 8).map (packByte bits).toNat.testBit =
      bits ++ List.replicate (8 - bits.length) false := by
  rw [packByte_toNat bits short]
  apply List.ext_getElem
  · simp only [List.length_map, List.length_range, List.length_append, List.length_replicate]
    omega
  · intro p left right
    rw [List.getElem_map, List.getElem_range, testBit_foldr, List.getD_eq_getElem?_getD,
      List.getElem_append]
    split_ifs with inside
    · rw [List.getElem?_eq_getElem inside, Option.getD_some]
    · rw [List.getElem?_eq_none (by omega), Option.getD_none, List.getElem_replicate]

theorem packBits_cons (vBits : List Bool) (nonempty : vBits ≠ []) :
    packBits vBits = packByte (vBits.take 8) :: packBits (vBits.drop 8) := by
  have positive : 0 < vBits.length := List.length_pos_iff.mpr nonempty
  have count : (vBits.length + 7) / 8 = ((vBits.drop 8).length + 7) / 8 + 1 := by
    rw [List.length_drop]
    omega
  rw [packBits, packBits, count, List.range_succ_eq_map, List.map_cons, List.map_map]
  congr 1
  apply List.map_congr_left
  intro i _
  simp only [Function.comp, List.drop_drop, Nat.mul_succ, Nat.succ_eq_add_one]
  rw [Nat.add_comm 8]

theorem unpack_packBits (vBits : List Bool) :
    unpackBits (packBits vBits) =
      vBits ++ List.replicate (8 * ((vBits.length + 7) / 8) - vBits.length) false := by
  induction size : vBits.length using Nat.strongRecOn generalizing vBits with
  | ind n ih =>
      subst size
      by_cases empty : vBits = []
      · subst empty
        rfl
      · have positive : 0 < vBits.length := List.length_pos_iff.mpr empty
        have shorter : (vBits.drop 8).length < vBits.length := by
          rw [List.length_drop]
          omega
        have rest := ih _ shorter (vBits.drop 8) rfl
        rw [packBits_cons vBits empty, unpackBits, List.flatMap_cons,
          unpack_packByte _ (List.length_take_le _ _), ← unpackBits, rest]
        by_cases last : vBits.length ≤ 8
        · rw [List.take_of_length_le last, List.drop_eq_nil_of_le last, List.nil_append]
          have padding : 8 * ((vBits.length + 7) / 8) - vBits.length = 8 - vBits.length := by omega
          rw [padding]
          exact List.append_nil _
        · have full : (vBits.take 8).length = 8 := by
            rw [List.length_take]
            omega
          have padding : 8 * (((vBits.drop 8).length + 7) / 8) - (vBits.drop 8).length =
              8 * ((vBits.length + 7) / 8) - vBits.length := by
            rw [List.length_drop]
            omega
          rw [full, padding, Nat.sub_self, List.replicate_zero, List.append_nil,
            ← List.append_assoc, List.take_append_drop]

theorem reads_uint256 (n : Uint256) : Reads readUint256 (writeUint256 n) n := by
  have whole := reads_return (readFixed 32) (BitVec.ofNat 256) _ _ (reads_fixed 32 n.toNat n.isLt)
  rwa [BitVec.ofNat_toNat, BitVec.setWidth_eq] at whole

/-- A tree read back has its bits filled up to whole bytes, and is not marked as bad. -/
theorem reads_partialMerkleTree (tree : CPartialMerkleTree) (hashes : tree.vHash.length ≤ maxSize)
    (bits : (tree.vBits.length + 7) / 8 ≤ maxSize) :
    Reads readPartialMerkleTree (writePartialMerkleTree tree)
      { tree with vBits := unpackBits (packBits tree.vBits), fBad := false } := by
  have bytes : (packBits tree.vBits).length ≤ maxSize := by
    rwa [packBits, List.length_map, List.length_range]
  rw [writePartialMerkleTree, List.append_assoc]
  apply reads_bind _ _ _ _ _ _ (reads_fixed 4 _ tree.nTransactions.isLt)
  apply reads_bind _ _ _ _ _ _
    (reads_vector readUint256 writeUint256 tree.vHash hashes fun n _ => reads_uint256 n)
  have whole : BitVec.ofNat 32 tree.nTransactions.toNat = tree.nTransactions := by
    rw [BitVec.ofNat_toNat, BitVec.setWidth_eq]
  rw [whole]
  exact reads_return _ _ _ _ (reads_vector readByte (fun byte => [byte]) (packBits tree.vBits) bytes
    fun byte _ => reads_byte byte)

end RoiCoin
