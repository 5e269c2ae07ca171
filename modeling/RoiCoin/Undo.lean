import RoiCoin.Coins
import RoiCoin.Compressor

/-! Undo information (`undo.h`): what a block spends, in the order in which it spends it, and
the record of it on disk. -/

namespace RoiCoin

open Codec

structure CTxInUndo where
  txout : CTxOut
  fCoinBase : Bool
  nHeight : Nat
  nVersion : Int
  deriving DecidableEq, Repr

/-- `vprevout` of one transaction. -/
abbrev CTxUndo := List CTxInUndo

/-- `vtxundo` of one block; the coinbase has none. -/
abbrev CBlockUndo := List CTxUndo

/-- Conversion to `unsigned int`. -/
def unsigned32 (n : Int) : Nat := (n % 2 ^ 32).toNat

/-- Conversion to `int`. -/
def signed32 (n : Int) : Int := (n + 2 ^ 31) % 2 ^ 32 - 2 ^ 31

/-- The undo record of an output, given its record after the output was spent: height, version
and coinbase flag are kept when that was the last output. -/
def CTxInUndo.ofSpent (txout : CTxOut) (coins : CCoins) : CTxInUndo :=
  if coins.vout = [] then ⟨txout, coins.fCoinBase, unsigned32 coins.nHeight, coins.nVersion⟩
  else ⟨txout, false, 0, 0⟩

/-! ## Serialization -/

/-- The version is written only with a height. -/
def writeUndoVersion (nHeight : Nat) (nVersion : Int) : Bytes :=
  if nHeight > 0 then writeVarIntSigned nVersion else []

def writeTxInUndo (curve : Curve) (undo : CTxInUndo) : Bytes :=
  writeVarInt 32 ((undo.nHeight * 2 + if undo.fCoinBase then 1 else 0) % 2 ^ 32) ++
    (writeUndoVersion undo.nHeight undo.nVersion ++ writeTxOut curve undo.txout)

def readUndoVersion (nHeight : Nat) : Reader Int :=
  if nHeight > 0 then do
    let nVersion ← readVarInt 32
    return signed32 nVersion
  else pure 0

/-- What follows `nCode`. -/
def readUndoAfter (curve : Curve) (nCode : Nat) : Reader CTxInUndo := do
  let nVersion ← readUndoVersion (nCode / 2)
  let txout ← readTxOut curve
  return ⟨txout, nCode % 2 == 1, nCode / 2, nVersion⟩

def readTxInUndo (curve : Curve) : Reader CTxInUndo := do
  let nCode ← readVarInt 32
  readUndoAfter curve nCode

def writeBlockUndo (curve : Curve) : CBlockUndo → Bytes :=
  writeVector (writeVector (writeTxInUndo curve))

def readBlockUndo (curve : Curve) : Reader CBlockUndo :=
  readVector (readVector (readTxInUndo curve))

/-- The curve library and the checksum over the parent hash and the serialized undo data. -/
structure UndoFile where
  curve : Curve
  checksum : Uint256 → Bytes → Uint256

/-- The record of `UndoWriteToDisk` from `pos.nPos` on. -/
def undoWriteToDisk (file : UndoFile) (blockundo : CBlockUndo) (hashBlock : Uint256) : Bytes :=
  writeBlockUndo file.curve blockundo ++
    writeLE 32 (file.checksum hashBlock (writeBlockUndo file.curve blockundo)).toNat

def readUndoRecord (file : UndoFile) : Reader (CBlockUndo × Nat) := do
  let blockundo ← readBlockUndo file.curve
  let hashChecksum ← readFixed 32
  return (blockundo, hashChecksum)

/-- `none` where the source reports an error. -/
def undoReadFromDisk (file : UndoFile) (data : Bytes) (hashBlock : Uint256) : Option CBlockUndo :=
  match (readUndoRecord file).run data with
  | none => none
  | some ((blockundo, hashChecksum), _) =>
      if hashChecksum = (file.checksum hashBlock (writeBlockUndo file.curve blockundo)).toNat then
        some blockundo
      else none

/-! ## Reading back undo data -/

/-- What is read back of an undo record: a negative version keeps its low seven bits. -/
def CTxInUndo.stored (undo : CTxInUndo) : CTxInUndo :=
  { undo with
    nVersion := if undo.nHeight > 0 then
        if undo.nVersion < 0 then undo.nVersion % 128 else undo.nVersion
      else 0 }

structure CTxInUndo.Storable (undo : CTxInUndo) : Prop where
  height : undo.nHeight < 2 ^ 31
  version : undo.nVersion < 2 ^ 31
  amount : moneyRange undo.txout.nValue = true
  script : undo.txout.scriptPubKey.length + nSpecialScripts < 2 ^ 32

theorem stored_version (nHeight : Nat) (nVersion : Int) :
    writeUndoVersion nHeight (if nHeight > 0 then
        if nVersion < 0 then nVersion % 128 else nVersion
      else 0) = writeUndoVersion nHeight nVersion := by
  rw [writeUndoVersion, writeUndoVersion]
  split
  · split
    · rename_i negative
      have nonneg : ¬ nVersion % 128 < 0 := by omega
      rw [writeVarIntSigned_neg nVersion negative, writeVarIntSigned, if_neg nonneg]
    · rfl
  · rfl

/-- Writing again what was read gives the same bytes. -/
theorem write_stored (curve : Curve) (undo : CTxInUndo) :
    writeTxInUndo curve undo.stored = writeTxInUndo curve undo := by
  rw [writeTxInUndo, writeTxInUndo, CTxInUndo.stored, stored_version]

theorem reads_undoVersion (nHeight : Nat) (nVersion : Int) (fits : nVersion < 2 ^ 31) :
    Reads (readUndoVersion nHeight) (writeUndoVersion nHeight nVersion)
      (if nHeight > 0 then if nVersion < 0 then nVersion % 128 else nVersion else 0) := by
  rw [readUndoVersion, writeUndoVersion]
  split
  · have whole := reads_return (readVarInt 32) (fun nVersion => signed32 nVersion) _ _
      (reads_varIntSigned nVersion fits)
    have same : signed32 ((if nVersion < 0 then nVersion % 128 else nVersion).toNat : Nat) =
        if nVersion < 0 then nVersion % 128 else nVersion := by
      rw [signed32]
      split <;> omega
    rwa [same] at whole
  · exact reads_pure 0

theorem reads_txInUndo (curve : Curve) (curveOk : curve.Decompresses) (undo : CTxInUndo)
    (storable : undo.Storable) :
    Reads (readTxInUndo curve) (writeTxInUndo curve undo) undo.stored := by
  have height := storable.height
  have flag : (if undo.fCoinBase = true then 1 else 0) < 2 := by split <;> omega
  rw [writeTxInUndo, Nat.mod_eq_of_lt (by omega)]
  apply reads_bind (readVarInt 32) _ _ _ _ _ (reads_varInt 32 _ (by omega))
  have nHeight : (undo.nHeight * 2 + if undo.fCoinBase = true then 1 else 0) / 2 = undo.nHeight := by
    omega
  have fCoinBase : ((undo.nHeight * 2 + if undo.fCoinBase = true then 1 else 0) % 2 == 1) =
      undo.fCoinBase := by
    cases undo.fCoinBase <;> simp
  rw [readUndoAfter, nHeight, fCoinBase]
  apply reads_bind _ _ _ _ _ _ (reads_undoVersion undo.nHeight undo.nVersion storable.version)
  exact reads_return (readTxOut curve) (fun txout => CTxInUndo.mk txout undo.fCoinBase undo.nHeight _)
    _ _ (reads_txOut curve curveOk undo.txout storable.amount storable.script)

/-- The sizes and records of undo data that can be read back. -/
structure StorableUndo (blockundo : CBlockUndo) : Prop where
  count : blockundo.length ≤ maxSize
  counts : ∀ txundo ∈ blockundo, txundo.length ≤ maxSize
  records : ∀ txundo ∈ blockundo, ∀ undo ∈ txundo, undo.Storable

def storedUndo (blockundo : CBlockUndo) : CBlockUndo :=
  blockundo.map fun txundo => txundo.map CTxInUndo.stored

theorem write_storedUndo (curve : Curve) (blockundo : CBlockUndo) :
    writeBlockUndo curve (storedUndo blockundo) = writeBlockUndo curve blockundo := by
  have inner : ∀ txundo : CTxUndo,
      writeVector (writeTxInUndo curve) (txundo.map CTxInUndo.stored) =
        writeVector (writeTxInUndo curve) txundo := by
    intro txundo
    simp only [writeVector, List.length_map, List.flatMap_map, write_stored]
  simp only [writeBlockUndo, storedUndo]
  rw [writeVector, writeVector, List.length_map, List.flatMap_map]
  simp only [inner]

theorem reads_blockUndo (curve : Curve) (curveOk : curve.Decompresses) (blockundo : CBlockUndo)
    (storable : StorableUndo blockundo) :
    Reads (readBlockUndo curve) (writeBlockUndo curve blockundo) (storedUndo blockundo) := by
  rw [← write_storedUndo]
  apply reads_vector
  · rw [storedUndo, List.length_map]
    exact storable.count
  · intro storedTx member
    obtain ⟨txundo, among, rfl⟩ := List.mem_map.mp member
    apply reads_vector
    · rw [List.length_map]
      exact storable.counts txundo among
    · intro storedIn inside
      obtain ⟨undo, here, rfl⟩ := List.mem_map.mp inside
      rw [write_stored]
      exact reads_txInUndo curve curveOk undo (storable.records txundo among undo here)

theorem undoRead_write (file : UndoFile) (curveOk : file.curve.Decompresses)
    (blockundo : CBlockUndo) (hashBlock : Uint256) (after : Bytes)
    (storable : StorableUndo blockundo) :
    undoReadFromDisk file (undoWriteToDisk file blockundo hashBlock ++ after) hashBlock =
      some (storedUndo blockundo) := by
  have small : (file.checksum hashBlock (writeBlockUndo file.curve blockundo)).toNat < 256 ^ 32 :=
    (file.checksum hashBlock (writeBlockUndo file.curve blockundo)).isLt
  have record : Reads (readUndoRecord file) (undoWriteToDisk file blockundo hashBlock)
      (storedUndo blockundo,
        (file.checksum hashBlock (writeBlockUndo file.curve blockundo)).toNat) := by
    apply reads_bind _ _ _ _ _ _ (reads_blockUndo file.curve curveOk blockundo storable)
    exact reads_return (readFixed 32) (fun hashChecksum => (storedUndo blockundo, hashChecksum))
      _ _ (reads_fixed 32 _ small)
  rw [undoReadFromDisk, record after]
  simp only [write_storedUndo, if_true]

end RoiCoin
