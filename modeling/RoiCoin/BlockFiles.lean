import RoiCoin.Lib.Journal
import RoiCoin.Undo
import RoiCoin.Validation.AcceptBlock

/-! The block and undo files (`vinfoBlockFile`, `FindBlockPos`, `FindUndoPos`, `FlushBlockFile`) and
the batches of the block index database (`WriteBatchSync`).

A record of a file is named by the hash of its block. Pre-allocating a range of a file writes no
record. -/

namespace RoiCoin

def maxBlockfileSize : Nat := 0x8000000
def blockfileChunkSize : Nat := 0x1000000
def undofileChunkSize : Nat := 0x100000
def nMinDiskSpace : Nat := 52428800

/-- `CheckDiskSpace`, with the space that is free at the call. -/
def checkDiskSpace (nFreeBytesAvailable nAdditionalBytes : Nat) : Bool :=
  decide (nMinDiskSpace + nAdditionalBytes ≤ nFreeBytesAvailable)

structure CBlockFileInfo where
  nBlocks : Nat
  nSize : Nat
  nUndoSize : Nat
  nHeightFirst : Nat
  nHeightLast : Nat
  nTimeFirst : Nat
  nTimeLast : Nat
  deriving DecidableEq, Repr

namespace CBlockFileInfo

def null : CBlockFileInfo := ⟨0, 0, 0, 0, 0, 0, 0⟩

/-- `AddBlock` leaves `nSize` to its caller. -/
def addBlock (info : CBlockFileInfo) (nHeightIn nTimeIn : Nat) : CBlockFileInfo :=
  { info with
    nHeightFirst :=
      if info.nBlocks = 0 ∨ info.nHeightFirst > nHeightIn then nHeightIn else info.nHeightFirst
    nTimeFirst := if info.nBlocks = 0 ∨ info.nTimeFirst > nTimeIn then nTimeIn else info.nTimeFirst
    nBlocks := info.nBlocks + 1
    nHeightLast := if nHeightIn > info.nHeightLast then nHeightIn else info.nHeightLast
    nTimeLast := if nTimeIn > info.nTimeLast then nTimeIn else info.nTimeLast }

end CBlockFileInfo

/-- The fields of an entry that its record in the database keeps. -/
structure StoredEntry where
  pprev : Option Uint256
  nHeight : Nat
  nStatus : BlockStatus
  nTx : Nat
  nFile : Nat
  nBits : BitVec 32
  deriving DecidableEq, Repr

def BlockEntry.stored (entry : BlockEntry) : StoredEntry where
  pprev := entry.pprev
  nHeight := entry.nHeight
  nStatus := entry.nStatus
  nTx := entry.nTx
  nFile := entry.nFile
  nBits := entry.nBits

/-- A batch of the block index database; `blk` and `rev` are the files when it was written. -/
structure IndexBatch where
  fileInfo : List (Nat × CBlockFileInfo)
  nLastFile : Nat
  blockinfo : List (Uint256 × StoredEntry)
  blk : Nat → Journal Uint256
  rev : Nat → Journal Uint256

/-- The block tree with the files that its entries point into; `blocktree` holds the batches that
the database has taken, the last one first. -/
structure BlockStore where
  chain : ChainState
  vinfoBlockFile : List CBlockFileInfo
  nLastBlockFile : Nat
  setDirtyFileInfo : List Nat
  setDirtyBlockIndex : List Uint256
  fCheckForPruning : Bool
  blk : Nat → Journal Uint256
  rev : Nat → Journal Uint256
  blocktree : List IndexBatch

structure StorageConfig where
  fPruneMode : Bool
  fReindex : Bool
  nPruneTarget : Nat
  pruneAfterHeight : Nat
  nCoinCacheUsage : Nat
  curve : Curve

namespace BlockStore

def fileInfo (store : BlockStore) (nFile : Nat) : CBlockFileInfo :=
  store.vinfoBlockFile.getD nFile .null

/-- `setDirtyBlockIndex.insert(pindex)` -/
def dirty (store : BlockStore) (pindex : Uint256) : BlockStore :=
  { store with setDirtyBlockIndex := store.setDirtyBlockIndex.insert pindex }

/-- Change the tree and note that one entry has changed. -/
def touch (store : BlockStore) (pindex : Uint256) (change : ChainState → ChainState) :
    BlockStore :=
  { store with
    chain := change store.chain
    setDirtyBlockIndex := store.setDirtyBlockIndex.insert pindex }

/-! ## Room for blocks and undo data -/

/-- Does what comes after position `nPos` open a new chunk? -/
def opensChunk (chunk nPos nNewSize : Nat) : Bool :=
  decide ((nPos + chunk - 1) / chunk < (nNewSize + chunk - 1) / chunk)

/-- The space asked for when a chunk is opened. -/
def chunkSpace (chunk nPos nNewSize : Nat) : Nat := (nNewSize + chunk - 1) / chunk * chunk - nPos

/-- The first file from `nFile` on with room; a block is smaller than a new file. -/
def roomFrom (nAddSize nFile : Nat) : List CBlockFileInfo → Nat
  | [] => nFile
  | info :: infos =>
      if info.nSize + nAddSize ≥ maxBlockfileSize then roomFrom nAddSize (nFile + 1) infos
      else nFile

/-- `vinfoBlockFile.resize(nFile + 1)`, if that is longer, and a change of the last entry. -/
def changeInfo (store : BlockStore) (nFile : Nat) (change : CBlockFileInfo → CBlockFileInfo) :
    List CBlockFileInfo :=
  (store.vinfoBlockFile ++
    List.replicate (nFile + 1 - store.vinfoBlockFile.length) CBlockFileInfo.null).set nFile
      (change (store.fileInfo nFile))

/-- Where a block goes: `pos.nFile` when its position is known. -/
def blockFile (store : BlockStore) (nAddSize : Nat) : Option (Nat × Nat) → Nat
  | some (nFile, _) => nFile
  | none =>
      roomFrom nAddSize store.nLastBlockFile (store.vinfoBlockFile.drop store.nLastBlockFile)

/-- `FindBlockPos` with the file it chooses; `known` is a position that holds the block already,
`freeBytes` the free space. -/
def findBlockPos (config : StorageConfig) (freeBytes : Nat) (store : BlockStore)
    (nAddSize nHeight nTime : Nat) (known : Option (Nat × Nat)) : BlockStore × Bool :=
  let nFile := store.blockFile nAddSize known
  let nPos := known.elim (store.fileInfo nFile).nSize Prod.snd
  let nSize := known.elim ((store.fileInfo nFile).nSize + nAddSize) fun pos =>
    max (pos.2 + nAddSize) (store.fileInfo nFile).nSize
  let grown := { store with
    vinfoBlockFile := store.changeInfo nFile fun info =>
      { info.addBlock nHeight nTime with nSize }
    nLastBlockFile := nFile }
  let opened := known.isNone && opensChunk blockfileChunkSize nPos nSize
  let checked := { grown with
    fCheckForPruning := grown.fCheckForPruning || (opened && config.fPruneMode) }
  if opened && !checkDiskSpace freeBytes (chunkSpace blockfileChunkSize nPos nSize) then
    (checked, false)
  else ({ checked with setDirtyFileInfo := checked.setDirtyFileInfo.insert nFile }, true)

/-- `FindUndoPos` -/
def findUndoPos (config : StorageConfig) (freeBytes : Nat) (store : BlockStore)
    (nFile nAddSize : Nat) : BlockStore × Bool :=
  let nPos := (store.fileInfo nFile).nUndoSize
  let grown := { store with
    vinfoBlockFile := store.vinfoBlockFile.set nFile
      { store.fileInfo nFile with nUndoSize := nPos + nAddSize }
    setDirtyFileInfo := store.setDirtyFileInfo.insert nFile }
  let opened := opensChunk undofileChunkSize nPos (nPos + nAddSize)
  ({ grown with fCheckForPruning := grown.fCheckForPruning || (opened && config.fPruneMode) },
    !opened || checkDiskSpace freeBytes (chunkSpace undofileChunkSize nPos (nPos + nAddSize)))

def appendBlock (store : BlockStore) (nFile : Nat) (hash : Uint256) : BlockStore :=
  { store with blk := Function.update store.blk nFile ((store.blk nFile).append hash) }

/-- The block lies at its known position already. -/
def recallBlock (store : BlockStore) (nFile : Nat) (hash : Uint256) : BlockStore :=
  { store with blk := Function.update store.blk nFile ((store.blk nFile).relist hash) }

def appendUndo (store : BlockStore) (nFile : Nat) (hash : Uint256) : BlockStore :=
  { store with rev := Function.update store.rev nFile ((store.rev nFile).append hash) }

end BlockStore

end RoiCoin
