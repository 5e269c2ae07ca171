import RoiCoin.Lib.Extents
import RoiCoin.Validation.Durability
import RoiCoin.Wire

/-! The bytes of the block files under `AcceptBlock` (`AllocateFileRange`, `WriteBlockToDisk`,
`ReadBlockFromDisk`).

`OpenDiskFile` opens a file with mode "rb+", and if that fails with mode "wb+", which empties it. A
missing file is empty. -/

namespace RoiCoin

open ChainState Checked Extents Codec

/-- What pre-allocation meets; `recreates` tells that the second mode was needed. -/
structure AllocTrial where
  opens : Bool
  recreates : Bool
  allocates : Bool
  deriving DecidableEq, Repr

/-- What `WriteBlockToDisk` meets: opening the file, writing magic and size, `ftell`, writing the
block, and closing the file, which nobody looks at. Where something fails, `reached` bytes of what
was written got into the file. -/
structure WriteTrial where
  opens : Bool
  recreates : Bool
  heads : Bool
  tells : Bool
  writes : Bool
  closes : Bool
  reached : Nat
  deriving DecidableEq, Repr

/-- A call of `AcceptBlock` with what it meets. `contextualHeader` and `contextual` are the verdicts
of the contextual checks; the call of `FlushStateToDisk` at the end opens its block file again with
`flushRecreates`. -/
structure DataCall where
  block : CBlock
  typed : block.Typed
  adjustedTime : Int
  contextualHeader : Bool
  contextual : BlockVerdict
  fRequested : Bool
  dbp : Option (Nat × Nat)
  freeBytes : Nat
  allocation : AllocTrial
  writing : WriteTrial
  flush : FlushTrial
  flushRecreates : Bool

/-- The block tree with the bytes of the block files; `received` keeps the block that
`ReceivedBlockTransactions` was given for an entry, and nothing in the source reads it. -/
structure DataStore where
  storage : Storage
  nDataPos : Uint256 → Nat
  contents : Nat → Bytes
  received : Uint256 → Option CBlock

/-! ## The files -/

def reopen (recreates : Bool) (file : Bytes) : Bytes := if recreates then [] else file

/-- `AllocateFileRange` on Linux allocates everything up to the end of the range. -/
def allocateFileRange (trial : AllocTrial) (offset length : Nat) (file : Bytes) : Bytes :=
  if !trial.opens then file
  else if trial.allocates then extend 0 (reopen trial.recreates file) (offset + length)
  else reopen trial.recreates file

/-- Magic and size. -/
def writeHead (messageStart : BitVec 32) (block : CBlock) : Bytes :=
  writeLE 4 messageStart.toNat ++ writeLE 4 block.serializeSize

/-- `returned` carries what the function returns and `pos.nPos` after it. -/
inductive WriteResult where
  | threw
  | returned (written : Bool) (nPos : Nat)
  deriving DecidableEq, Repr

def writeBlockToDisk (messageStart : BitVec 32) (trial : WriteTrial) (block : CBlock) (nPos : Nat)
    (file : Bytes) : Bytes × WriteResult :=
  let head := writeHead messageStart block
  let opened := reopen trial.recreates file
  if !trial.opens then (file, .returned false nPos)
  else if !trial.heads then (overwrite 0 opened nPos (head.take trial.reached), .threw)
  else if !trial.tells then
    (overwrite 0 opened nPos (head.take (if trial.closes then head.length else trial.reached)),
      .returned false nPos)
  else if !trial.writes then
    (overwrite 0 opened nPos ((head ++ block.write).take trial.reached), .threw)
  else if !trial.closes then
    (overwrite 0 opened nPos ((head ++ block.write).take trial.reached),
      .returned true (nPos + head.length))
  else (overwrite 0 opened nPos (head ++ block.write), .returned true (nPos + head.length))

def readBlockFromDisk (env : Environment) (file : Bytes) (nPos : Nat) : Option CBlock := do
  let (block, _) ← CBlock.read.run (file.drop nPos)
  if readBlockFromDiskPow env.blockHash env.params block.header then some block else none

/-! ## The functions with the bytes -/

def Failure.verdict : Failure → BlockVerdict
  | .invalid rejection => if rejection.corruptionPossible then .corrupt else .invalid
  | _ => .corrupt

namespace DataCall

/-- The block with the results of its checks. -/
def offered (env : Environment) (call : DataCall) : OfferedBlock where
  hash := env.blockHash call.block.header
  hashPrevBlock := call.block.header.hashPrevBlock
  nBits := call.block.header.nBits
  nTx := call.block.vtx.length
  checkHeader :=
    (checkBlockHeader env.blockHash call.adjustedTime env.params call.block.header true).toBool
  contextualHeader := call.contextualHeader
  check :=
    match checkBlock { env with adjustedTime := call.adjustedTime } call.block true true with
    | .ok _ => call.contextual
    | .error failure => failure.verdict
  fRequested := call.fRequested
  written := true
  nFile := 0

/-- The size that `FindBlockPos` is asked for. -/
def nAddSize (call : DataCall) : Nat := call.block.serializeSize + 8

/-- What the call is for the index alone. -/
def trial (call : DataCall) : BlockTrial where
  nBlockSize := call.block.serializeSize
  nTime := call.block.header.nTime.toNat
  known := call.dbp
  freeBytes := call.freeBytes
  opens := call.writing.opens && call.writing.tells
  throws := call.writing.opens && (!call.writing.heads ||
    (call.writing.tells && !call.writing.writes))

end DataCall

/-- The position that `FindBlockPos` gives to a block. -/
def BlockStore.blockPos (store : BlockStore) (nAddSize : Nat) (dbp : Option (Nat × Nat)) :
    Nat × Nat :=
  (store.blockFile nAddSize dbp,
    dbp.elim (store.fileInfo (store.blockFile nAddSize dbp)).nSize Prod.snd)

namespace DataStore

section Fields

variable (s : DataStore) (pindex : Uint256)

def chain : ChainState := s.storage.files.chain
def nFile : Nat := (s.chain.entry pindex).nFile

/-- `pindex->GetBlockPos()` -/
def getBlockPos : Option (Nat × Nat) :=
  if s.chain.haveData pindex then some (s.nFile pindex, s.nDataPos pindex) else none

/-- `ReadBlockFromDisk` for an entry. -/
def readBlock (env : Environment) : Option CBlock := do
  let pos ← s.getBlockPos pindex
  let block ← readBlockFromDisk env (s.contents pos.1) pos.2
  if env.blockHash block.header = pindex then some block else none

end Fields

def setFiles (s : DataStore) (files : BlockStore) : DataStore :=
  { s with storage := { s.storage with files } }

def writeFile (s : DataStore) (nFile : Nat) (file : Bytes) : DataStore :=
  { s with contents := Function.update s.contents nFile file }

/-- The pre-allocation in `FindBlockPos`, from the state before it. -/
def preallocate (call : DataCall) (s : DataStore) : DataStore :=
  let (nFile, nPos) := s.storage.files.blockPos call.nAddSize call.dbp
  let nSize := nPos + call.nAddSize
  if call.dbp.isNone && opensChunk nPos nSize &&
      checkDiskSpace call.freeBytes (chunkSpace nPos nSize) then
    s.writeFile nFile
      (allocateFileRange call.allocation nPos (chunkSpace nPos nSize) (s.contents nFile))
  else s
where
  opensChunk (nPos nSize : Nat) : Bool := BlockStore.opensChunk blockfileChunkSize nPos nSize
  chunkSpace (nPos nSize : Nat) : Nat := BlockStore.chunkSpace blockfileChunkSize nPos nSize

/-- `ReceivedBlockTransactions`; the block lies where `pos` says, or so the caller thinks. -/
def receive (w : Surroundings) (call : DataCall) (block : OfferedBlock) (pos : Nat × Nat)
    (s : DataStore) : DataStore :=
  let files := s.storage.files.placeBlock call.trial block.hash
  { s.setFiles (files.touch block.hash fun chain =>
      chain.receivedBlockTransactions w block.nTx pos.1 block.hash) with
    nDataPos := Function.update s.nDataPos block.hash pos.2
    received := Function.update s.received block.hash (some call.block) }

/-- The part of `AcceptBlock` under "Write block to history file". A `WriteBlockToDisk` that returns
false is reported to `AbortNode`, and the function goes on. -/
def writeBlock (w : Surroundings) (config : StorageConfig) (messageStart : BitVec 32)
    (call : DataCall) (block : OfferedBlock) (s : DataStore) : DataStore × AcceptResult :=
  let pos := s.storage.files.blockPos call.nAddSize call.dbp
  let (files, found) := s.storage.files.findBlockPos config call.freeBytes call.nAddSize
    (s.chain.nHeight block.hash) call.block.header.nTime.toNat call.dbp
  let s := (s.preallocate call).setFiles files
  if !found then (s, .refused)
  else if call.dbp.isSome then (s.receive w call block pos, .stored)
  else
    match writeBlockToDisk messageStart call.writing call.block pos.2 (s.contents pos.1) with
    | (file, .threw) => (s.writeFile pos.1 file, .refused)
    | (file, .returned _ nPos) =>
        ((s.writeFile pos.1 file).receive w call block (pos.1, nPos), .stored)

/-- `AcceptBlock` up to the check for pruning. -/
def storeBlock (w : Surroundings) (env : Environment) (config : StorageConfig)
    (messageStart : BitVec 32) (call : DataCall) (s : DataStore) : DataStore × AcceptResult :=
  let block := call.offered env
  let (files, known) := s.storage.files.acceptBlockHeader w block
  let s := s.setFiles files
  if !known then (s, .refused)
  else if s.chain.haveData block.hash then (s, .passedOver)
  else if !block.fRequested && s.chain.unwanted block.hash then (s, .passedOver)
  else if block.check = .invalid ∨ block.nTx = 0 then
    (s.setFiles (files.touch block.hash fun chain => chain.setFailedValid block.hash), .refused)
  else if block.check = .corrupt then (s, .refused)
  else s.writeBlock w config messageStart call block

/-- What `FlushStateToDisk` has decided before it writes: the files it queues for removal and
whether it goes on to the block index. -/
def flushPlan (config : StorageConfig) (trial : FlushTrial) (mode : FlushStateMode)
    (storage : Storage) : List Nat × Bool :=
  let (files, setFilesToPrune) := storage.files.selectPruned config
  let fFlushForPrune := !setFilesToPrune.isEmpty
  let begun := { storage with files }.begin fFlushForPrune trial.nNow
  (setFilesToPrune,
    !(fFlushForPrune && !files.chain.fHavePruned && !trial.flagWritten) &&
      (begun.doFullFlush config trial mode fFlushForPrune || begun.periodicWrite trial mode) &&
      checkDiskSpace trial.freeForIndex 0)

/-- The block files after a flush: the last one was opened again, and pruned files are gone. -/
def flushContents (config : StorageConfig) (trial : FlushTrial) (recreates : Bool)
    (mode : FlushStateMode) (s : DataStore) : Nat → Bytes :=
  let (setFilesToPrune, writes) := flushPlan config trial mode s.storage
  let nLast := s.storage.files.nLastBlockFile
  if !writes then s.contents
  else
    let opened := Function.update s.contents nLast
      (reopen (trial.opensBlock && recreates) (s.contents nLast))
    if !trial.batchWritten then opened
    else fun nFile =>
      if nFile ∈ setFilesToPrune.takeWhile trial.removes then [] else opened nFile

/-- `PruneOneBlockFile` clears the position with the flag. -/
def flushStateToDisk (config : StorageConfig) (trial : FlushTrial) (recreates : Bool)
    (mode : FlushStateMode) (s : DataStore) : DataStore :=
  let storage := (s.storage.flushStateToDisk config trial mode).1
  { s with
    storage
    nDataPos := fun pindex =>
      if storage.files.chain.haveData pindex then s.nDataPos pindex else 0
    contents := s.flushContents config trial recreates mode }

def acceptBlock (w : Surroundings) (env : Environment) (config : StorageConfig)
    (messageStart : BitVec 32) (call : DataCall) (s : DataStore) : DataStore × AcceptResult :=
  let (s, result) := s.storeBlock w env config messageStart call
  if result = .stored ∧ s.storage.files.fCheckForPruning = true then
    (s.flushStateToDisk config call.flush call.flushRecreates .none, result)
  else (s, result)

end DataStore

/-! ## Reading what was written -/

theorem transaction_sized (tx : CTransaction) (small : tx.serializeSize ≤ maxSize) : tx.Sized := by
  have inputs : (tx.vin.map CTxIn.serializeSize).sum ≤ maxSize := by
    rw [CTransaction.serializeSize] at small
    omega
  have outputs : tx.vout.length ≤ (tx.vout.map CTxOut.serializeSize).sum := by
    have positive : ∀ size ∈ tx.vout.map CTxOut.serializeSize, 1 ≤ size := by
      intro size member
      obtain ⟨txout, -, rfl⟩ := List.mem_map.mp member
      rw [CTxOut.serializeSize]
      omega
    have counted := List.length_le_sum_of_one_le _ positive
    rwa [List.length_map] at counted
  constructor
  · exact (vin_length_le tx).trans small
  · rw [CTransaction.serializeSize] at small
    omega
  · intro txin member
    have one := List.single_le_sum (fun _ _ => Nat.zero_le _) _
      (List.mem_map_of_mem (f := CTxIn.serializeSize) member)
    rw [CTxIn.serializeSize, scriptSerializeSize] at one
    omega
  · intro txout member
    exact (script_length_le tx txout member).trans small

theorem checkBlock_sized (env : Environment) (block : CBlock) (fCheckPOW fCheckMerkleRoot : Bool)
    (passed : checkBlock env block fCheckPOW fCheckMerkleRoot = .ok ()) : block.Sized := by
  simp only [checkBlock, then_ok, require_ok, each_ok] at passed
  obtain ⟨-, -, ⟨-, count, size⟩, -, -, -, -⟩ := passed
  have limit : maxBlockSize ≤ maxSize := by decide
  have transactions : (block.vtx.map CTransaction.serializeSize).sum ≤ maxBlockSize := by
    rw [CBlock.serializeSize] at size
    omega
  refine ⟨count.trans limit, fun tx member => transaction_sized tx ?_⟩
  have one : tx.serializeSize ≤ (block.vtx.map CTransaction.serializeSize).sum :=
    List.single_le_sum (fun _ _ => Nat.zero_le _) _ (List.mem_map.mpr ⟨tx, member, rfl⟩)
  exact (one.trans transactions).trans limit

/-- A block that lies whole in a file, and whose header passes the test, is read back. -/
theorem readBlockFromDisk_held (env : Environment) (file : Bytes) (nPos : Nat) (block : CBlock)
    (typed : block.Typed) (sized : block.Sized)
    (pow : readBlockFromDiskPow env.blockHash env.params block.header = true)
    (held : Holds file nPos block.write) : readBlockFromDisk env file nPos = some block := by
  obtain ⟨rest, whole⟩ := (holds_iff _ _ _).mp held
  have read := reads_block block typed sized rest
  rw [readBlockFromDisk, whole, read, Option.bind_eq_bind, Option.bind_some]
  exact if_pos pow

end RoiCoin
