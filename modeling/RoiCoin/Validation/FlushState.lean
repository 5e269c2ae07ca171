import RoiCoin.BlockFiles
import RoiCoin.FlatView

/-! Writing the chain state to disk (`FindFilesToPrune`, `PruneOneBlockFile`, `FlushBlockFile`,
`FlushStateToDisk`).

What the disk does in a call is its `FlushTrial`. The wallet is not told about the best chain. -/

namespace RoiCoin

inductive FlushStateMode where
  | none
  | ifNeeded
  | periodic
  | always
  deriving DecidableEq, Repr

/-- Microseconds. -/
def databaseWriteInterval : Int := 60 * 60 * 1000000
def databaseFlushInterval : Int := 24 * 60 * 60 * 1000000

/-- What a call of `FlushStateToDisk` finds: the clock, the size of the cache, the free space at the
two tests, and which operations succeed. -/
structure FlushTrial where
  nNow : Int
  /-- `pcoinsTip->DynamicMemoryUsage()` -/
  cacheSize : Nat
  /-- The floating-point test `cacheSize * (10.0/9) > nCoinCacheUsage`. -/
  fNearLimit : Bool
  /-- `pcoinsTip->GetCacheSize()` -/
  cacheEntries : Nat
  freeForIndex : Nat
  freeForCoins : Nat
  flagWritten : Bool
  opensBlock : Bool
  opensUndo : Bool
  batchWritten : Bool
  removes : Nat → Bool
  coinsWritten : Bool

namespace BlockStore

/-! ## Pruning -/

/-- One turn of the loop of `PruneOneBlockFile`. -/
def pruneEntry (fileNumber : Nat) (store : BlockStore) (pindex : Uint256) : BlockStore :=
  if (store.chain.entry pindex).nFile = fileNumber then
    store.touch pindex fun chain =>
      let chain := chain.modify pindex fun entry =>
        { entry with
          nFile := 0
          nStatus := { entry.nStatus with haveData := false, haveUndo := false } }
      { chain with
        mapBlocksUnlinked := chain.mapBlocksUnlinked.filter fun pair =>
          ¬ (some pair.1 = chain.pprev pindex ∧ pair.2 = pindex) }
  else store

def pruneOneBlockFile (store : BlockStore) (fileNumber : Nat) : BlockStore :=
  let store := store.chain.known.foldl (pruneEntry fileNumber) store
  { store with
    vinfoBlockFile := store.vinfoBlockFile.set fileNumber .null
    setDirtyFileInfo := store.setDirtyFileInfo.insert fileNumber }

/-- `CalculateCurrentUsage` -/
def calculateCurrentUsage (store : BlockStore) : Nat :=
  (store.vinfoBlockFile.map fun info => info.nSize + info.nUndoSize).sum

/-- The loop of `FindFilesToPrune` over the file numbers, with the files it queues for removal. -/
def pruneLoop (config : StorageConfig) (nLastBlockWeCanPrune : Nat) :
    List Nat → Nat → BlockStore → BlockStore × List Nat
  | [], _, store => (store, [])
  | fileNumber :: fileNumbers, nCurrentUsage, store =>
      let info := store.fileInfo fileNumber
      if info.nSize = 0 then pruneLoop config nLastBlockWeCanPrune fileNumbers nCurrentUsage store
      else if nCurrentUsage + (blockfileChunkSize + undofileChunkSize) < config.nPruneTarget then
        (store, [])
      else if info.nHeightLast > nLastBlockWeCanPrune then
        pruneLoop config nLastBlockWeCanPrune fileNumbers nCurrentUsage store
      else
        let (store, setFilesToPrune) := pruneLoop config nLastBlockWeCanPrune fileNumbers
          (nCurrentUsage - (info.nSize + info.nUndoSize)) (store.pruneOneBlockFile fileNumber)
        (store, fileNumber :: setFilesToPrune)

def findFilesToPrune (config : StorageConfig) (store : BlockStore) : BlockStore × List Nat :=
  match store.chain.tip with
  | none => (store, [])
  | some tip =>
      if config.nPruneTarget = 0 ∨ store.chain.nHeight tip ≤ config.pruneAfterHeight then
        (store, [])
      else if store.calculateCurrentUsage + (blockfileChunkSize + undofileChunkSize) ≥
          config.nPruneTarget then
        pruneLoop config (unsigned32 (store.chain.nHeight tip - minBlocksToKeep))
          (List.range store.nLastBlockFile) store.calculateCurrentUsage store
      else (store, [])

/-- The files to prune, if it is time to look for them. -/
def selectPruned (config : StorageConfig) (store : BlockStore) : BlockStore × List Nat :=
  if config.fPruneMode && store.fCheckForPruning && !config.fReindex then
    let (store, setFilesToPrune) := store.findFilesToPrune config
    ({ store with fCheckForPruning := false }, setFilesToPrune)
  else (store, [])

/-- `UnlinkPrunedFiles` stops at a file that cannot be removed. -/
def unlinkPrunedFiles (removes : Nat → Bool) (store : BlockStore) : List Nat → BlockStore × Bool
  | [] => (store, true)
  | fileNumber :: setFilesToPrune =>
      if removes fileNumber then
        unlinkPrunedFiles removes
          { store with
            blk := Function.update store.blk fileNumber .empty
            rev := Function.update store.rev fileNumber .empty } setFilesToPrune
      else (store, false)

/-! ## Blocks and block index -/

/-- `FlushBlockFile(false)`: a file that cannot be opened is passed over. -/
def flushBlockFile (trial : FlushTrial) (store : BlockStore) : BlockStore :=
  let n := store.nLastBlockFile
  { store with
    blk := if trial.opensBlock then Function.update store.blk n (store.blk n).sync else store.blk
    rev := if trial.opensUndo then Function.update store.rev n (store.rev n).sync else store.rev }

/-- What `WriteBatchSync` is given. -/
def indexBatch (store : BlockStore) : IndexBatch where
  fileInfo := store.setDirtyFileInfo.map fun nFile => (nFile, store.fileInfo nFile)
  nLastFile := store.nLastBlockFile
  blockinfo := store.setDirtyBlockIndex.map fun pindex =>
    (pindex, (store.chain.entry pindex).stored)
  blk := store.blk
  rev := store.rev

/-- The part under "Write blocks and block index to disk". -/
def writeIndex (trial : FlushTrial) (setFilesToPrune : List Nat) (store : BlockStore) :
    BlockStore × Bool :=
  if !checkDiskSpace trial.freeForIndex 0 then (store, false)
  else
    let store := store.flushBlockFile trial
    let batch := store.indexBatch
    let store := { store with setDirtyFileInfo := [], setDirtyBlockIndex := [] }
    if !trial.batchWritten then (store, false)
    else
      unlinkPrunedFiles trial.removes { store with blocktree := batch :: store.blocktree }
        setFilesToPrune

end BlockStore

/-- The block files and the coins: `pcoinsTip` is what the cache shows, `coinsdb` what the database
below it shows. -/
structure Storage where
  files : BlockStore
  pcoinsTip : FlatView
  coinsdb : FlatView
  nLastWrite : Int
  nLastFlush : Int

namespace Storage

/-- The flag in the database and its copy, and the clocks at the first call. -/
def begin (fFlushForPrune : Bool) (nNow : Int) (storage : Storage) : Storage :=
  { storage with
    files := { storage.files with
      chain := { storage.files.chain with
        fHavePruned := storage.files.chain.fHavePruned || fFlushForPrune } }
    nLastWrite := if storage.nLastWrite = 0 then nNow else storage.nLastWrite
    nLastFlush := if storage.nLastFlush = 0 then nNow else storage.nLastFlush }

/-- `fDoFullFlush` -/
def doFullFlush (config : StorageConfig) (trial : FlushTrial) (mode : FlushStateMode)
    (fFlushForPrune : Bool) (storage : Storage) : Bool :=
  let fCacheLarge := mode == .periodic && trial.fNearLimit
  let fCacheCritical := mode == .ifNeeded && decide (trial.cacheSize > config.nCoinCacheUsage)
  let fPeriodicFlush := mode == .periodic &&
    decide (trial.nNow > storage.nLastFlush + databaseFlushInterval)
  mode == .always || fCacheLarge || fCacheCritical || fPeriodicFlush || fFlushForPrune

/-- `fPeriodicWrite` -/
def periodicWrite (trial : FlushTrial) (mode : FlushStateMode) (storage : Storage) : Bool :=
  mode == .periodic && decide (trial.nNow > storage.nLastWrite + databaseWriteInterval)

/-- The part under "Flush best chain related state". `BatchWrite` empties the cache before it
writes, so after an exception the coins are those of the database. -/
def flushCoins (trial : FlushTrial) (storage : Storage) : Storage × Bool :=
  if !checkDiskSpace trial.freeForCoins (128 * 2 * 2 * trial.cacheEntries) then (storage, false)
  else if trial.coinsWritten then
    ({ storage with coinsdb := storage.pcoinsTip, nLastFlush := trial.nNow }, true)
  else
    ({ storage with pcoinsTip := ⟨storage.coinsdb.coins, storage.pcoinsTip.hashBlock⟩ }, false)

/-- Once it is known what to write. -/
def writeState (trial : FlushTrial) (setFilesToPrune : List Nat)
    (fDoFullFlush fPeriodicWrite : Bool) (storage : Storage) : Storage × Bool :=
  if !(fDoFullFlush || fPeriodicWrite) then (storage, true)
  else
    let (files, written) := storage.files.writeIndex trial setFilesToPrune
    if !written then ({ storage with files }, false)
    else
      let storage := { storage with files, nLastWrite := trial.nNow }
      if fDoFullFlush then storage.flushCoins trial else (storage, true)

def flushStateToDisk (config : StorageConfig) (trial : FlushTrial) (mode : FlushStateMode)
    (storage : Storage) : Storage × Bool :=
  let (files, setFilesToPrune) := storage.files.selectPruned config
  let fFlushForPrune := !setFilesToPrune.isEmpty
  let selected := { storage with files }
  if fFlushForPrune && !files.chain.fHavePruned && !trial.flagWritten then (selected, false)
  else
    let begun := selected.begin fFlushForPrune trial.nNow
    begun.writeState trial setFilesToPrune (begun.doFullFlush config trial mode fFlushForPrune)
      (begun.periodicWrite trial mode)

end Storage

/-! ## What a flush leaves alone -/

/-- The parents and the active chain are the same. -/
structure SameLinks (chain chain' : ChainState) : Prop where
  pprev : chain'.pprev = chain.pprev
  active : chain'.chainActive = chain.chainActive

theorem sameLinks_refl (chain : ChainState) : SameLinks chain chain := ⟨rfl, rfl⟩

theorem sameLinks_trans (chain₁ chain₂ chain₃ : ChainState) (first : SameLinks chain₁ chain₂)
    (second : SameLinks chain₂ chain₃) : SameLinks chain₁ chain₃ :=
  ⟨second.pprev.trans first.pprev, second.active.trans first.active⟩

theorem sameLinks_modify (chain : ChainState) (pindex : Uint256)
    (change : BlockEntry → BlockEntry) (keeps : ∀ entry, (change entry).pprev = entry.pprev) :
    SameLinks chain (chain.modify pindex change) := by
  refine ⟨?_, rfl⟩
  funext p
  rw [ChainState.pprev, ChainState.modify_entry]
  split
  · rename_i same
    rw [keeps, same]
    rfl
  · rfl

namespace BlockStore

theorem pruneEntry_links (fileNumber : Nat) (store : BlockStore) (pindex : Uint256) :
    SameLinks store.chain (store.pruneEntry fileNumber pindex).chain := by
  rw [pruneEntry]
  split
  · have links := sameLinks_modify store.chain pindex (fun entry =>
      { entry with
        nFile := 0
        nStatus := { entry.nStatus with haveData := false, haveUndo := false } }) fun _ => rfl
    exact ⟨links.pprev, links.active⟩
  · exact sameLinks_refl _

theorem pruneEntries_links (fileNumber : Nat) (pindexes : List Uint256) (store : BlockStore) :
    SameLinks store.chain (pindexes.foldl (pruneEntry fileNumber) store).chain := by
  induction pindexes generalizing store with
  | nil => exact sameLinks_refl _
  | cons pindex pindexes ih =>
      exact sameLinks_trans _ _ _ (pruneEntry_links fileNumber store pindex) (ih _)

theorem pruneLoop_links (config : StorageConfig) (nLastBlockWeCanPrune : Nat)
    (fileNumbers : List Nat) (nCurrentUsage : Nat) (store : BlockStore) :
    SameLinks store.chain
      (pruneLoop config nLastBlockWeCanPrune fileNumbers nCurrentUsage store).1.chain := by
  induction fileNumbers generalizing nCurrentUsage store with
  | nil => exact sameLinks_refl _
  | cons fileNumber fileNumbers ih =>
      rw [pruneLoop]
      split_ifs
      · exact ih _ _
      · exact sameLinks_refl _
      · exact ih _ _
      · have rest := ih (nCurrentUsage -
          ((store.fileInfo fileNumber).nSize + (store.fileInfo fileNumber).nUndoSize))
          (store.pruneOneBlockFile fileNumber)
        generalize pruneLoop config nLastBlockWeCanPrune fileNumbers _ _ = result at rest ⊢
        exact sameLinks_trans _ _ _ (pruneEntries_links fileNumber store.chain.known store) rest

theorem selectPruned_links (config : StorageConfig) (store : BlockStore) :
    SameLinks store.chain (store.selectPruned config).1.chain := by
  have found : SameLinks store.chain (store.findFilesToPrune config).1.chain := by
    rw [findFilesToPrune]
    cases store.chain.tip with
    | none => exact sameLinks_refl _
    | some tip =>
        dsimp only
        split_ifs
        · exact sameLinks_refl _
        · exact pruneLoop_links _ _ _ _ _
        · exact sameLinks_refl _
  rw [selectPruned]
  split
  · exact found
  · exact sameLinks_refl _

theorem unlinkPrunedFiles_result (removes : Nat → Bool) (setFilesToPrune : List Nat)
    (store : BlockStore) :
    (store.unlinkPrunedFiles removes setFilesToPrune).1.chain = store.chain ∧
      (store.unlinkPrunedFiles removes setFilesToPrune).2 = setFilesToPrune.all removes := by
  induction setFilesToPrune generalizing store with
  | nil => exact ⟨rfl, rfl⟩
  | cons fileNumber setFilesToPrune ih =>
      rw [unlinkPrunedFiles, List.all_cons]
      split
      · rename_i removed
        rw [removed, Bool.true_and]
        exact ih _
      · rename_i stuck
        exact ⟨rfl, by rw [Bool.eq_false_of_not_eq_true stuck, Bool.false_and]⟩

theorem writeIndex_result (trial : FlushTrial) (setFilesToPrune : List Nat)
    (store : BlockStore) :
    (store.writeIndex trial setFilesToPrune).1.chain = store.chain ∧
      (store.writeIndex trial setFilesToPrune).2 =
        (checkDiskSpace trial.freeForIndex 0 && trial.batchWritten &&
          setFilesToPrune.all trial.removes) := by
  rw [writeIndex]
  cases checkDiskSpace trial.freeForIndex 0 with
  | false => exact ⟨rfl, rfl⟩
  | true =>
      cases trial.batchWritten with
      | false => exact ⟨rfl, rfl⟩
      | true =>
          obtain ⟨same, result⟩ := unlinkPrunedFiles_result trial.removes setFilesToPrune
            { (store.flushBlockFile trial) with
              setDirtyFileInfo := [], setDirtyBlockIndex := []
              blocktree := (store.flushBlockFile trial).indexBatch ::
                (store.flushBlockFile trial).blocktree }
          exact ⟨same, result⟩

end BlockStore

namespace Storage

/-- The disk fails a call that has something to write. -/
def flushTrouble (config : StorageConfig) (trial : FlushTrial) (mode : FlushStateMode)
    (storage : Storage) : Bool :=
  let (files, setFilesToPrune) := storage.files.selectPruned config
  let fFlushForPrune := !setFilesToPrune.isEmpty
  let begun := { storage with files }.begin fFlushForPrune trial.nNow
  let full := begun.doFullFlush config trial mode fFlushForPrune
  (fFlushForPrune && !files.chain.fHavePruned && !trial.flagWritten) ||
    ((full || begun.periodicWrite trial mode) &&
      !(checkDiskSpace trial.freeForIndex 0 && trial.batchWritten &&
        setFilesToPrune.all trial.removes)) ||
    (full &&
      !(checkDiskSpace trial.freeForCoins (128 * 2 * 2 * trial.cacheEntries) &&
        trial.coinsWritten))

/-- What every flush keeps: links, chain and best block; and the coins when it succeeds. -/
structure Flushed (storage storage' : Storage) (returned : Bool) : Prop where
  links : SameLinks storage.files.chain storage'.files.chain
  best : storage'.pcoinsTip.hashBlock = storage.pcoinsTip.hashBlock
  coins : returned = true → storage'.pcoinsTip = storage.pcoinsTip

theorem flushCoins_flushed (trial : FlushTrial) (storage : Storage) :
    Flushed storage (storage.flushCoins trial).1 (storage.flushCoins trial).2 ∧
      (storage.flushCoins trial).2 =
        (checkDiskSpace trial.freeForCoins (128 * 2 * 2 * trial.cacheEntries) &&
          trial.coinsWritten) := by
  rw [flushCoins]
  cases checkDiskSpace trial.freeForCoins (128 * 2 * 2 * trial.cacheEntries) with
  | false => exact ⟨⟨sameLinks_refl _, rfl, fun _ => rfl⟩, rfl⟩
  | true =>
      cases trial.coinsWritten with
      | true => exact ⟨⟨sameLinks_refl _, rfl, fun _ => rfl⟩, rfl⟩
      | false => exact ⟨⟨sameLinks_refl _, rfl, fun stuck => (Bool.false_ne_true stuck).elim⟩, rfl⟩

theorem writeState_flushed (trial : FlushTrial) (setFilesToPrune : List Nat)
    (fDoFullFlush fPeriodicWrite : Bool) (storage : Storage) :
    let result := storage.writeState trial setFilesToPrune fDoFullFlush fPeriodicWrite
    Flushed storage result.1 result.2 ∧
      result.2 =
        !(((fDoFullFlush || fPeriodicWrite) &&
            !(checkDiskSpace trial.freeForIndex 0 && trial.batchWritten &&
              setFilesToPrune.all trial.removes)) ||
          (fDoFullFlush &&
            !(checkDiskSpace trial.freeForCoins (128 * 2 * 2 * trial.cacheEntries) &&
              trial.coinsWritten))) := by
  obtain ⟨chain, written⟩ := BlockStore.writeIndex_result trial setFilesToPrune storage.files
  dsimp only
  rw [writeState, ← written]
  generalize storage.files.writeIndex trial setFilesToPrune = result at chain ⊢
  obtain ⟨files, done⟩ := result
  have links : SameLinks storage.files.chain files.chain := by
    rw [chain]
    exact sameLinks_refl _
  cases fDoFullFlush with
  | false =>
      cases fPeriodicWrite with
      | false => exact ⟨⟨sameLinks_refl _, rfl, fun _ => rfl⟩, rfl⟩
      | true =>
          cases done with
          | false => exact ⟨⟨links, rfl, fun _ => rfl⟩, rfl⟩
          | true => exact ⟨⟨links, rfl, fun _ => rfl⟩, rfl⟩
  | true =>
      cases done with
      | false => exact ⟨⟨links, rfl, fun _ => rfl⟩, rfl⟩
      | true =>
          obtain ⟨flushed, result⟩ := flushCoins_flushed trial
            { storage with files, nLastWrite := trial.nNow }
          refine ⟨⟨sameLinks_trans _ _ _ links flushed.links, flushed.best, flushed.coins⟩, ?_⟩
          rw [← result]
          simp

theorem flush_flushed (config : StorageConfig) (trial : FlushTrial) (mode : FlushStateMode)
    (storage : Storage) :
    let result := storage.flushStateToDisk config trial mode
    Flushed storage result.1 result.2 ∧
      result.2 = !storage.flushTrouble config trial mode := by
  have links := BlockStore.selectPruned_links config storage.files
  dsimp only
  rw [flushStateToDisk, flushTrouble]
  generalize storage.files.selectPruned config = result at links ⊢
  obtain ⟨files, setFilesToPrune⟩ := result
  dsimp only at links ⊢
  cases (!setFilesToPrune.isEmpty && !files.chain.fHavePruned && !trial.flagWritten) with
  | true => exact ⟨⟨links, rfl, fun _ => rfl⟩, rfl⟩
  | false =>
      obtain ⟨flushed, result⟩ := writeState_flushed trial setFilesToPrune
        (({ storage with files }.begin (!setFilesToPrune.isEmpty) trial.nNow).doFullFlush config
          trial mode (!setFilesToPrune.isEmpty))
        (({ storage with files }.begin (!setFilesToPrune.isEmpty) trial.nNow).periodicWrite trial
          mode)
        ({ storage with files }.begin (!setFilesToPrune.isEmpty) trial.nNow)
      exact ⟨⟨sameLinks_trans _ _ _ links ⟨flushed.links.pprev, flushed.links.active⟩,
        flushed.best, flushed.coins⟩, result⟩

end Storage

end RoiCoin
