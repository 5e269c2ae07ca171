import RoiCoin.Validation.BlockData
import RoiCoin.Validation.ConnectBlock

/-! Entries with `BLOCK_HAVE_DATA` and the bytes that they point at, over runs of `AcceptBlock`. -/

namespace RoiCoin

open ChainState Checked Extents

/-! ## What is stored -/

/-- The block of an entry lies whole at its position, in room that is taken. -/
structure DataStore.Whole (env : Environment) (s : DataStore) (pindex : Uint256)
    (block : CBlock) : Prop where
  hash : env.blockHash block.header = pindex
  pow : readBlockFromDiskPow env.blockHash env.params block.header = true
  typed : block.Typed
  sized : block.Sized
  inside : s.nDataPos pindex + block.write.length ≤
    (s.storage.files.fileInfo (s.nFile pindex)).nSize
  held : Holds (s.contents (s.nFile pindex)) (s.nDataPos pindex) block.write

structure DataStore.Sound (env : Environment) (s : DataStore) : Prop where
  known : ∀ p, s.chain.haveData p = true → p ∈ s.chain.known
  whole : ∀ p, s.chain.haveData p = true →
    ∃ block, s.received p = some block ∧ s.Whole env p block

/-- A step that stores nothing: no entry points at anything new, and a file that an entry points at
keeps what lies in its taken room, which does not shrink. -/
structure DataStore.Keeps (s s' : DataStore) : Prop where
  fewer : Fewer s.chain s'.chain
  positions : ∀ p, s'.chain.haveData p = true → s'.nDataPos p = s.nDataPos p
  received : s'.received = s.received
  files : ∀ n, Cleared s'.storage.files n ∨
    (s.storage.files.fileInfo n).nSize ≤ (s'.storage.files.fileInfo n).nSize ∧
      KeepsBelow (s.storage.files.fileInfo n).nSize (s.contents n) (s'.contents n)

theorem sound_keeps (env : Environment) (s s' : DataStore) (sound : s.Sound env)
    (keeps : s.Keeps s') : s'.Sound env := by
  constructor
  · intro p data
    exact keeps.fewer.known p (sound.known p ((keeps.fewer.entries p).data data).1)
  · intro p data
    obtain ⟨before, same⟩ := (keeps.fewer.entries p).data data
    obtain ⟨block, received, whole⟩ := sound.whole p before
    have file : s'.nFile p = s.nFile p := same
    refine ⟨block, by rw [keeps.received, received], whole.hash, whole.pow, whole.typed,
      whole.sized, ?_, ?_⟩
    · rw [keeps.positions p data, file]
      rcases keeps.files (s.nFile p) with cleared | ⟨grows, -⟩
      · exact (cleared p data file).elim
      · exact whole.inside.trans grows
    · rw [keeps.positions p data, file]
      rcases keeps.files (s.nFile p) with cleared | ⟨-, stays⟩
      · exact (cleared p data file).elim
      · exact stays _ _ whole.inside whole.held

theorem keeps_trans (s₁ s₂ s₃ : DataStore) (first : s₁.Keeps s₂) (second : s₂.Keeps s₃) :
    s₁.Keeps s₃ := by
  refine ⟨fewer_trans _ _ _ first.fewer second.fewer, ?_, second.received.trans first.received, ?_⟩
  · intro p data
    have middle := ((second.fewer.entries p).data data).1
    exact (second.positions p data).trans (first.positions p middle)
  · intro n
    rcases second.files n with cleared | ⟨grows₂, stays₂⟩
    · exact .inl cleared
    · rcases first.files n with cleared | ⟨grows₁, stays₁⟩
      · exact .inl (cleared_fewer _ _ n cleared second.fewer)
      · refine .inr ⟨grows₁.trans grows₂, ?_⟩
        intro pos data below held
        exact stays₂ pos data (below.trans grows₁) (stays₁ pos data below held)

/-- A step that only changes the tree. -/
theorem keeps_chain (s : DataStore) (files : BlockStore)
    (fewer : Fewer s.chain files.chain)
    (info : files.vinfoBlockFile = s.storage.files.vinfoBlockFile) :
    s.Keeps (s.setFiles files) := by
  refine ⟨fewer, fun _ _ => rfl, rfl, fun n => .inr ⟨?_, keepsBelow_refl _ _⟩⟩
  rw [BlockStore.fileInfo, BlockStore.fileInfo, DataStore.setFiles, info]

theorem keeps_refl (s : DataStore) : s.Keeps s :=
  ⟨fewer_refl _, fun _ _ => rfl, rfl, fun _ => .inr ⟨le_rfl, keepsBelow_refl _ _⟩⟩

/-! ## Room for a block -/

namespace BlockStore

theorem fileInfo_change (store : BlockStore) (nFile n : Nat)
    (change : CBlockFileInfo → CBlockFileInfo) :
    (store.changeInfo nFile change).getD n .null =
      if n = nFile then change (store.fileInfo nFile) else store.fileInfo n := by
  rw [changeInfo, List.getD_eq_getElem?_getD, List.getElem?_set]
  by_cases same : n = nFile
  · have inside : nFile < (store.vinfoBlockFile ++
        List.replicate (nFile + 1 - store.vinfoBlockFile.length) CBlockFileInfo.null).length := by
      rw [List.length_append, List.length_replicate]
      omega
    rw [if_pos same.symm, if_pos inside, if_pos same]
    rfl
  · rw [if_neg fun here => same here.symm, if_neg same, fileInfo, List.getD_eq_getElem?_getD,
      List.getElem?_append]
    split_ifs with within
    · rfl
    · rw [List.getElem?_replicate, List.getElem?_eq_none (Nat.le_of_not_lt within)]
      split_ifs <;> rfl

/-- What `FindBlockPos` does to the sizes. -/
theorem findBlockPos_size (config : StorageConfig) (freeBytes : Nat) (store : BlockStore)
    (nAddSize nHeight nTime : Nat) (dbp : Option (Nat × Nat)) (n : Nat) :
    ((store.findBlockPos config freeBytes nAddSize nHeight nTime dbp).1.fileInfo n).nSize =
      if n = (store.blockPos nAddSize dbp).1 then
        max ((store.blockPos nAddSize dbp).2 + nAddSize) (store.fileInfo n).nSize
      else (store.fileInfo n).nSize := by
  have info : ∀ nSize,
      ((store.changeInfo (store.blockFile nAddSize dbp) fun info =>
        { info.addBlock nHeight nTime with nSize }).getD n .null).nSize =
      if n = store.blockFile nAddSize dbp then nSize else (store.fileInfo n).nSize := by
    intro nSize
    rw [fileInfo_change]
    split_ifs <;> rfl
  have sizes : ((store.findBlockPos config freeBytes nAddSize nHeight nTime dbp).1.fileInfo
      n).nSize = if n = store.blockFile nAddSize dbp then
        dbp.elim ((store.fileInfo (store.blockFile nAddSize dbp)).nSize + nAddSize) fun pos =>
          max (pos.2 + nAddSize) (store.fileInfo (store.blockFile nAddSize dbp)).nSize
      else (store.fileInfo n).nSize := by
    rw [findBlockPos]
    dsimp only
    split
    · exact info _
    · exact info _
  rw [sizes, blockPos]
  split_ifs with same
  · rw [same]
    cases dbp with
    | none => exact (Nat.max_eq_left (Nat.le_add_right _ _)).symm
    | some pos => rfl
  · rfl

end BlockStore

/-- Opening does not empty the file. -/
def Opens (opens recreates : Bool) : Prop := opens = true → recreates = false

theorem allocateFileRange_keeps (trial : AllocTrial) (offset length bound : Nat) (file : Bytes)
    (quiet : Opens trial.opens trial.recreates) :
    KeepsBelow bound file (allocateFileRange trial offset length file) := by
  rw [allocateFileRange]
  cases opens : trial.opens with
  | false => exact keepsBelow_refl _ _
  | true =>
      rw [Bool.not_true, if_neg Bool.false_ne_true, quiet opens]
      split
      · exact extend_keeps _ _ _ _
      · exact keepsBelow_refl _ _

/-! ## Writing a block -/

theorem writeBlockToDisk_keeps (messageStart : BitVec 32) (trial : WriteTrial) (block : CBlock)
    (nPos : Nat) (file : Bytes) (quiet : Opens trial.opens trial.recreates) :
    KeepsBelow nPos file (writeBlockToDisk messageStart trial block nPos file).1 := by
  rw [writeBlockToDisk]
  cases opens : trial.opens with
  | false => exact keepsBelow_refl _ _
  | true =>
      have written : ∀ data, KeepsBelow nPos file (overwrite 0 (reopen false file) nPos data) :=
        overwrite_keeps 0 file nPos
      rw [Bool.not_true, if_neg Bool.false_ne_true, quiet opens]
      split_ifs <;> dsimp only <;> exact written _

/-- Nothing fails, not even the closing of the file. -/
def WriteTrial.whole (trial : WriteTrial) : Bool :=
  trial.opens && trial.heads && trial.tells && trial.writes && trial.closes

theorem writeHead_length (messageStart : BitVec 32) (block : CBlock) :
    (writeHead messageStart block).length = 8 := by
  rw [writeHead, List.length_append, writeLE_length, writeLE_length]

theorem writeBlockToDisk_whole (messageStart : BitVec 32) (trial : WriteTrial) (block : CBlock)
    (nPos : Nat) (file : Bytes) (whole : trial.whole = true) :
    let result := writeBlockToDisk messageStart trial block nPos file
    result.2 = .returned true (nPos + 8) ∧ Holds result.1 (nPos + 8) block.write := by
  simp only [WriteTrial.whole, Bool.and_eq_true] at whole
  obtain ⟨⟨⟨⟨opens, heads⟩, tells⟩, writes⟩, closes⟩ := whole
  dsimp only
  simp only [writeBlockToDisk, opens, heads, tells, writes, closes, Bool.not_true,
    Bool.false_eq_true, if_false, writeHead_length, true_and]
  have held := holds_overwrite 0 (reopen trial.recreates file) nPos
    (writeHead messageStart block ++ block.write)
  have after := holds_after _ _ _ _ held
  rwa [writeHead_length] at after

/-- `WriteBlockToDisk` is left by an exception. -/
def WriteTrial.threw (trial : WriteTrial) : Bool :=
  trial.opens && (!trial.heads || (trial.tells && !trial.writes))

theorem writeBlockToDisk_threw (messageStart : BitVec 32) (trial : WriteTrial) (block : CBlock)
    (nPos : Nat) (file : Bytes) :
    (writeBlockToDisk messageStart trial block nPos file).2 = .threw ↔ trial.threw = true := by
  rw [writeBlockToDisk, WriteTrial.threw]
  cases trial.opens <;> cases trial.heads <;> cases trial.tells <;> cases trial.writes <;>
    cases trial.closes <;> simp

/-! ## Reserving room -/

/-- A file that is emptied by opening it had nothing in it. -/
def Reopens (opens recreates : Bool) (file : Bytes) : Prop := Opens opens recreates ∨ file = []

namespace DataStore

section Writing

variable (config : StorageConfig) (messageStart : BitVec 32) (call : DataCall) (nHeight : Nat)

def pos (s : DataStore) : Nat × Nat := s.storage.files.blockPos call.nAddSize call.dbp

/-- After `FindBlockPos`. -/
def reserve (s : DataStore) : DataStore :=
  (s.preallocate call).setFiles (s.storage.files.findBlockPos config call.freeBytes call.nAddSize
    nHeight call.block.header.nTime.toNat call.dbp).1

theorem preallocate_contents (s : DataStore) (bound n : Nat)
    (reopens : Reopens call.allocation.opens call.allocation.recreates
      (s.contents (s.pos call).1)) :
    KeepsBelow bound (s.contents n) ((s.preallocate call).contents n) := by
  rw [preallocate]
  dsimp only
  split
  · rw [writeFile]
    dsimp only
    rw [Function.update_apply]
    split
    · rename_i here
      rcases reopens with quiet | empty
      · rw [← here]
        exact allocateFileRange_keeps call.allocation _ _ bound (s.contents n) quiet
      · rw [pos, ← here] at empty
        rw [empty]
        exact keepsBelow_nil _ _
    · exact keepsBelow_refl _ _
  · exact keepsBelow_refl _ _

theorem preallocate_same (s : DataStore) :
    (s.preallocate call).storage = s.storage ∧ (s.preallocate call).nDataPos = s.nDataPos ∧
      (s.preallocate call).received = s.received := by
  rw [preallocate]
  dsimp only
  split <;> exact ⟨rfl, rfl, rfl⟩

theorem reserve_size (s : DataStore) (n : Nat) :
    (((s.reserve config call nHeight).storage.files.fileInfo n).nSize =
      if n = (s.pos call).1 then
        max ((s.pos call).2 + call.nAddSize) (s.storage.files.fileInfo n).nSize
      else (s.storage.files.fileInfo n).nSize) :=
  BlockStore.findBlockPos_size config call.freeBytes s.storage.files call.nAddSize nHeight
    call.block.header.nTime.toNat call.dbp n

theorem reserve_chain (s : DataStore) : (s.reserve config call nHeight).chain = s.chain :=
  (findBlockPos_same config call.freeBytes s.storage.files call.nAddSize nHeight
    call.block.header.nTime.toNat call.dbp).1

/-- Reserving room, and then perhaps writing after what was there. -/
theorem reserve_keeps (s s' : DataStore) (files : s'.storage.files =
      (s.reserve config call nHeight).storage.files)
    (positions : s'.nDataPos = s.nDataPos) (received : s'.received = s.received)
    (contents : ∀ n, KeepsBelow (s.storage.files.fileInfo n).nSize (s.contents n)
      (s'.contents n)) : s.Keeps s' := by
  have chain : s'.chain = s.chain := by
    rw [DataStore.chain, files]
    exact reserve_chain config call nHeight s
  refine ⟨?_, fun p _ => congrFun positions p, received, fun n => .inr ⟨?_, contents n⟩⟩
  · rw [chain]
    exact fewer_refl _
  · rw [files, reserve_size]
    split
    · exact Nat.le_max_right _ _
    · exact le_rfl

theorem reserved_keeps (s : DataStore)
    (reopens : Reopens call.allocation.opens call.allocation.recreates
      (s.contents (s.pos call).1)) : s.Keeps (s.reserve config call nHeight) := by
  obtain ⟨-, positions, received⟩ := preallocate_same call s
  exact reserve_keeps config call nHeight s _ rfl positions received fun n =>
    preallocate_contents call s _ n reopens

/-- The file of the block after `WriteBlockToDisk`, with the result of that function. -/
def written (s : DataStore) : Bytes × WriteResult :=
  writeBlockToDisk messageStart call.writing call.block (s.pos call).2
    ((s.reserve config call nHeight).contents (s.pos call).1)

theorem written_keeps (s : DataStore) (fresh : call.dbp = none)
    (allocated : Reopens call.allocation.opens call.allocation.recreates
      (s.contents (s.pos call).1))
    (opened : Reopens call.writing.opens call.writing.recreates (s.contents (s.pos call).1)) :
    s.Keeps ((s.reserve config call nHeight).writeFile (s.pos call).1
      (s.written config messageStart call nHeight).1) := by
  obtain ⟨-, positions, received⟩ := preallocate_same call s
  refine reserve_keeps config call nHeight s _ rfl positions received fun n => ?_
  rw [writeFile]
  dsimp only
  rw [Function.update_apply]
  split
  · rename_i here
    have last : (s.storage.files.fileInfo n).nSize = (s.pos call).2 := by
      rw [here, pos, fresh]
      rfl
    rcases opened with quiet | empty
    · rw [last, here]
      exact keepsBelow_trans _ _ _ _ (preallocate_contents call s _ _ allocated)
        (writeBlockToDisk_keeps messageStart call.writing call.block _ _ quiet)
    · rw [here, empty]
      exact keepsBelow_nil _ _
  · exact preallocate_contents call s _ n allocated

end Writing

/-! ## Noting a block in its entry -/

theorem receive_sound (w : Surroundings) (env : Environment) (call : DataCall)
    (block : OfferedBlock) (pos : Nat × Nat) (s : DataStore) (sound : s.Sound env)
    (hash : env.blockHash call.block.header = block.hash) (known : block.hash ∈ s.chain.known)
    (pow : readBlockFromDiskPow env.blockHash env.params call.block.header = true)
    (sized : call.block.Sized)
    (inside : pos.2 + call.block.write.length ≤ (s.storage.files.fileInfo pos.1).nSize)
    (held : Holds (s.contents pos.1) pos.2 call.block.write) :
    (s.receive w call block pos).Sound env := by
  let noted : DataStore :=
    { s.setFiles { s.storage.files with chain := s.chain.storing block.nTx pos.1 block.hash } with
      nDataPos := Function.update s.nDataPos block.hash pos.2
      received := Function.update s.received block.hash (some call.block) }
  have entry : ∀ p, noted.chain.entry p =
      if p = block.hash then
        { s.chain.entry block.hash with
          nTx := block.nTx, nChainTx := 0, nFile := pos.1
          nStatus := BlockStatus.raiseValidity
            { (s.chain.entry block.hash).nStatus with haveData := true } blockValidTransactions }
      else s.chain.entry p := by
    intro p
    have storing : noted.chain = s.chain.storing block.nTx pos.1 block.hash := rfl
    rw [storing]
    exact modify_entry s.chain block.hash p _
  have there : noted.Sound env := by
    constructor
    · intro p data
      by_cases here : p = block.hash
      · rw [here]
        exact known
      · rw [haveData, nStatus, entry, if_neg here] at data
        exact sound.known p data
    · intro p data
      by_cases here : p = block.hash
      · have file : noted.nFile p = pos.1 := by rw [nFile, entry, if_pos here]
        have position : noted.nDataPos p = pos.2 := by
          rw [here]
          exact Function.update_self _ _ _
        refine ⟨call.block, by rw [here]; exact Function.update_self _ _ _, hash.trans here.symm,
          pow, call.typed, sized, ?_, ?_⟩
        · rw [position, file]
          exact inside
        · rw [position, file]
          exact held
      · rw [haveData, nStatus, entry, if_neg here] at data
        obtain ⟨old, received, whole⟩ := sound.whole p data
        have file : noted.nFile p = s.nFile p := by rw [nFile, entry, if_neg here]; rfl
        have position : noted.nDataPos p = s.nDataPos p := Function.update_of_ne here _ _
        refine ⟨old, (Function.update_of_ne here _ _).trans received, whole.hash, whole.pow,
          whole.typed, whole.sized, ?_, ?_⟩
        · rw [position, file]
          exact whole.inside
        · rw [position, file]
          exact whole.held
  have placed : ∀ n, ((s.storage.files.placeBlock call.trial block.hash).fileInfo n) =
      s.storage.files.fileInfo n := by
    intro n
    rw [BlockStore.placeBlock]
    split_ifs <;> rfl
  have chain := (placeBlock_same call.trial block.hash s.storage.files).1
  apply sound_keeps env noted _ there
  refine ⟨?_, fun _ _ => rfl, rfl, fun n => .inr ⟨le_of_eq ?_, keepsBelow_refl _ _⟩⟩
  · have received := fewer_received w s.chain block.nTx pos.1 block.hash
    rw [receive]
    dsimp only [DataStore.chain, setFiles, BlockStore.touch]
    rw [chain]
    exact received
  · exact (congrArg CBlockFileInfo.nSize (placed n)).symm

end DataStore

/-! ## Flushing -/

/-- Only files that no entry points into are reset. -/
def KeepsRoom (store store' : BlockStore) : Prop :=
  ∀ n, Cleared store' n ∨ store'.fileInfo n = store.fileInfo n

theorem pruneEntries_info (fileNumber : Nat) (pindexes : List Uint256) (store : BlockStore) :
    (pindexes.foldl (BlockStore.pruneEntry fileNumber) store).vinfoBlockFile =
      store.vinfoBlockFile := by
  induction pindexes generalizing store with
  | nil => rfl
  | cons pindex pindexes ih =>
      rw [List.foldl_cons, ih, BlockStore.pruneEntry]
      split <;> rfl

theorem pruneOneBlockFile_room (store : BlockStore) (fileNumber : Nat)
    (known : DataKnown store.chain) : KeepsRoom store (store.pruneOneBlockFile fileNumber) := by
  intro n
  by_cases here : n = fileNumber
  · rw [here]
    exact .inl (pruneOneBlockFile_pruned store fileNumber known).2
  · right
    rw [BlockStore.fileInfo, BlockStore.pruneOneBlockFile, pruneEntries_info,
      List.getD_eq_getElem?_getD, List.getElem?_set_ne fun same => here same.symm]
    rfl

theorem keepsRoom_trans (store₁ store₂ store₃ : BlockStore) (first : KeepsRoom store₁ store₂)
    (second : KeepsRoom store₂ store₃) (fewer : Fewer store₂.chain store₃.chain) :
    KeepsRoom store₁ store₃ := by
  intro n
  rcases second n with cleared | same₂
  · exact .inl cleared
  · rcases first n with cleared | same₁
    · exact .inl (cleared_fewer _ _ n cleared fewer)
    · exact .inr (same₂.trans same₁)

theorem pruneLoop_room (config : StorageConfig) (nLastBlockWeCanPrune : Nat)
    (fileNumbers : List Nat) (nCurrentUsage : Nat) (store : BlockStore)
    (known : DataKnown store.chain) :
    KeepsRoom store
      (BlockStore.pruneLoop config nLastBlockWeCanPrune fileNumbers nCurrentUsage store).1 := by
  induction fileNumbers generalizing nCurrentUsage store with
  | nil => exact fun n => .inr rfl
  | cons fileNumber fileNumbers ih =>
      rw [BlockStore.pruneLoop]
      split_ifs
      · exact ih nCurrentUsage store known
      · exact fun n => .inr rfl
      · exact ih nCurrentUsage store known
      · have first := (pruneOneBlockFile_pruned store fileNumber known).1
        have later := dataKnown_fewer _ _ known first.fewer
        have rest := ih (nCurrentUsage -
          ((store.fileInfo fileNumber).nSize + (store.fileInfo fileNumber).nUndoSize))
          (store.pruneOneBlockFile fileNumber) later
        have fewer := (pruneLoop_pruned config nLastBlockWeCanPrune fileNumbers (nCurrentUsage -
          ((store.fileInfo fileNumber).nSize + (store.fileInfo fileNumber).nUndoSize))
          (store.pruneOneBlockFile fileNumber) later).1.fewer
        exact keepsRoom_trans _ _ _ (pruneOneBlockFile_room store fileNumber known) rest fewer

theorem selectPruned_room (config : StorageConfig) (store : BlockStore)
    (known : DataKnown store.chain) : KeepsRoom store (store.selectPruned config).1 := by
  have found : KeepsRoom store (store.findFilesToPrune config).1 := by
    rw [BlockStore.findFilesToPrune]
    cases store.chain.tip with
    | none => exact fun n => .inr rfl
    | some tip =>
        dsimp only
        split
        · exact fun n => .inr rfl
        · split
          · exact pruneLoop_room config _ _ _ store known
          · exact fun n => .inr rfl
  rw [BlockStore.selectPruned]
  split
  · exact found
  · exact fun n => .inr rfl

theorem unlinkPrunedFiles_info (removes : Nat → Bool) (setFilesToPrune : List Nat)
    (store : BlockStore) :
    (store.unlinkPrunedFiles removes setFilesToPrune).1.vinfoBlockFile = store.vinfoBlockFile := by
  induction setFilesToPrune generalizing store with
  | nil => rfl
  | cons fileNumber setFilesToPrune ih =>
      rw [BlockStore.unlinkPrunedFiles]
      split
      · exact ih _
      · rfl

theorem writeIndex_info (trial : FlushTrial) (setFilesToPrune : List Nat) (store : BlockStore) :
    (store.writeIndex trial setFilesToPrune).1.vinfoBlockFile = store.vinfoBlockFile := by
  rw [BlockStore.writeIndex]
  split
  · rfl
  · dsimp only
    split
    · rfl
    · exact unlinkPrunedFiles_info _ _ _

/-- Once the files to prune are chosen, a flush changes neither an entry nor a size. -/
theorem flush_files (config : StorageConfig) (trial : FlushTrial) (mode : FlushStateMode)
    (storage : Storage) :
    let files := (storage.files.selectPruned config).1
    let files' := (storage.flushStateToDisk config trial mode).1.files
    files'.chain.known = files.chain.known ∧ files'.chain.entry = files.chain.entry ∧
      files'.vinfoBlockFile = files.vinfoBlockFile := by
  dsimp only
  rw [Storage.flushStateToDisk]
  generalize storage.files.selectPruned config = result
  obtain ⟨files, setFilesToPrune⟩ := result
  dsimp only
  split
  · exact ⟨rfl, rfl, rfl⟩
  · rw [Storage.writeState]
    split
    · exact ⟨rfl, rfl, rfl⟩
    · have written := BlockStore.writeIndex_result trial setFilesToPrune
        (({ storage with files }.begin (!setFilesToPrune.isEmpty) trial.nNow)).files
      have info := writeIndex_info trial setFilesToPrune
        (({ storage with files }.begin (!setFilesToPrune.isEmpty) trial.nNow)).files
      generalize BlockStore.writeIndex trial setFilesToPrune _ = result at written info ⊢
      obtain ⟨files', done⟩ := result
      dsimp only at written info ⊢
      have same : files'.chain.known = files.chain.known ∧ files'.chain.entry = files.chain.entry ∧
          files'.vinfoBlockFile = files.vinfoBlockFile := by
        rw [written.1, info]
        exact ⟨rfl, rfl, rfl⟩
      split
      · exact same
      · split
        · rw [Storage.flushCoins]
          split_ifs <;> exact same
        · exact same

namespace DataStore

/-- Opening the last block file again does not empty it. -/
def FlushReopens (config : StorageConfig) (trial : FlushTrial) (recreates : Bool)
    (mode : FlushStateMode) (s : DataStore) : Prop :=
  (flushPlan config trial mode s.storage).2 = true →
    Reopens trial.opensBlock recreates (s.contents s.storage.files.nLastBlockFile)

theorem flush_keeps (config : StorageConfig) (trial : FlushTrial) (recreates : Bool)
    (mode : FlushStateMode) (s : DataStore) (known : DataKnown s.chain)
    (reopens : s.FlushReopens config trial recreates mode) :
    s.Keeps (s.flushStateToDisk config trial recreates mode) := by
  obtain ⟨pruned, cleared⟩ := selectPruned_pruned config s.storage.files known
  have room := selectPruned_room config s.storage.files known
  obtain ⟨known', entry, info⟩ := flush_files config trial mode s.storage
  have fewer : Fewer (s.storage.files.selectPruned config).1.chain
      (s.flushStateToDisk config trial recreates mode).chain := fewer_same _ _ known' entry
  have plan : (flushPlan config trial mode s.storage).1 =
      (s.storage.files.selectPruned config).2 := rfl
  refine ⟨fewer_trans _ _ _ pruned.fewer fewer, fun p data => if_pos data, rfl, fun n => ?_⟩
  have size : (s.flushStateToDisk config trial recreates mode).storage.files.fileInfo n =
      (s.storage.files.selectPruned config).1.fileInfo n := by
    rw [BlockStore.fileInfo, BlockStore.fileInfo]
    exact congrArg (·.getD n .null) info
  rcases room n with gone | same
  · exact .inl (cleared_fewer _ _ n gone fewer)
  rw [size, same]
  have opened : (flushPlan config trial mode s.storage).2 = true →
      KeepsBelow (s.storage.files.fileInfo n).nSize (s.contents n)
        (Function.update s.contents s.storage.files.nLastBlockFile
          (reopen (trial.opensBlock && recreates)
            (s.contents s.storage.files.nLastBlockFile)) n) := by
    intro writes
    rw [Function.update_apply]
    split
    · rename_i last
      rcases reopens writes with quiet | empty
      · cases opens : trial.opensBlock with
        | false =>
            rw [last]
            exact keepsBelow_refl _ _
        | true =>
            rw [last, quiet opens]
            exact keepsBelow_refl _ _
      · rw [last, empty]
        exact keepsBelow_nil _ _
    · exact keepsBelow_refl _ _
  rw [flushStateToDisk, flushContents]
  dsimp only
  rw [plan]
  cases writes : (flushPlan config trial mode s.storage).2 with
  | false => exact .inr ⟨le_rfl, keepsBelow_refl _ _⟩
  | true =>
      rw [Bool.not_true, if_neg Bool.false_ne_true]
      split
      · exact .inr ⟨le_rfl, opened writes⟩
      · by_cases removed : n ∈ (s.storage.files.selectPruned config).2.takeWhile trial.removes
        · exact .inl (cleared_fewer _ _ n (cleared n ((List.takeWhile_prefix _).subset removed)) fewer)
        · dsimp only
          rw [if_neg removed]
          exact .inr ⟨le_rfl, opened writes⟩

/-! ## Accepting a block -/

section Accepting

variable (w : Surroundings) (env : Environment) (config : StorageConfig) (messageStart : BitVec 32)

/-- After `AcceptBlockHeader`. -/
def headed (call : DataCall) (s : DataStore) : DataStore :=
  s.setFiles (s.storage.files.acceptBlockHeader w (call.offered env)).1

/-- `AcceptBlock` comes to `WriteBlockToDisk`: it wants the block, there is no position given, and
`FindBlockPos` succeeds. -/
def Writes (call : DataCall) (s : DataStore) : Prop :=
  s.storage.files.Writes w (call.offered env) ∧ call.dbp = none ∧
    ((s.headed w env call).storage.files.findBlockPos config call.freeBytes call.nAddSize
      ((s.headed w env call).chain.nHeight (env.blockHash call.block.header))
      call.block.header.nTime.toNat call.dbp).2 = true

/-- What a call must meet. A block with a known position lies there; a `WriteBlockToDisk` that does
not throw writes the whole block; and opening a file never empties one with something in it. -/
structure Careful (call : DataCall) (s : DataStore) : Prop where
  promised : ∀ pos, call.dbp = some pos → Holds (s.contents pos.1) pos.2 call.block.write
  written : s.Writes w env config call →
    call.writing.threw = true ∨ call.writing.whole = true
  allocated : s.storage.files.Writes w (call.offered env) →
    Reopens call.allocation.opens call.allocation.recreates
      (s.contents ((s.headed w env call).pos call).1)
  opened : s.Writes w env config call →
    Reopens call.writing.opens call.writing.recreates
      (s.contents ((s.headed w env call).pos call).1)
  flushed : (s.storeBlock w env config messageStart call).2 = .stored →
    (s.storeBlock w env config messageStart call).1.FlushReopens config call.flush
      call.flushRecreates .none

theorem writeBlock_eq (call : DataCall) (block : OfferedBlock) (s : DataStore) :
    s.writeBlock w config messageStart call block =
      if !(s.storage.files.findBlockPos config call.freeBytes call.nAddSize
          (s.chain.nHeight block.hash) call.block.header.nTime.toNat call.dbp).2 then
        (s.reserve config call (s.chain.nHeight block.hash), .refused)
      else if call.dbp.isSome then
        ((s.reserve config call (s.chain.nHeight block.hash)).receive w call block (s.pos call),
          .stored)
      else
        match s.written config messageStart call (s.chain.nHeight block.hash) with
        | (file, .threw) =>
            ((s.reserve config call (s.chain.nHeight block.hash)).writeFile (s.pos call).1 file,
              .refused)
        | (file, .returned _ nPos) =>
            (((s.reserve config call (s.chain.nHeight block.hash)).writeFile (s.pos call).1
              file).receive w call block ((s.pos call).1, nPos), .stored) := rfl

theorem writeBlock_sound (call : DataCall) (s : DataStore) (sound : s.Sound env)
    (known : env.blockHash call.block.header ∈ s.chain.known)
    (pow : readBlockFromDiskPow env.blockHash env.params call.block.header = true)
    (sized : call.block.Sized)
    (promised : ∀ pos, call.dbp = some pos → Holds (s.contents pos.1) pos.2 call.block.write)
    (written : call.dbp = none →
      (s.storage.files.findBlockPos config call.freeBytes call.nAddSize
        (s.chain.nHeight (env.blockHash call.block.header)) call.block.header.nTime.toNat
        call.dbp).2 = true →
      (call.writing.threw = true ∨ call.writing.whole = true) ∧
        Reopens call.writing.opens call.writing.recreates (s.contents (s.pos call).1))
    (allocated : Reopens call.allocation.opens call.allocation.recreates
      (s.contents (s.pos call).1)) :
    (s.writeBlock w config messageStart call (call.offered env)).1.Sound env := by
  have hash : (call.offered env).hash = env.blockHash call.block.header := rfl
  have length : call.block.write.length = call.block.serializeSize := block_length call.block
  rw [writeBlock_eq, hash]
  generalize s.chain.nHeight (env.blockHash call.block.header) = nHeight at written ⊢
  have reserved := sound_keeps env _ _ sound (reserved_keeps config call nHeight s allocated)
  have there : ∀ s' : DataStore, s'.storage.files = (s.reserve config call nHeight).storage.files →
      (call.offered env).hash ∈ s'.chain.known ∧
        (s.pos call).2 + call.nAddSize ≤ (s'.storage.files.fileInfo (s.pos call).1).nSize := by
    intro s' files
    rw [DataStore.chain, files]
    have chain := reserve_chain config call nHeight s
    rw [DataStore.chain] at chain
    rw [chain, reserve_size, if_pos rfl]
    exact ⟨known, Nat.le_max_left _ _⟩
  split
  · exact reserved
  · rename_i room
    rw [Bool.not_eq_true', Bool.not_eq_false] at room
    split
    · rename_i placed
      obtain ⟨pos, dbp⟩ := Option.isSome_iff_exists.mp placed
      have same : s.pos call = pos := by rw [DataStore.pos, dbp]; rfl
      obtain ⟨member, size⟩ := there _ rfl
      apply receive_sound w env call _ _ _ reserved rfl member pow sized
      · rw [DataCall.nAddSize] at size
        omega
      · have kept := preallocate_contents call s (pos.2 + call.block.write.length) pos.1 allocated
        rw [same]
        exact kept pos.2 call.block.write le_rfl (promised pos dbp)
    · rename_i fresh
      have none_known : call.dbp = none := by
        rw [← Option.not_isSome_iff_eq_none]
        exact fresh
      obtain ⟨outcome, opened⟩ := written none_known room
      have kept := sound_keeps env _ _ sound
        (written_keeps config messageStart call nHeight s none_known allocated opened)
      rcases outcome with threw | whole
      · have result := (writeBlockToDisk_threw messageStart call.writing call.block
          (s.pos call).2 ((s.reserve config call nHeight).contents (s.pos call).1)).mpr threw
        rw [← DataStore.written] at result
        generalize s.written config messageStart call nHeight = outcome at result kept ⊢
        obtain ⟨file, threw'⟩ := outcome
        dsimp only at result kept
        rw [result]
        exact kept
      · obtain ⟨result, held⟩ := writeBlockToDisk_whole messageStart call.writing call.block
          (s.pos call).2 ((s.reserve config call nHeight).contents (s.pos call).1) whole
        rw [← DataStore.written] at result held
        generalize s.written config messageStart call nHeight = outcome at result held kept ⊢
        obtain ⟨file, returned⟩ := outcome
        dsimp only at result held kept
        rw [result]
        obtain ⟨member, size⟩ := there
          ((s.reserve config call nHeight).writeFile (s.pos call).1 file) rfl
        apply receive_sound w env call _ _ _ kept rfl member pow sized
        · rw [DataCall.nAddSize] at size
          dsimp only
          omega
        · dsimp only [writeFile]
          rw [Function.update_self]
          exact held

theorem header_keeps (call : DataCall) (s : DataStore) : s.Keeps (s.headed w env call) := by
  have fewer := fewer_accept_header w s.chain (call.offered env)
  refine keeps_chain s _ ?_ (header_last w s.storage.files (call.offered env)).2.1
  rw [DataStore.chain] at fewer ⊢
  rw [BlockStore.acceptBlockHeader]
  generalize s.storage.files.chain.acceptBlockHeader w (call.offered env) = result at fewer ⊢
  obtain ⟨chain, accepted⟩ := result
  dsimp only at fewer ⊢
  split
  · exact fewer
  · exact fewer_refl _

/-- A block with the verdict `valid` has passed `CheckBlock`. -/
theorem offered_valid (call : DataCall) (valid : (call.offered env).check = .valid) :
    readBlockFromDiskPow env.blockHash env.params call.block.header = true ∧
      call.block.Sized := by
  rw [DataCall.offered] at valid
  dsimp only at valid
  cases passed : checkBlock { env with adjustedTime := call.adjustedTime } call.block true true with
  | error failure =>
      rw [passed] at valid
      cases failure with
      | invalid rejection =>
          dsimp only [Failure.verdict] at valid
          split at valid <;> cases valid
      | _ => cases valid
  | ok _ =>
      refine ⟨?_, checkBlock_sized _ _ _ _ passed⟩
      have header := passed
      rw [checkBlock, then_ok] at header
      exact accepted_pow env.blockHash call.adjustedTime env.params call.block.header header.1

theorem storeBlock_sound (call : DataCall) (s : DataStore) (sound : s.Sound env)
    (careful : s.Careful w env config messageStart call) :
    (s.storeBlock w env config messageStart call).1.Sound env := by
  have headed := sound_keeps env _ _ sound (header_keeps w env call s)
  have known := header_accepted w s.storage.files (call.offered env)
  have promised := careful.promised
  have written : s.storage.files.Writes w (call.offered env) → call.dbp = none → _ :=
    fun writes fresh room => And.intro (careful.written ⟨writes, fresh, room⟩)
      (careful.opened ⟨writes, fresh, room⟩)
  have allocated := careful.allocated
  rw [BlockStore.Writes] at written allocated
  rw [storeBlock]
  rw [DataStore.headed] at headed written allocated
  generalize s.storage.files.acceptBlockHeader w (call.offered env) = result
    at headed known written allocated ⊢
  obtain ⟨files, accepted⟩ := result
  dsimp only at headed known written allocated ⊢
  split
  · exact headed
  · rename_i yes
    rw [Bool.not_eq_true', Bool.not_eq_false] at yes
    split
    · exact headed
    · rename_i missing
      rw [Bool.not_eq_true] at missing
      split
      · exact headed
      · rename_i asked
        split
        · exact sound_keeps env _ _ headed (keeps_chain _ _
            (fewer_failed_valid files.chain (call.offered env).hash) rfl)
        · rename_i fit
          split
          · exact headed
          · rename_i intact
            have valid : (call.offered env).check = .valid := by
              cases verdict : (call.offered env).check with
              | valid => rfl
              | invalid => exact (fit (.inl verdict)).elim
              | corrupt => exact (intact verdict).elim
            have comes : accepted = true ∧ files.chain.haveData (call.offered env).hash = false ∧
                ((call.offered env).fRequested = true ∨
                  files.chain.unwanted (call.offered env).hash = false) ∧
                (call.offered env).check = .valid ∧ (call.offered env).nTx ≠ 0 := by
              refine ⟨yes, missing, ?_, valid, fun empty => fit (.inr empty)⟩
              by_contra neither
              rw [not_or, Bool.not_eq_true, Bool.not_eq_false] at neither
              exact asked (by
                rw [neither.1]
                exact neither.2)
            obtain ⟨pow, sized⟩ := offered_valid env call valid
            exact writeBlock_sound w env config messageStart call _ headed (known yes) pow sized
              promised (written comes) (allocated comes)

theorem acceptBlock_sound (call : DataCall) (s : DataStore) (sound : s.Sound env)
    (careful : s.Careful w env config messageStart call) :
    (s.acceptBlock w env config messageStart call).1.Sound env := by
  have stored := storeBlock_sound w env config messageStart call s sound careful
  have flushed := careful.flushed
  rw [acceptBlock]
  generalize s.storeBlock w env config messageStart call = result at stored flushed ⊢
  obtain ⟨s', outcome⟩ := result
  dsimp only at stored flushed ⊢
  split
  · rename_i due
    exact sound_keeps env _ _ stored
      (flush_keeps config call.flush call.flushRecreates .none s' stored.known (flushed due.1))
  · exact stored

/-- Without the bytes this is the part of `AcceptBlock` of the index alone. -/
theorem writeBlock_files (call : DataCall) (block : OfferedBlock) (s : DataStore) :
    (s.writeBlock w config messageStart call block).1.storage =
        { s.storage with files := (s.storage.files.writeBlock w config call.trial block).1 } ∧
      (s.writeBlock w config messageStart call block).2 =
        (s.storage.files.writeBlock w config call.trial block).2 := by
  obtain ⟨-, -, -, -, last⟩ := findBlockPos_same config call.freeBytes s.storage.files
    call.nAddSize (s.chain.nHeight block.hash) call.block.header.nTime.toNat call.dbp
  have threw := writeBlockToDisk_threw messageStart call.writing call.block (s.pos call).2
    ((s.reserve config call (s.chain.nHeight block.hash)).contents (s.pos call).1)
  rw [← DataStore.written] at threw
  have storage := (preallocate_same call s).1
  have reserved : (s.reserve config call (s.chain.nHeight block.hash)).storage =
      { s.storage with
        files := (s.storage.files.findBlockPos config call.freeBytes call.nAddSize
          (s.chain.nHeight block.hash) call.block.header.nTime.toNat call.dbp).1 } := by
    rw [reserve, setFiles, storage]
  have first : (s.pos call).1 = s.storage.files.blockFile call.nAddSize call.dbp := rfl
  rw [writeBlock_eq, BlockStore.writeBlock]
  change _ ∧ _ = (_ : BlockStore × AcceptResult).2
  generalize s.written config messageStart call (s.chain.nHeight block.hash) = outcome at threw ⊢
  generalize s.reserve config call (s.chain.nHeight block.hash) = reserve at reserved ⊢
  have trial : call.trial.freeBytes = call.freeBytes ∧ call.trial.nBlockSize + 8 = call.nAddSize ∧
      call.trial.nTime = call.block.header.nTime.toNat ∧ call.trial.known = call.dbp ∧
      call.trial.throws = call.writing.threw := ⟨rfl, rfl, rfl, rfl, rfl⟩
  obtain ⟨free, size, time, known, throws⟩ := trial
  rw [free, size, time, known, throws]
  have height : s.storage.files.chain.nHeight block.hash = s.chain.nHeight block.hash := rfl
  rw [height]
  generalize s.storage.files.findBlockPos config call.freeBytes call.nAddSize
    (s.chain.nHeight block.hash) call.block.header.nTime.toNat call.dbp = result at last reserved ⊢
  obtain ⟨files, found⟩ := result
  dsimp only at last reserved ⊢
  have placed := (placeBlock_same call.trial block.hash files).2
  have received : ∀ s' : DataStore, s'.storage = reserve.storage → ∀ nPos,
      (s'.receive w call block ((s.pos call).1, nPos)).storage =
        { s.storage with
          files := (files.placeBlock call.trial block.hash).touch block.hash fun chain =>
            chain.receivedBlockTransactions w block.nTx
              (files.placeBlock call.trial block.hash).nLastBlockFile block.hash } := by
    intro s' same nPos
    rw [placed, last, ← first, receive, setFiles, same, reserved]
  cases found with
  | false => exact ⟨reserved, rfl⟩
  | true =>
      cases dbp : call.dbp with
      | some pos => exact ⟨received reserve rfl (s.pos call).2, rfl⟩
      | none =>
          obtain ⟨file, done⟩ := outcome
          dsimp only at threw
          cases done with
          | threw =>
              rw [threw.mp rfl]
              exact ⟨reserved, rfl⟩
          | returned written nPos =>
              cases quiet : call.writing.threw with
              | true => cases threw.mpr quiet
              | false => exact ⟨received (reserve.writeFile (s.pos call).1 file) rfl nPos, rfl⟩

/-- Without the bytes this is `AcceptBlock` of the index alone. -/
theorem acceptBlock_storage (call : DataCall) (s : DataStore) :
    (s.acceptBlock w env config messageStart call).1.storage =
        (s.storage.acceptBlock w config call.trial call.flush (call.offered env)).1 ∧
      (s.acceptBlock w env config messageStart call).2 =
        (s.storage.acceptBlock w config call.trial call.flush (call.offered env)).2 := by
  have stored : (s.storeBlock w env config messageStart call).1.storage =
        { s.storage with
          files := (s.storage.files.acceptBlock w config call.trial (call.offered env)).1 } ∧
      (s.storeBlock w env config messageStart call).2 =
        (s.storage.files.acceptBlock w config call.trial (call.offered env)).2 := by
    rw [storeBlock, BlockStore.acceptBlock]
    generalize s.storage.files.acceptBlockHeader w (call.offered env) = result
    obtain ⟨files, known⟩ := result
    dsimp only
    have chain : (s.setFiles files).chain = files.chain := rfl
    rw [chain]
    cases known with
    | false => exact ⟨rfl, rfl⟩
    | true =>
        rw [Bool.not_true]
        by_cases has : files.chain.haveData (call.offered env).hash = true
        · simp only [if_neg Bool.false_ne_true, if_pos has]
          exact ⟨rfl, trivial⟩
        by_cases unasked : (!(call.offered env).fRequested &&
            files.chain.unwanted (call.offered env).hash) = true
        · simp only [if_neg Bool.false_ne_true, if_neg has, if_pos unasked]
          exact ⟨rfl, trivial⟩
        by_cases invalid : (call.offered env).check = .invalid ∨ (call.offered env).nTx = 0
        · simp only [if_neg Bool.false_ne_true, if_neg has, if_neg unasked, if_pos invalid]
          exact ⟨rfl, trivial⟩
        by_cases corrupt : (call.offered env).check = .corrupt
        · simp only [if_neg Bool.false_ne_true, if_neg has, if_neg unasked, if_neg invalid,
            if_pos corrupt]
          exact ⟨rfl, trivial⟩
        simp only [if_neg Bool.false_ne_true, if_neg has, if_neg unasked, if_neg invalid,
          if_neg corrupt]
        exact writeBlock_files w config messageStart call (call.offered env) (s.setFiles files)
  rw [acceptBlock, Storage.acceptBlock]
  generalize s.storeBlock w env config messageStart call = result at stored ⊢
  generalize s.storage.files.acceptBlock w config call.trial (call.offered env) = result' at stored ⊢
  obtain ⟨s', outcome⟩ := result
  obtain ⟨files, outcome'⟩ := result'
  dsimp only at stored ⊢
  obtain ⟨storage, rfl⟩ := stored
  rw [storage]
  split_ifs
  · refine ⟨?_, rfl⟩
    rw [flushStateToDisk, storage]
  · exact ⟨storage, rfl⟩

/-! ## Runs -/

/-- What the rest of the node does between two calls: it writes no block file. -/
structure Elsewhere (s s' : DataStore) : Prop where
  fewer : Fewer s.chain s'.chain
  positions : s'.nDataPos = s.nDataPos
  received : s'.received = s.received
  contents : s'.contents = s.contents
  sizes : ∀ n, (s'.storage.files.fileInfo n).nSize = (s.storage.files.fileInfo n).nSize

/-- The states of the runs of `AcceptBlock` in which every call has a property. -/
inductive Reached (every : DataCall → DataStore → Prop) (start : DataStore) : DataStore → Prop where
  | start : Reached every start start
  | accept (s : DataStore) (call : DataCall) (before : Reached every start s)
      (holds : every call s) :
      Reached every start (s.acceptBlock w env config messageStart call).1
  | elsewhere (s s' : DataStore) (before : Reached every start s) (step : Elsewhere s s') :
      Reached every start s'

theorem reached_sound (start : DataStore) (sound : start.Sound env) (s : DataStore)
    (reached : Reached w env config messageStart
      (fun call s => s.Careful w env config messageStart call) start s) : s.Sound env := by
  induction reached with
  | start => exact sound
  | accept s call before careful ih => exact acceptBlock_sound w env config messageStart call s ih careful
  | elsewhere s s' before step ih =>
      refine sound_keeps env s s' ih ⟨step.fewer, fun p _ => congrFun step.positions p,
        step.received, fun n => .inr ⟨le_of_eq (step.sizes n).symm, ?_⟩⟩
      rw [step.contents]
      exact keepsBelow_refl _ _

/-- An entry with `BLOCK_HAVE_DATA` was given a block, the block lies whole where the entry says,
and reading gives that block. -/
theorem have_data_stored (start : DataStore) (sound : start.Sound env) (s : DataStore)
    (reached : Reached w env config messageStart
      (fun call s => s.Careful w env config messageStart call) start s)
    (pindex : Uint256) (data : s.chain.haveData pindex = true) :
    ∃ block, s.received pindex = some block ∧
      Holds (s.contents (s.nFile pindex)) (s.nDataPos pindex) block.write ∧
      s.readBlock pindex env = some block := by
  have reachedSound := reached_sound w env config messageStart start sound s reached
  obtain ⟨block, received, whole⟩ := reachedSound.whole pindex data
  refine ⟨block, received, whole.held, ?_⟩
  have read := readBlockFromDisk_held env _ _ block whole.typed whole.sized whole.pow whole.held
  rw [readBlock, getBlockPos, if_pos data]
  simp only [Option.bind_eq_bind, Option.bind_some, read, whole.hash, if_true]

end Accepting

end DataStore

/-! ## A file that cannot be opened -/

/-- `pchMessageStart` of the main network. -/
def mainMessageStart : BitVec 32 := 0x29112710

def plainGenesis : CBlock := ⟨⟨1, 0, 7, 0, 0x2000ffff, 0, 0, 0⟩, [coinbasePaying 0]⟩

def firstBlock : CBlock := ⟨firstHeader 7, [coinbasePaying 0]⟩

theorem coinbasePaying_typed : (coinbasePaying 0).Typed where
  version := by decide
  values := by simp [coinbasePaying]

/-- A node that has its block files but no index. -/
def reindexing : DataStore where
  storage := {
    files := {
      chain := .start
      vinfoBlockFile := []
      nLastBlockFile := 0
      setDirtyFileInfo := []
      setDirtyBlockIndex := []
      fCheckForPruning := false
      blk := fun _ => .empty
      rev := fun _ => .empty
      blocktree := [] }
    pcoinsTip := ⟨fun _ => none, 0⟩
    coinsdb := ⟨fun _ => none, 0⟩
    nLastWrite := 1
    nLastFlush := 1 }
  nDataPos _ := 0
  contents nFile :=
    if nFile = 0 then writeHead mainMessageStart plainGenesis ++ plainGenesis.write else []
  received _ := none

/-- The genesis block is found in its file. -/
def findGenesis : DataCall where
  block := plainGenesis
  typed := by
    intro tx member
    rw [List.mem_singleton.mp member]
    exact coinbasePaying_typed
  adjustedTime := 0
  contextualHeader := true
  contextual := .valid
  fRequested := true
  dbp := some (0, 8)
  freeBytes := 100000000
  allocation := ⟨true, false, true⟩
  writing := ⟨true, false, true, true, true, true, 0⟩
  flush := ⟨2, 0, false, 0, 100000000, 100000000, true, true, true, true, fun _ => true, true⟩
  flushRecreates := false

/-- A first block arrives; `opens` tells whether its file can be opened. -/
def firstArrives (opens : Bool) : DataCall where
  block := firstBlock
  typed := by
    intro tx member
    rw [List.mem_singleton.mp member]
    exact coinbasePaying_typed
  adjustedTime := 0
  contextualHeader := true
  contextual := .valid
  fRequested := true
  dbp := none
  freeBytes := 100000000
  allocation := ⟨opens, false, true⟩
  writing := ⟨opens, false, true, true, true, true, 0⟩
  flush := findGenesis.flush
  flushRecreates := false

namespace DataStore

def afterFirst (opens : Bool) : DataStore :=
  ((reindexing.acceptBlock plainSurroundings plainEnvironment noPruning mainMessageStart
    findGenesis).1.acceptBlock plainSurroundings plainEnvironment noPruning mainMessageStart
      (firstArrives opens)).1

theorem reindexing_sound : reindexing.Sound plainEnvironment :=
  ⟨fun _ data => (Bool.false_ne_true data).elim, fun _ data => (Bool.false_ne_true data).elim⟩

theorem genesis_promised (pos : Nat × Nat) (dbp : findGenesis.dbp = some pos) :
    Holds (reindexing.contents pos.1) pos.2 findGenesis.block.write := by
  cases dbp
  decide +kernel

/-- The callers keep their promise about known positions. The first block is noted in its entry
though its file could not be opened, and nothing is read there. -/
theorem unopened_file_recorded :
    Reached plainSurroundings plainEnvironment noPruning mainMessageStart
      (fun call s => ∀ pos, call.dbp = some pos →
        Holds (s.contents pos.1) pos.2 call.block.write) reindexing (afterFirst false) ∧
    reindexing.Sound plainEnvironment ∧
    (afterFirst false).chain.haveData 1 = true ∧
    (afterFirst false).received 1 = some firstBlock ∧
    (afterFirst false).readBlock 1 plainEnvironment = none := by
  refine ⟨.accept _ _ (.accept _ _ .start genesis_promised) ?_, reindexing_sound,
    by decide +kernel, by decide +kernel, by decide +kernel⟩
  intro pos dbp
  cases dbp

theorem findGenesis_careful : reindexing.Careful plainSurroundings plainEnvironment noPruning
    mainMessageStart findGenesis where
  promised := genesis_promised
  written writes := by cases writes.2.1
  allocated _ := .inl fun _ => rfl
  opened writes := by cases writes.2.1
  flushed _ _ := .inl fun _ => rfl

theorem firstArrives_careful (s : DataStore) : s.Careful plainSurroundings plainEnvironment
    noPruning mainMessageStart (firstArrives true) where
  promised pos dbp := by cases dbp
  written _ := .inr rfl
  allocated _ := .inl fun _ => rfl
  opened _ := .inl fun _ => rfl
  flushed _ _ := .inl fun _ => rfl

theorem have_data_stored_first :
    ∃ block, (afterFirst true).received 1 = some block ∧
      Holds ((afterFirst true).contents ((afterFirst true).nFile 1)) ((afterFirst true).nDataPos 1)
        block.write ∧
      (afterFirst true).readBlock 1 plainEnvironment = some block :=
  have_data_stored plainSurroundings plainEnvironment noPruning mainMessageStart reindexing
    reindexing_sound (afterFirst true)
    (.accept _ _ (.accept _ _ .start findGenesis_careful) (firstArrives_careful _)) 1
    (by decide +kernel)

end DataStore

end RoiCoin
