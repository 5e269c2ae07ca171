import RoiCoin.ChainParams
import RoiCoin.Validation.StoreBlock
import RoiCoin.Validation.AcceptInvariant

/-! The order in which blocks, undo data and index entries reach the disk, over runs of
`AcceptBlock`, `ConnectBlock` and `FlushStateToDisk`. -/

namespace RoiCoin

open ChainState

/-! ## What the entries point at -/

/-- A new entry points at nothing but what the old one points at. -/
structure PointsWithin (entry entry' : BlockEntry) : Prop where
  data : entry'.nStatus.haveData = true →
    entry.nStatus.haveData = true ∧ entry'.nFile = entry.nFile
  undo : entry'.nStatus.haveUndo = true →
    (entry.nStatus.haveData = true → entry'.nStatus.haveData = true) ∧
      entry.nStatus.haveUndo = true ∧ entry'.nFile = entry.nFile

theorem pointsWithin_refl (entry : BlockEntry) : PointsWithin entry entry :=
  ⟨fun data => ⟨data, rfl⟩, fun undo => ⟨id, undo, rfl⟩⟩

theorem pointsWithin_trans (entry₁ entry₂ entry₃ : BlockEntry) (first : PointsWithin entry₁ entry₂)
    (second : PointsWithin entry₂ entry₃) : PointsWithin entry₁ entry₃ := by
  constructor
  · intro data
    obtain ⟨middle, file₂⟩ := second.data data
    obtain ⟨before, file₁⟩ := first.data middle
    exact ⟨before, file₂.trans file₁⟩
  · intro undo
    obtain ⟨stays₂, middle, file₂⟩ := second.undo undo
    obtain ⟨stays₁, before, file₁⟩ := first.undo middle
    exact ⟨fun data => stays₂ (stays₁ data), before, file₂.trans file₁⟩

/-- An entry that points at nothing. -/
theorem pointsWithin_nothing (entry entry' : BlockEntry) (data : entry'.nStatus.haveData = false)
    (undo : entry'.nStatus.haveUndo = false) : PointsWithin entry entry' := by
  constructor
  · intro some
    rw [data] at some
    cases some
  · intro some
    rw [undo] at some
    cases some

/-- No entry of `chain'` points at anything new. -/
structure Fewer (chain chain' : ChainState) : Prop where
  known : ∀ p ∈ chain.known, p ∈ chain'.known
  entries : ∀ p, PointsWithin (chain.entry p) (chain'.entry p)

theorem fewer_refl (chain : ChainState) : Fewer chain chain :=
  ⟨fun _ known => known, fun _ => pointsWithin_refl _⟩

theorem fewer_trans (chain₁ chain₂ chain₃ : ChainState) (first : Fewer chain₁ chain₂)
    (second : Fewer chain₂ chain₃) : Fewer chain₁ chain₃ :=
  ⟨fun p known => second.known p (first.known p known),
    fun p => pointsWithin_trans _ _ _ (first.entries p) (second.entries p)⟩

/-- Only the known entries and the entries themselves matter. -/
theorem fewer_same (chain chain' : ChainState) (known : chain'.known = chain.known)
    (entry : chain'.entry = chain.entry) : Fewer chain chain' := by
  refine ⟨fun p member => by rwa [known], fun p => ?_⟩
  rw [entry]
  exact pointsWithin_refl _

theorem fewer_modify (chain : ChainState) (pindex : Uint256) (change : BlockEntry → BlockEntry)
    (shrinks : PointsWithin (chain.entry pindex) (change (chain.entry pindex))) :
    Fewer chain (chain.modify pindex change) := by
  refine ⟨fun _ known => known, fun p => ?_⟩
  rw [modify_entry]
  split_ifs with here
  · rw [here]
    exact shrinks
  · exact pointsWithin_refl _

theorem raise_have_undo (nStatus : BlockStatus) (nUpTo : Nat) :
    (nStatus.raiseValidity nUpTo).haveUndo = nStatus.haveUndo := by
  rw [BlockStatus.raiseValidity]
  split_ifs <;> rfl

theorem fewer_failed_valid (chain : ChainState) (pindex : Uint256) :
    Fewer chain (chain.setFailedValid pindex) :=
  fewer_modify chain pindex
    (fun entry => { entry with nStatus := { entry.nStatus with failedValid := true } })
    ⟨fun data => ⟨data, rfl⟩, fun undo => ⟨id, undo, rfl⟩⟩

theorem fewer_add (chain : ChainState) (block : OfferedBlock) :
    Fewer chain (chain.addToBlockIndex block) := by
  refine ⟨fun p known => List.mem_cons_of_mem _ known, fun p => ?_⟩
  rw [add_entry]
  split_ifs
  · have status := (fresh_entry chain block).2.2
    exact pointsWithin_nothing _ _ (by rw [status]) (by rw [status])
  · exact pointsWithin_refl _

theorem fewer_accept_header (w : Surroundings) (chain : ChainState) (block : OfferedBlock) :
    Fewer chain (chain.acceptBlockHeader w block).1 := by
  rw [ChainState.acceptBlockHeader]
  split
  · exact fewer_refl chain
  split
  · exact fewer_refl chain
  split
  · exact fewer_add chain block
  split
  · exact fewer_refl chain
  split
  · exact fewer_refl chain
  split
  · exact fewer_refl chain
  · exact fewer_add chain block

theorem fewer_link_one (w : Surroundings) (chain : ChainState) (pindex : Uint256) :
    Fewer chain (chain.linkOne w pindex).1 := by
  have linked := fewer_modify chain pindex
    (fun entry =>
      { entry with
        nChainTx := chain.parentChainTx pindex + entry.nTx
        nSequenceId := chain.nBlockSequenceId })
    ⟨fun data => ⟨data, rfl⟩, fun undo => ⟨id, undo, rfl⟩⟩
  apply fewer_trans _ _ _ linked
  rw [linkOne]
  dsimp only
  split <;> exact fewer_same _ _ rfl rfl

theorem fewer_link_queue (w : Surroundings) (fuel : Nat) (chain : ChainState)
    (queue : List Uint256) : Fewer chain (chain.linkQueue w fuel queue) := by
  induction fuel generalizing chain queue with
  | zero => exact fewer_refl chain
  | succ fuel ih =>
      cases queue with
      | nil => exact fewer_refl chain
      | cons pindex queue =>
          exact fewer_trans _ _ _ (fewer_link_one w chain pindex) (ih _ _)

/-- `ReceivedBlockTransactions` lets one entry point at its block, and no other at anything new. -/
theorem fewer_received (w : Surroundings) (chain : ChainState) (nTx nFile : Nat)
    (pindexNew : Uint256) :
    Fewer (chain.storing nTx nFile pindexNew)
      (chain.receivedBlockTransactions w nTx nFile pindexNew) := by
  rw [receivedBlockTransactions]
  dsimp only
  split
  · exact fewer_link_queue w _ _ _
  · split_ifs
    · exact fewer_link_queue w _ _ _
    · exact fewer_same _ _ rfl rfl
    · exact fewer_refl _

/-! ## The invariant -/

/-- Every entry that points at data points at data that was written. -/
structure Filed (store : BlockStore) : Prop where
  known : ∀ p, (store.chain.entry p).nStatus.haveData = true → p ∈ store.chain.known
  data : ∀ p, (store.chain.entry p).nStatus.haveData = true →
    p ∈ (store.blk (store.chain.entry p).nFile).written
  undo : ∀ p, (store.chain.entry p).nStatus.haveUndo = true →
    (store.chain.entry p).nStatus.haveData = true ∧
      p ∈ (store.rev (store.chain.entry p).nFile).written

/-- Both files of a number are synced. -/
def BlockStore.Settled (store : BlockStore) (nFile : Nat) : Prop :=
  (store.blk nFile).Settled ∧ (store.rev nFile).Settled

/-- What an entry of the batch points at was synced after it was written. -/
def IndexBatch.Synced (batch : IndexBatch) : Prop :=
  ∀ pair ∈ batch.blockinfo,
    (pair.2.nStatus.haveData = true → (batch.blk pair.2.nFile).Durable pair.1) ∧
      (pair.2.nStatus.haveUndo = true → (batch.rev pair.2.nFile).Durable pair.1)

instance (batch : IndexBatch) : Decidable batch.Synced :=
  inferInstanceAs (Decidable (∀ pair ∈ batch.blockinfo, _))

/-- Only the last block file has something to sync, and no batch was written too early. -/
structure Orderly (store : BlockStore) : Prop where
  filed : Filed store
  settled : ∀ nFile, nFile ≠ store.nLastBlockFile → store.Settled nFile
  batches : ∀ batch ∈ store.blocktree, batch.Synced

theorem filed_fewer (store store' : BlockStore) (filed : Filed store)
    (fewer : Fewer store.chain store'.chain)
    (blk : ∀ p n, p ∈ (store.blk n).written → p ∈ (store'.blk n).written)
    (rev : ∀ p n, p ∈ (store.rev n).written → p ∈ (store'.rev n).written) : Filed store' := by
  refine ⟨?_, ?_, ?_⟩
  · intro p data
    exact fewer.known p (filed.known p ((fewer.entries p).data data).1)
  · intro p data
    obtain ⟨before, same⟩ := (fewer.entries p).data data
    rw [same]
    exact blk p _ (filed.data p before)
  · intro p undo
    obtain ⟨stays, before, same⟩ := (fewer.entries p).undo undo
    obtain ⟨data, member⟩ := filed.undo p before
    rw [same]
    exact ⟨stays data, rev p _ member⟩

/-- A step that only changes the tree, and lets no entry point at anything new. -/
theorem orderly_fewer (store store' : BlockStore) (orderly : Orderly store)
    (fewer : Fewer store.chain store'.chain) (blk : store'.blk = store.blk)
    (rev : store'.rev = store.rev) (last : store'.nLastBlockFile = store.nLastBlockFile)
    (batches : store'.blocktree = store.blocktree) : Orderly store' := by
  refine ⟨filed_fewer store store' orderly.filed fewer ?_ ?_, ?_, ?_⟩
  · intro p n member
    rwa [blk]
  · intro p n member
    rwa [rev]
  · intro nFile other
    rw [BlockStore.Settled, blk, rev]
    rw [last] at other
    exact orderly.settled nFile other
  · rw [batches]
    exact orderly.batches

/-! ## Accepting a block -/

theorem touch_orderly (store : BlockStore) (pindex : Uint256) (change : ChainState → ChainState)
    (orderly : Orderly store) (fewer : Fewer store.chain (change store.chain)) :
    Orderly (store.touch pindex change) :=
  orderly_fewer store _ orderly fewer rfl rfl rfl rfl

theorem acceptBlockHeader_orderly (w : Surroundings) (store : BlockStore) (block : OfferedBlock)
    (orderly : Orderly store) : Orderly (store.acceptBlockHeader w block).1 := by
  have fewer := fewer_accept_header w store.chain block
  rw [BlockStore.acceptBlockHeader]
  generalize store.chain.acceptBlockHeader w block = result at fewer ⊢
  obtain ⟨chain, accepted⟩ := result
  dsimp only at fewer ⊢
  split
  · exact touch_orderly store block.hash (fun _ => chain) orderly fewer
  · exact orderly

/-- What `FindBlockPos` leaves alone. -/
theorem findBlockPos_same (config : StorageConfig) (freeBytes : Nat) (store : BlockStore)
    (nAddSize nHeight nTime : Nat) (known : Option (Nat × Nat)) :
    let store' := (store.findBlockPos config freeBytes nAddSize nHeight nTime known).1
    store'.chain = store.chain ∧ store'.blk = store.blk ∧ store'.rev = store.rev ∧
      store'.blocktree = store.blocktree ∧
      store'.nLastBlockFile = store.blockFile nAddSize known := by
  cases store
  rw [BlockStore.findBlockPos]
  dsimp only
  split
  · exact ⟨rfl, rfl, rfl, rfl, rfl⟩
  · exact ⟨rfl, rfl, rfl, rfl, rfl⟩

theorem findBlockPos_orderly (config : StorageConfig) (freeBytes : Nat) (store : BlockStore)
    (nAddSize nHeight nTime : Nat) (known : Option (Nat × Nat)) (orderly : Orderly store)
    (stays : store.blockFile nAddSize known = store.nLastBlockFile ∨
      store.Settled store.nLastBlockFile) :
    Orderly (store.findBlockPos config freeBytes nAddSize nHeight nTime known).1 := by
  obtain ⟨chain, blk, rev, batches, last⟩ :=
    findBlockPos_same config freeBytes store nAddSize nHeight nTime known
  refine ⟨filed_fewer store _ orderly.filed (by rw [chain]; exact fewer_refl _) ?_ ?_, ?_, ?_⟩
  · intro p n member
    rwa [blk]
  · intro p n member
    rwa [rev]
  · intro nFile other
    rw [last] at other
    rw [BlockStore.Settled, blk, rev]
    by_cases old : nFile = store.nLastBlockFile
    · rw [old]
      rcases stays with same | settled
      · exact (other (old.trans same.symm)).elim
      · exact settled
    · exact orderly.settled nFile old
  · rw [batches]
    exact orderly.batches

theorem placeBlock_same (trial : BlockTrial) (hash : Uint256) (store : BlockStore) :
    (store.placeBlock trial hash).chain = store.chain ∧
      (store.placeBlock trial hash).nLastBlockFile = store.nLastBlockFile := by
  rw [BlockStore.placeBlock]
  split_ifs <;> exact ⟨rfl, rfl⟩

/-- Records are added to the files of the last number. -/
theorem journals_orderly (store : BlockStore) (blk rev : Journal Uint256) (orderly : Orderly store)
    (grows : ∀ p ∈ (store.blk store.nLastBlockFile).written, p ∈ blk.written)
    (growsUndo : ∀ p ∈ (store.rev store.nLastBlockFile).written, p ∈ rev.written) :
    Orderly { store with
      blk := Function.update store.blk store.nLastBlockFile blk
      rev := Function.update store.rev store.nLastBlockFile rev } := by
  refine ⟨filed_fewer store _ orderly.filed (fewer_refl _) ?_ ?_, ?_, orderly.batches⟩
  · exact Journal.written_update _ _ _ grows
  · exact Journal.written_update _ _ _ growsUndo
  · intro nFile other
    have settled := orderly.settled nFile other
    exact ⟨Journal.settled_update _ _ _ _ settled.1 fun here => (other here).elim,
      Journal.settled_update _ _ _ _ settled.2 fun here => (other here).elim⟩

theorem placeBlock_orderly (trial : BlockTrial) (hash : Uint256) (store : BlockStore)
    (orderly : Orderly store) (placed : trial.known.isSome = true ∨ trial.opens = true) :
    Orderly (store.placeBlock trial hash) ∧
      hash ∈ ((store.placeBlock trial hash).blk store.nLastBlockFile).written := by
  have kept : ∀ file : Journal Uint256,
      (∀ p ∈ (store.blk store.nLastBlockFile).written, p ∈ file.written) →
        Orderly { store with blk := Function.update store.blk store.nLastBlockFile file } := by
    intro file grows
    have both := journals_orderly store file (store.rev store.nLastBlockFile) orderly grows
      fun _ member => member
    rw [Function.update_eq_self] at both
    exact both
  rw [BlockStore.placeBlock]
  split_ifs with known opens
  · refine ⟨kept _ fun p member => Journal.mem_relist _ hash p member, ?_⟩
    rw [BlockStore.recallBlock]
    dsimp only
    rw [Function.update_self]
    exact Journal.mem_relist_self _ hash
  · refine ⟨kept _ fun p member => Journal.mem_append _ hash p member, ?_⟩
    rw [BlockStore.appendBlock]
    dsimp only
    rw [Function.update_self]
    exact Journal.mem_append_self _ hash
  · rcases placed with found | found
    · exact (known found).elim
    · exact (opens found).elim

/-- A block that lies in the last file is noted in its entry. -/
theorem received_orderly (w : Surroundings) (store : BlockStore) (nTx : Nat) (pindexNew : Uint256)
    (orderly : Orderly store) (known : pindexNew ∈ store.chain.known)
    (missing : (store.chain.entry pindexNew).nStatus.haveData = false)
    (placed : pindexNew ∈ (store.blk store.nLastBlockFile).written) :
    Orderly (store.touch pindexNew fun chain =>
      chain.receivedBlockTransactions w nTx store.nLastBlockFile pindexNew) := by
  have entry : ∀ p, (store.chain.storing nTx store.nLastBlockFile pindexNew).entry p =
      if p = pindexNew then
        { store.chain.entry pindexNew with
          nTx, nChainTx := 0, nFile := store.nLastBlockFile
          nStatus := BlockStatus.raiseValidity
            { (store.chain.entry pindexNew).nStatus with haveData := true }
            blockValidTransactions }
      else store.chain.entry p := fun p => modify_entry store.chain pindexNew p _
  have stored : Filed { store with
      chain := store.chain.storing nTx store.nLastBlockFile pindexNew } := by
    refine ⟨?_, ?_, ?_⟩
    · intro p data
      dsimp only at data ⊢
      rw [entry] at data
      split_ifs at data with here
      · rw [here]
        exact known
      · exact orderly.filed.known p data
    · intro p data
      dsimp only at data ⊢
      rw [entry] at data ⊢
      split_ifs at data ⊢ with here
      · rw [here]
        exact placed
      · exact orderly.filed.data p data
    · intro p undo
      dsimp only at undo ⊢
      rw [entry] at undo ⊢
      split_ifs at undo ⊢ with here
      · dsimp only at undo
        rw [raise_have_undo] at undo
        have before := (orderly.filed.undo pindexNew undo).1
        rw [missing] at before
        cases before
      · exact orderly.filed.undo p undo
  refine ⟨filed_fewer _ _ stored (fewer_received w store.chain nTx store.nLastBlockFile pindexNew)
    (fun _ _ member => member) fun _ _ member => member, orderly.settled, orderly.batches⟩

/-- `AcceptBlock` goes on to write the block. -/
def BlockStore.Writes (w : Surroundings) (block : OfferedBlock) (store : BlockStore) : Prop :=
  let (store, known) := store.acceptBlockHeader w block
  known = true ∧ store.chain.haveData block.hash = false ∧
    (block.fRequested = true ∨ store.chain.unwanted block.hash = false) ∧
      block.check = .valid ∧ block.nTx ≠ 0

theorem header_accepted (w : Surroundings) (store : BlockStore) (block : OfferedBlock)
    (accepted : (store.acceptBlockHeader w block).2 = true) :
    block.hash ∈ (store.acceptBlockHeader w block).1.chain.known := by
  have known := accept_header_known w store.chain block
  rw [BlockStore.acceptBlockHeader] at accepted ⊢
  generalize store.chain.acceptBlockHeader w block = result at accepted known ⊢
  obtain ⟨chain, accepted'⟩ := result
  dsimp only at accepted known ⊢
  split at accepted
  · rename_i new
    rw [if_pos new]
    exact known accepted
  · rename_i old
    rw [if_neg old]
    by_contra missing
    exact old ⟨missing, known accepted⟩

theorem header_last (w : Surroundings) (store : BlockStore) (block : OfferedBlock) :
    (store.acceptBlockHeader w block).1.nLastBlockFile = store.nLastBlockFile ∧
      (store.acceptBlockHeader w block).1.vinfoBlockFile = store.vinfoBlockFile ∧
      (store.acceptBlockHeader w block).1.blk = store.blk ∧
      (store.acceptBlockHeader w block).1.rev = store.rev := by
  rw [BlockStore.acceptBlockHeader]
  dsimp only
  split_ifs <;> exact ⟨rfl, rfl, rfl, rfl⟩

/-- The block goes into the last file, or that file has nothing to sync; and it is written, unless
an exception stops the function. -/
def BlockTrial.Careful (trial : BlockTrial) (store : BlockStore) : Prop :=
  (store.blockFile (trial.nBlockSize + 8) trial.known = store.nLastBlockFile ∨
      store.Settled store.nLastBlockFile) ∧
    (trial.known.isSome = true ∨ trial.opens = true ∨ trial.throws = true)

theorem writeBlock_orderly (w : Surroundings) (config : StorageConfig) (trial : BlockTrial)
    (block : OfferedBlock) (store : BlockStore) (orderly : Orderly store)
    (known : block.hash ∈ store.chain.known)
    (missing : store.chain.haveData block.hash = false) (careful : trial.Careful store) :
    Orderly (store.writeBlock w config trial block).1 := by
  obtain ⟨stays, placed⟩ := careful
  have found := findBlockPos_orderly config trial.freeBytes store (trial.nBlockSize + 8)
    (store.chain.nHeight block.hash) trial.nTime trial.known orderly stays
  obtain ⟨chain, -, -, -, -⟩ := findBlockPos_same config trial.freeBytes store
    (trial.nBlockSize + 8) (store.chain.nHeight block.hash) trial.nTime trial.known
  rw [BlockStore.writeBlock]
  generalize store.findBlockPos config trial.freeBytes (trial.nBlockSize + 8)
    (store.chain.nHeight block.hash) trial.nTime trial.known = result at found chain ⊢
  obtain ⟨grown, room⟩ := result
  dsimp only at found chain ⊢
  split
  · exact found
  · split
    · exact found
    · rename_i quiet
      rw [Bool.and_eq_true, Option.isNone_iff_eq_none] at quiet
      have lands : trial.known.isSome = true ∨ trial.opens = true := by
        rcases placed with known | opens | throws
        · exact .inl known
        · exact .inr opens
        · cases here : trial.known with
          | none => exact (quiet ⟨here, throws⟩).elim
          | some pos => exact .inl rfl
      obtain ⟨kept, member⟩ := placeBlock_orderly trial block.hash grown found lands
      obtain ⟨chain', last⟩ := placeBlock_same trial block.hash grown
      have file := received_orderly w (grown.placeBlock trial block.hash) block.nTx block.hash kept
        (by rw [chain', chain]; exact known) (by rw [chain', chain]; exact missing)
        (by rw [last]; exact member)
      exact file

theorem acceptBlock_orderly (w : Surroundings) (config : StorageConfig) (trial : BlockTrial)
    (block : OfferedBlock) (store : BlockStore) (orderly : Orderly store)
    (careful : store.Writes w block → trial.Careful store) :
    Orderly (store.acceptBlock w config trial block).1 := by
  have header := acceptBlockHeader_orderly w store block orderly
  have known := header_accepted w store block
  obtain ⟨last, info, blk, rev⟩ := header_last w store block
  rw [BlockStore.Writes] at careful
  rw [BlockStore.acceptBlock]
  generalize store.acceptBlockHeader w block = result at header known last info blk rev careful ⊢
  obtain ⟨noted, accepted⟩ := result
  dsimp only at header known last info blk rev careful ⊢
  split
  · exact header
  · rename_i yes
    rw [Bool.not_eq_true', Bool.not_eq_false] at yes
    split
    · exact header
    · rename_i missing
      rw [Bool.not_eq_true] at missing
      split
      · exact header
      · rename_i wanted
        split
        · exact touch_orderly noted block.hash (fun chain => chain.setFailedValid block.hash) header
            (fewer_failed_valid noted.chain block.hash)
        · rename_i fit
          split
          · exact header
          · rename_i intact
            apply writeBlock_orderly w config trial block noted header (known yes) missing
            have there : trial.Careful store := by
              apply careful
              refine ⟨yes, missing, ?_, ?_, fun empty => fit (.inr empty)⟩
              · by_contra neither
                rw [not_or, Bool.not_eq_true, Bool.not_eq_false] at neither
                exact wanted (by rw [neither.1, neither.2]; rfl)
              · cases verdict : block.check with
                | valid => rfl
                | invalid => exact (fit (.inl verdict)).elim
                | corrupt => exact (intact verdict).elim
            rw [BlockTrial.Careful, BlockStore.Settled, BlockStore.blockFile.eq_def, last, info, blk,
              rev]
            rw [BlockTrial.Careful, BlockStore.Settled, BlockStore.blockFile.eq_def] at there
            exact there

/-! ## Undo data -/

theorem findUndoPos_same (config : StorageConfig) (freeBytes : Nat) (store : BlockStore)
    (nFile nAddSize : Nat) :
    let store' := (store.findUndoPos config freeBytes nFile nAddSize).1
    store'.chain = store.chain ∧ store'.blk = store.blk ∧ store'.rev = store.rev ∧
      store'.blocktree = store.blocktree ∧ store'.nLastBlockFile = store.nLastBlockFile := by
  cases store
  exact ⟨rfl, rfl, rfl, rfl, rfl⟩

theorem noteUndo_orderly (trial : UndoTrial) (pindex : Uint256) (store : BlockStore) (found : Bool)
    (orderly : Orderly store) (data : (store.chain.entry pindex).nStatus.haveData = true)
    (last : (store.chain.entry pindex).nFile = store.nLastBlockFile) :
    Orderly (BlockStore.noteUndo trial pindex (store, found)).1 := by
  rw [BlockStore.noteUndo]
  split
  · exact orderly
  · have written := journals_orderly store (store.blk store.nLastBlockFile)
      ((store.rev store.nLastBlockFile).append pindex) orderly (fun _ member => member)
      fun p member => Journal.mem_append _ pindex p member
    rw [Function.update_eq_self] at written
    have entry : ∀ p, (store.chain.modify pindex fun entry =>
        { entry with
          nStatus := BlockStatus.raiseValidity { entry.nStatus with haveUndo := true }
            blockValidScripts }).entry p =
        if p = pindex then
          { store.chain.entry pindex with
            nStatus := BlockStatus.raiseValidity
              { (store.chain.entry pindex).nStatus with haveUndo := true } blockValidScripts }
        else store.chain.entry p := fun p => modify_entry store.chain pindex p _
    refine ⟨⟨?_, ?_, ?_⟩, ?_, written.batches⟩
    · intro p some
      dsimp only [BlockStore.touch, BlockStore.appendUndo] at some ⊢
      rw [entry] at some
      split_ifs at some with here
      · rw [here]
        exact orderly.filed.known pindex data
      · exact orderly.filed.known p some
    · intro p some
      dsimp only [BlockStore.touch, BlockStore.appendUndo] at some ⊢
      rw [entry] at some ⊢
      split_ifs at some ⊢ with here
      · rw [here]
        exact orderly.filed.data pindex data
      · exact orderly.filed.data p some
    · intro p some
      dsimp only [BlockStore.touch, BlockStore.appendUndo] at some ⊢
      rw [entry] at some ⊢
      split_ifs at some ⊢ with here
      · dsimp only
        rw [BlockStatus.raise_have_data, here, last, Function.update_self]
        exact ⟨data, Journal.mem_append_self _ pindex⟩
      · rw [last]
        exact ⟨(orderly.filed.undo p some).1, (written.filed.undo p some).2⟩
    · intro nFile other
      have settled := written.settled nFile other
      refine ⟨settled.1, ?_⟩
      dsimp only [BlockStore.touch, BlockStore.appendUndo]
      rw [last]
      exact settled.2

theorem writeUndo_orderly (config : StorageConfig) (trial : UndoTrial) (nUndoSize : Nat)
    (pindex : Uint256) (store : BlockStore) (orderly : Orderly store)
    (data : (store.chain.entry pindex).nStatus.haveData = true)
    (last : (store.chain.entry pindex).nStatus.haveUndo = false →
      (store.chain.entry pindex).nFile = store.nLastBlockFile) :
    Orderly (store.writeUndo config trial nUndoSize pindex).1 := by
  rw [BlockStore.writeUndo]
  split
  · split
    · exact orderly
    · have raised : PointsWithin (store.chain.entry pindex)
          { store.chain.entry pindex with
            nStatus := (store.chain.entry pindex).nStatus.raiseValidity blockValidScripts } := by
        constructor
        · intro some
          rw [BlockStatus.raise_have_data] at some
          exact ⟨some, rfl⟩
        · intro some
          rw [raise_have_undo] at some
          refine ⟨fun here => ?_, some, rfl⟩
          rw [BlockStatus.raise_have_data]
          exact here
      exact touch_orderly store pindex
        (fun chain => chain.modify pindex fun entry =>
          { entry with nStatus := entry.nStatus.raiseValidity blockValidScripts })
        orderly (fewer_modify _ _ _ raised)
  · rename_i none
    rw [Bool.not_eq_true] at none
    have file := last none
    obtain ⟨chain, blk, rev, batches, same⟩ := findUndoPos_same config trial.freeBytes store
      (store.chain.entry pindex).nFile (nUndoSize + 40)
    generalize store.findUndoPos config trial.freeBytes (store.chain.entry pindex).nFile
      (nUndoSize + 40) = result at chain blk rev batches same ⊢
    obtain ⟨grown, found⟩ := result
    dsimp only at chain blk rev batches same
    apply noteUndo_orderly
    · exact orderly_fewer store grown orderly (by rw [chain]; exact fewer_refl _) blk rev same
        batches
    · rw [chain]
      exact data
    · rw [chain, same]
      exact file

/-! ## Pruning -/

/-- No entry points at data in a file. -/
def Cleared (store : BlockStore) (fileNumber : Nat) : Prop :=
  ∀ p, (store.chain.entry p).nStatus.haveData = true → (store.chain.entry p).nFile ≠ fileNumber

theorem cleared_fewer (store store' : BlockStore) (fileNumber : Nat)
    (cleared : Cleared store fileNumber) (fewer : Fewer store.chain store'.chain) :
    Cleared store' fileNumber := by
  intro p data
  obtain ⟨before, same⟩ := (fewer.entries p).data data
  rw [same]
  exact cleared p before

/-- Pruning changes nothing but the entries and the notes of what has changed. -/
structure Pruned (store store' : BlockStore) : Prop where
  fewer : Fewer store.chain store'.chain
  known : store'.chain.known = store.chain.known
  blk : store'.blk = store.blk
  rev : store'.rev = store.rev
  last : store'.nLastBlockFile = store.nLastBlockFile
  batches : store'.blocktree = store.blocktree

theorem pruned_refl (store : BlockStore) : Pruned store store :=
  ⟨fewer_refl _, rfl, rfl, rfl, rfl, rfl⟩

theorem pruned_trans (store₁ store₂ store₃ : BlockStore) (first : Pruned store₁ store₂)
    (second : Pruned store₂ store₃) : Pruned store₁ store₃ :=
  ⟨fewer_trans _ _ _ first.fewer second.fewer, second.known.trans first.known,
    second.blk.trans first.blk, second.rev.trans first.rev, second.last.trans first.last,
    second.batches.trans first.batches⟩

theorem pruned_orderly (store store' : BlockStore) (orderly : Orderly store)
    (pruned : Pruned store store') : Orderly store' :=
  orderly_fewer store store' orderly pruned.fewer pruned.blk pruned.rev pruned.last pruned.batches

/-- One turn of the loop: its entry points at nothing in the file any more. -/
theorem pruneEntry_pruned (fileNumber : Nat) (store : BlockStore) (pindex : Uint256) :
    Pruned store (store.pruneEntry fileNumber pindex) ∧
      (((store.pruneEntry fileNumber pindex).chain.entry pindex).nStatus.haveData = true →
        ((store.pruneEntry fileNumber pindex).chain.entry pindex).nFile ≠ fileNumber) := by
  rw [BlockStore.pruneEntry]
  split
  · have changed := fewer_modify store.chain pindex
      (fun entry =>
        { entry with
          nFile := 0
          nStatus := { entry.nStatus with haveData := false, haveUndo := false } })
      (pointsWithin_nothing _ _ rfl rfl)
    refine ⟨⟨fewer_trans _ _ _ changed (fewer_same _ _ rfl rfl), rfl, rfl, rfl, rfl, rfl⟩, ?_⟩
    intro data
    dsimp only [BlockStore.touch] at data
    rw [modify_entry, if_pos rfl] at data
    cases data
  · rename_i other
    exact ⟨pruned_refl store, fun _ => other⟩

theorem pruneEntries_pruned (fileNumber : Nat) (pindexes : List Uint256) (store : BlockStore) :
    Pruned store (pindexes.foldl (BlockStore.pruneEntry fileNumber) store) ∧
      ∀ p ∈ pindexes,
        ((pindexes.foldl (BlockStore.pruneEntry fileNumber) store).chain.entry
          p).nStatus.haveData = true →
        ((pindexes.foldl (BlockStore.pruneEntry fileNumber) store).chain.entry p).nFile ≠
          fileNumber := by
  induction pindexes generalizing store with
  | nil => exact ⟨pruned_refl store, by simp⟩
  | cons pindex pindexes ih =>
      obtain ⟨first, cleared⟩ := pruneEntry_pruned fileNumber store pindex
      obtain ⟨rest, others⟩ := ih (store.pruneEntry fileNumber pindex)
      refine ⟨pruned_trans _ _ _ first rest, ?_⟩
      intro p member data
      rcases List.mem_cons.mp member with rfl | among
      · obtain ⟨before, same⟩ := (rest.fewer.entries p).data data
        rw [List.foldl_cons, same]
        exact cleared before
      · exact others p among data

/-- Every entry that points at data is known. -/
def DataKnown (chain : ChainState) : Prop :=
  ∀ p, (chain.entry p).nStatus.haveData = true → p ∈ chain.known

theorem dataKnown_fewer (chain chain' : ChainState) (known : DataKnown chain)
    (fewer : Fewer chain chain') : DataKnown chain' :=
  fun p data => fewer.known p (known p ((fewer.entries p).data data).1)

theorem pruneOneBlockFile_pruned (store : BlockStore) (fileNumber : Nat)
    (known : DataKnown store.chain) :
    Pruned store (store.pruneOneBlockFile fileNumber) ∧
      Cleared (store.pruneOneBlockFile fileNumber) fileNumber := by
  obtain ⟨pruned, cleared⟩ := pruneEntries_pruned fileNumber store.chain.known store
  refine ⟨⟨pruned.fewer, pruned.known, pruned.blk, pruned.rev, pruned.last, pruned.batches⟩, ?_⟩
  intro p data
  exact cleared p (known p ((pruned.fewer.entries p).data data).1) data

theorem pruneLoop_pruned (config : StorageConfig) (nLastBlockWeCanPrune : Nat)
    (fileNumbers : List Nat) (nCurrentUsage : Nat) (store : BlockStore)
    (known : DataKnown store.chain) :
    let result := BlockStore.pruneLoop config nLastBlockWeCanPrune fileNumbers nCurrentUsage store
    Pruned store result.1 ∧ ∀ n ∈ result.2, Cleared result.1 n := by
  induction fileNumbers generalizing nCurrentUsage store with
  | nil => exact ⟨pruned_refl store, by simp [BlockStore.pruneLoop]⟩
  | cons fileNumber fileNumbers ih =>
      dsimp only
      rw [BlockStore.pruneLoop]
      split_ifs
      · exact ih nCurrentUsage store known
      · exact ⟨pruned_refl store, by simp⟩
      · exact ih nCurrentUsage store known
      · obtain ⟨first, cleared⟩ := pruneOneBlockFile_pruned store fileNumber known
        obtain ⟨rest, others⟩ := ih (nCurrentUsage -
          ((store.fileInfo fileNumber).nSize + (store.fileInfo fileNumber).nUndoSize))
          (store.pruneOneBlockFile fileNumber) (dataKnown_fewer _ _ known first.fewer)
        generalize BlockStore.pruneLoop config nLastBlockWeCanPrune fileNumbers _ _ = result
          at rest others ⊢
        obtain ⟨store', setFilesToPrune⟩ := result
        refine ⟨pruned_trans _ _ _ first rest, ?_⟩
        intro n member
        rcases List.mem_cons.mp member with rfl | among
        · exact cleared_fewer _ _ _ cleared rest.fewer
        · exact others n among

theorem selectPruned_pruned (config : StorageConfig) (store : BlockStore)
    (known : DataKnown store.chain) :
    Pruned store (store.selectPruned config).1 ∧
      ∀ n ∈ (store.selectPruned config).2, Cleared (store.selectPruned config).1 n := by
  have found : Pruned store (store.findFilesToPrune config).1 ∧
      ∀ n ∈ (store.findFilesToPrune config).2, Cleared (store.findFilesToPrune config).1 n := by
    rw [BlockStore.findFilesToPrune]
    cases store.chain.tip with
    | none => exact ⟨pruned_refl store, by simp⟩
    | some tip =>
        dsimp only
        split
        · exact ⟨pruned_refl store, by simp⟩
        · split
          · exact pruneLoop_pruned config _ _ _ store known
          · exact ⟨pruned_refl store, by simp⟩
  rw [BlockStore.selectPruned]
  split
  · obtain ⟨pruned, cleared⟩ := found
    exact ⟨⟨pruned.fewer, pruned.known, pruned.blk, pruned.rev, pruned.last, pruned.batches⟩,
      cleared⟩
  · exact ⟨pruned_refl store, by simp⟩

theorem unlinkPrunedFiles_orderly (removes : Nat → Bool) (setFilesToPrune : List Nat)
    (store : BlockStore) (orderly : Orderly store)
    (cleared : ∀ n ∈ setFilesToPrune, Cleared store n) :
    Orderly (store.unlinkPrunedFiles removes setFilesToPrune).1 := by
  induction setFilesToPrune generalizing store with
  | nil => exact orderly
  | cons fileNumber setFilesToPrune ih =>
      rw [BlockStore.unlinkPrunedFiles]
      split
      · have none := cleared fileNumber List.mem_cons_self
        apply ih
        · refine ⟨⟨orderly.filed.known, ?_, ?_⟩, ?_, orderly.batches⟩
          · intro p data
            dsimp only at data ⊢
            rw [Function.update_of_ne (none p data)]
            exact orderly.filed.data p data
          · intro p undo
            dsimp only at undo ⊢
            obtain ⟨data, member⟩ := orderly.filed.undo p undo
            rw [Function.update_of_ne (none p data)]
            exact ⟨data, member⟩
          · intro nFile other
            have settled := orderly.settled nFile other
            exact ⟨Journal.settled_update _ _ _ _ settled.1 fun _ => rfl,
              Journal.settled_update _ _ _ _ settled.2 fun _ => rfl⟩
        · intro n member
          exact cleared n (List.mem_cons_of_mem _ member)
      · exact orderly

/-! ## Flushing -/

/-- A file of the last number that has something to sync can be opened. -/
def FlushTrial.Opens (trial : FlushTrial) (store : BlockStore) : Prop :=
  (trial.opensBlock = true ∨ (store.blk store.nLastBlockFile).Settled) ∧
    (trial.opensUndo = true ∨ (store.rev store.nLastBlockFile).Settled)

theorem flushBlockFile_settled (trial : FlushTrial) (store : BlockStore) (orderly : Orderly store)
    (opens : trial.Opens store) : ∀ nFile, (store.flushBlockFile trial).Settled nFile := by
  intro nFile
  have elsewhere := orderly.settled nFile
  rw [BlockStore.Settled, BlockStore.flushBlockFile]
  dsimp only
  constructor
  · split
    · by_cases last : nFile = store.nLastBlockFile
      · rw [last, Function.update_self]
        exact Journal.settled_sync _
      · rw [Function.update_of_ne last]
        exact (elsewhere last).1
    · rename_i stuck
      by_cases last : nFile = store.nLastBlockFile
      · rw [last]
        exact opens.1.resolve_left stuck
      · exact (elsewhere last).1
  · split
    · by_cases last : nFile = store.nLastBlockFile
      · rw [last, Function.update_self]
        exact Journal.settled_sync _
      · rw [Function.update_of_ne last]
        exact (elsewhere last).2
    · rename_i stuck
      by_cases last : nFile = store.nLastBlockFile
      · rw [last]
        exact opens.2.resolve_left stuck
      · exact (elsewhere last).2

theorem flushBlockFile_orderly (trial : FlushTrial) (store : BlockStore) (orderly : Orderly store)
    (opens : trial.Opens store) : Orderly (store.flushBlockFile trial) := by
  refine ⟨filed_fewer store _ orderly.filed (fewer_refl _) ?_ ?_,
    fun nFile _ => flushBlockFile_settled trial store orderly opens nFile, orderly.batches⟩
  · intro p n member
    rw [BlockStore.flushBlockFile]
    dsimp only
    split
    · exact Journal.written_update store.blk store.nLastBlockFile
        (store.blk store.nLastBlockFile).sync (fun _ member => member) p n member
    · exact member
  · intro p n member
    rw [BlockStore.flushBlockFile]
    dsimp only
    split
    · exact Journal.written_update store.rev store.nLastBlockFile
        (store.rev store.nLastBlockFile).sync (fun _ member => member) p n member
    · exact member

/-- A batch that is written when every file is synced. -/
theorem indexBatch_synced (store : BlockStore) (filed : Filed store)
    (settled : ∀ nFile, store.Settled nFile) : store.indexBatch.Synced := by
  intro pair member
  rw [BlockStore.indexBatch, List.mem_map] at member
  obtain ⟨pindex, -, rfl⟩ := member
  constructor
  · intro data
    exact Journal.durable_settled _ _ (settled _).1 (filed.data pindex data)
  · intro undo
    exact Journal.durable_settled _ _ (settled _).2 (filed.undo pindex undo).2

theorem writeIndex_orderly (trial : FlushTrial) (setFilesToPrune : List Nat)
    (store : BlockStore) (orderly : Orderly store)
    (cleared : ∀ n ∈ setFilesToPrune, Cleared store n) (opens : trial.Opens store) :
    Orderly (store.writeIndex trial setFilesToPrune).1 := by
  have flushed := flushBlockFile_orderly trial store orderly opens
  have settled := flushBlockFile_settled trial store orderly opens
  rw [BlockStore.writeIndex]
  split
  · exact orderly
  · dsimp only
    split
    · exact ⟨⟨flushed.filed.known, flushed.filed.data, flushed.filed.undo⟩, flushed.settled,
        flushed.batches⟩
    · apply unlinkPrunedFiles_orderly
      · refine ⟨⟨flushed.filed.known, flushed.filed.data, flushed.filed.undo⟩, flushed.settled, ?_⟩
        rw [List.forall_mem_cons]
        exact ⟨indexBatch_synced _ flushed.filed settled, flushed.batches⟩
      · exact cleared

theorem writeState_orderly (trial : FlushTrial) (setFilesToPrune : List Nat)
    (fDoFullFlush fPeriodicWrite : Bool) (storage : Storage) (orderly : Orderly storage.files)
    (cleared : ∀ n ∈ setFilesToPrune, Cleared storage.files n)
    (opens : trial.Opens storage.files) :
    Orderly (storage.writeState trial setFilesToPrune fDoFullFlush fPeriodicWrite).1.files := by
  have written := writeIndex_orderly trial setFilesToPrune storage.files orderly cleared opens
  rw [Storage.writeState]
  split
  · exact orderly
  · generalize storage.files.writeIndex trial setFilesToPrune = result at written ⊢
    obtain ⟨files, done⟩ := result
    dsimp only at written ⊢
    split
    · exact written
    · split
      · rw [Storage.flushCoins]
        split_ifs <;> exact written
      · exact written

theorem flush_orderly (config : StorageConfig) (trial : FlushTrial) (mode : FlushStateMode)
    (storage : Storage) (orderly : Orderly storage.files) (opens : trial.Opens storage.files) :
    Orderly (storage.flushStateToDisk config trial mode).1.files := by
  obtain ⟨pruned, cleared⟩ := selectPruned_pruned config storage.files orderly.filed.known
  have selected := pruned_orderly _ _ orderly pruned
  rw [Storage.flushStateToDisk]
  generalize storage.files.selectPruned config = result at pruned cleared selected ⊢
  obtain ⟨files, setFilesToPrune⟩ := result
  dsimp only at pruned cleared selected ⊢
  split
  · exact selected
  · apply writeState_orderly
    · exact orderly_fewer files _ selected (fewer_same _ _ rfl rfl) rfl rfl rfl rfl
    · exact cleared
    · have same : trial.Opens files := by
        rw [FlushTrial.Opens, pruned.blk, pruned.rev, pruned.last]
        exact opens
      exact same

/-! ## Runs -/

/-- A call of `FlushStateToDisk` by `AcceptBlock` is a step of its own. -/
inductive StoreStep where
  | acceptBlock (trial : BlockTrial) (block : OfferedBlock)
  | connectBlock (trial : UndoTrial) (nUndoSize : Nat) (pindex : Uint256)
  | flushStateToDisk (trial : FlushTrial) (mode : FlushStateMode)

namespace StoreStep

def run (w : Surroundings) (config : StorageConfig) (storage : Storage) : StoreStep → Storage
  | acceptBlock trial block =>
      { storage with files := (storage.files.acceptBlock w config trial block).1 }
  | connectBlock trial nUndoSize pindex =>
      { storage with files := (storage.files.writeUndo config trial nUndoSize pindex).1 }
  | flushStateToDisk trial mode => (storage.flushStateToDisk config trial mode).1

/-- Only blocks that the node has are connected. -/
def Called (storage : Storage) : StoreStep → Prop
  | connectBlock _ _ pindex => storage.files.chain.haveData pindex = true
  | _ => True

/-- A block moves the last file on only from a file with nothing to sync, undo data goes into the
last file, and a file with something to sync can be opened. -/
def Careful (w : Surroundings) (storage : Storage) : StoreStep → Prop
  | acceptBlock trial block => storage.files.Writes w block → trial.Careful storage.files
  | connectBlock _ _ pindex =>
      (storage.files.chain.nStatus pindex).haveUndo = false →
        (storage.files.chain.entry pindex).nFile = storage.files.nLastBlockFile
  | flushStateToDisk trial _ => trial.Opens storage.files

end StoreStep

def runStore (w : Surroundings) (config : StorageConfig) (storage : Storage) :
    List StoreStep → Storage
  | [] => storage
  | step :: steps => runStore w config (step.run w config storage) steps

/-- Every step of a run has a property in the state before it. -/
def EveryStep (w : Surroundings) (config : StorageConfig) (holds : Storage → StoreStep → Prop)
    (storage : Storage) : List StoreStep → Prop
  | [] => True
  | step :: steps =>
      holds storage step ∧ EveryStep w config holds (step.run w config storage) steps

/-- `AcceptBlock` is one step, or two. -/
theorem acceptBlock_run (w : Surroundings) (config : StorageConfig) (trial : BlockTrial)
    (flush : FlushTrial) (block : OfferedBlock) (storage : Storage) :
    (storage.acceptBlock w config trial flush block).1 =
        runStore w config storage [.acceptBlock trial block] ∨
      (storage.acceptBlock w config trial flush block).1 =
        runStore w config storage [.acceptBlock trial block, .flushStateToDisk flush .none] := by
  rw [Storage.acceptBlock]
  dsimp only
  split
  · exact .inr rfl
  · exact .inl rfl

theorem step_orderly (w : Surroundings) (config : StorageConfig) (storage : Storage)
    (step : StoreStep) (orderly : Orderly storage.files) (called : step.Called storage)
    (careful : step.Careful w storage) : Orderly (step.run w config storage).files := by
  cases step with
  | acceptBlock trial block =>
      exact acceptBlock_orderly w config trial block storage.files orderly careful
  | connectBlock trial nUndoSize pindex =>
      exact writeUndo_orderly config trial nUndoSize pindex storage.files orderly called careful
  | flushStateToDisk trial mode => exact flush_orderly config trial mode storage orderly careful

/-- In a run of careful steps every batch of the block index points at synced data only. -/
theorem batches_synced (w : Surroundings) (config : StorageConfig) (storage : Storage)
    (steps : List StoreStep) (start : Orderly storage.files)
    (called : EveryStep w config StoreStep.Called storage steps)
    (careful : EveryStep w config (StoreStep.Careful w) storage steps) :
    ∀ batch ∈ (runStore w config storage steps).files.blocktree, batch.Synced := by
  induction steps generalizing storage with
  | nil => exact start.batches
  | cons step steps ih =>
      exact ih (step.run w config storage)
        (step_orderly w config storage step start called.1 careful.1) called.2 careful.2

/-- The genesis block is stored and synced, and its file is almost full. -/
def almostFull : Storage where
  files := {
    chain := { ChainState.start with
      known := [mainHashGenesisBlock]
      entry := fun p =>
        if p = mainHashGenesisBlock then
          { BlockEntry.blank with nTx := 1, nChainTx := 1, nStatus := ⟨5, true, false, false, false⟩ }
        else .blank
      chainActive := [mainHashGenesisBlock] }
    vinfoBlockFile := [⟨1, maxBlockfileSize - 1000, 0, 0, 0, 0, 0⟩]
    nLastBlockFile := 0
    setDirtyFileInfo := []
    setDirtyBlockIndex := []
    fCheckForPruning := false
    blk := fun n => if n = 0 then ⟨[mainHashGenesisBlock], []⟩ else .empty
    rev := fun _ => .empty
    blocktree := [] }
  pcoinsTip := ⟨fun _ => none, mainHashGenesisBlock⟩
  coinsdb := ⟨fun _ => none, mainHashGenesisBlock⟩
  nLastWrite := 1
  nLastFlush := 1

/-- A block of 500 bytes on the genesis block. -/
def acceptSmall (hash : Uint256) : StoreStep :=
  .acceptBlock ⟨500, 1, none, 100000000, true, false⟩
    ⟨hash, mainHashGenesisBlock, 0, 1, true, true, .valid, true, true, 0⟩

def flushAll : StoreStep :=
  .flushStateToDisk ⟨2, 0, false, 0, 100000000, 100000000, true, true, true, true,
    fun _ => true, true⟩ .always

theorem toNat_determines (pa pb : Uint256) (same : pa.toNat = pb.toNat) : pa = pb :=
  BitVec.eq_of_toNat_eq same

def plainSurroundings : Surroundings where
  hashGenesisBlock := mainHashGenesisBlock
  address := BitVec.toNat
  distinct := toNat_determines
  invalidBlock _ := false
  trouble _ := none

def noPruning : StorageConfig := ⟨false, false, 0, 0, 100, ⟨fun _ => true, fun _ => none⟩⟩

theorem almostFull_orderly : Orderly almostFull.files := by
  refine ⟨⟨?_, ?_, ?_⟩, ?_, by simp [almostFull]⟩
  · intro p data
    dsimp only [almostFull] at data ⊢
    split_ifs at data with genesis
    · rw [genesis]
      exact List.mem_singleton_self _
    · cases data
  · intro p data
    dsimp only [almostFull] at data ⊢
    split_ifs at data with genesis
    · rw [if_pos genesis, genesis]
      exact List.mem_singleton_self _
    · cases data
  · intro p undo
    dsimp only [almostFull] at undo
    split_ifs at undo
    cases undo
  · intro nFile other
    refine ⟨?_, rfl⟩
    dsimp only [almostFull] at other ⊢
    rw [if_neg other]
    rfl

theorem batches_synced_once :
    let storage := runStore plainSurroundings noPruning almostFull [acceptSmall 1, flushAll]
    storage.files.blocktree ≠ [] ∧ ∀ batch ∈ storage.files.blocktree, batch.Synced := by
  intro storage
  constructor
  · decide +kernel
  · apply batches_synced plainSurroundings noPruning almostFull [acceptSmall 1, flushAll]
      almostFull_orderly ⟨trivial, trivial, trivial⟩
    refine ⟨fun _ => ⟨.inl (by decide +kernel), .inr (.inl rfl)⟩, ⟨.inl rfl, .inl rfl⟩, trivial⟩

/-- The second block goes into a new file, and only that is synced before both entries are
written. -/
theorem rollover_not_synced : ¬ ∀ (w : Surroundings) (config : StorageConfig) (storage : Storage)
    (steps : List StoreStep), Orderly storage.files →
      EveryStep w config StoreStep.Called storage steps →
        ∀ batch ∈ (runStore w config storage steps).files.blocktree, batch.Synced := by
  intro always
  have synced := always plainSurroundings noPruning almostFull
    [acceptSmall 1, acceptSmall 2, flushAll] almostFull_orderly ⟨trivial, trivial, trivial, trivial⟩
  have broken : ¬ ∀ batch ∈ (runStore plainSurroundings noPruning almostFull
      [acceptSmall 1, acceptSmall 2, flushAll]).files.blocktree, batch.Synced := by
    decide +kernel
  exact broken synced

end RoiCoin
