import RoiCoin.Validation.BestChain
import RoiCoin.Validation.HaveData

/-! Where the index says the blocks lie, through `ActivateBestChain` and through `AcceptBlock`
with a known position. -/

namespace RoiCoin

open ChainState Extents Codec

/-! ## What is recorded of the blocks -/

/-- The index has the same entries, and they point at the same data. -/
structure SameRecords (chain chain' : ChainState) : Prop where
  known : chain'.known = chain.known
  haveData : ∀ p, chain'.haveData p = chain.haveData p
  nFile : ∀ p, (chain'.entry p).nFile = (chain.entry p).nFile

namespace ChainState

theorem sameRecords_entry (chain chain' : ChainState) (known : chain'.known = chain.known)
    (entry : chain'.entry = chain.entry) : SameRecords chain chain' := by
  refine ⟨known, fun p => ?_, fun p => by rw [entry]⟩
  rw [haveData, haveData, nStatus, nStatus, entry]

theorem sameRecords_refl (chain : ChainState) : SameRecords chain chain :=
  sameRecords_entry chain chain rfl rfl

theorem sameRecords_trans (chain₁ chain₂ chain₃ : ChainState) (first : SameRecords chain₁ chain₂)
    (second : SameRecords chain₂ chain₃) : SameRecords chain₁ chain₃ where
  known := second.known.trans first.known
  haveData p := (second.haveData p).trans (first.haveData p)
  nFile p := (second.nFile p).trans (first.nFile p)

theorem sameRecords_modify (chain : ChainState) (pindex : Uint256)
    (change : BlockEntry → BlockEntry)
    (haveData : ∀ entry, (change entry).nStatus.haveData = entry.nStatus.haveData)
    (nFile : ∀ entry, (change entry).nFile = entry.nFile) :
    SameRecords chain (chain.modify pindex change) := by
  refine ⟨rfl, fun p => ?_, fun p => ?_⟩
  · rw [ChainState.haveData, ChainState.haveData, nStatus, nStatus, modify_entry]
    split
    · rename_i here
      rw [here, haveData]
    · rfl
  · rw [modify_entry]
    split
    · rename_i here
      rw [here, nFile]
    · rfl

section Activate

variable (w : Surroundings)

theorem link_queue_records (fuel : Nat) (chain : ChainState) (queue : List Uint256) :
    SameRecords chain (chain.linkQueue w fuel queue) := by
  induction fuel generalizing chain queue with
  | zero => exact sameRecords_refl _
  | succ fuel ih =>
      cases queue with
      | nil => exact sameRecords_refl _
      | cons pindex queue =>
          have linked := sameRecords_modify chain pindex (fun entry =>
            { entry with
              nChainTx := chain.parentChainTx pindex + entry.nTx
              nSequenceId := chain.nBlockSequenceId }) (fun _ => rfl) fun _ => rfl
          have one : SameRecords chain (chain.linkOne w pindex).1 := by
            apply sameRecords_trans _ _ _ linked
            rw [linkOne]
            dsimp only
            split <;> exact sameRecords_entry _ _ rfl rfl
          exact sameRecords_trans _ _ _ one (ih _ _)

theorem received_records (chain : ChainState) (nTx nFile : Nat) (pindexNew : Uint256) :
    SameRecords (chain.storing nTx nFile pindexNew)
      (chain.receivedBlockTransactions w nTx nFile pindexNew) := by
  rw [receivedBlockTransactions]
  dsimp only
  split
  · exact link_queue_records w _ _ _
  · split_ifs
    · exact link_queue_records w _ _ _
    · exact sameRecords_entry _ _ rfl rfl
    · exact sameRecords_refl _

theorem discard_records (s : ChainState) (above : List Uint256) (pindexTest : Uint256) :
    SameRecords s (s.discard above pindexTest) := by
  have one : ∀ (fFailedChain : Bool) (s : ChainState) (p : Uint256),
      SameRecords s (discardOne fFailedChain s p) := by
    intro fFailedChain s p
    cases fFailedChain with
    | true =>
        have marked := sameRecords_modify s p (fun entry =>
          { entry with nStatus := { entry.nStatus with failedChild := true } }) (fun _ => rfl)
          fun _ => rfl
        exact sameRecords_trans _ _ _ marked (sameRecords_entry _ _ rfl rfl)
    | false => exact sameRecords_entry _ _ rfl rfl
  have all : ∀ (fFailedChain : Bool) (s : ChainState),
      SameRecords s (above.foldl (discardOne fFailedChain) s) := by
    intro fFailedChain
    induction above with
    | nil => exact sameRecords_refl
    | cons p above ih => exact fun s => sameRecords_trans _ _ _ (one fFailedChain s p) (ih _)
  exact sameRecords_trans _ _ _ (all (s.failed pindexTest) s) (sameRecords_entry _ _ rfl rfl)

theorem find_most_work_records (fuel : Nat) (s s' : ChainState) (found : Option Uint256)
    (returned : findMostWorkLoop w fuel s = some (s', found)) : SameRecords s s' := by
  induction fuel generalizing s with
  | zero => cases returned
  | succ fuel ih =>
      rw [findMostWorkLoop] at returned
      split at returned
      · cases returned
        exact sameRecords_refl _
      · dsimp only at returned
        split at returned
        · cases returned
        · split at returned
          · cases returned
            exact sameRecords_refl _
          · split at returned
            · cases returned
            · exact sameRecords_trans _ _ _ (discard_records s _ _) (ih _ returned)

theorem disconnect_to_records (fork : Option Uint256) (fuel : Nat) (s s' : ChainState)
    (result : TipResult) (returned : s.disconnectTo w fork fuel = some (s', result)) :
    SameRecords s s' := by
  induction fuel generalizing s with
  | zero => cases returned
  | succ fuel ih =>
      rw [disconnectTo] at returned
      split at returned
      · cases returned
        exact sameRecords_refl _
      cases step : s.disconnectTip w with
      | none =>
          rw [step] at returned
          cases returned
      | some value =>
          obtain ⟨below, outcome⟩ := value
          have next : SameRecords s below := by
            rcases disconnect_tip_cases w s below outcome step with rfl | ⟨t, -, rfl⟩
            · exact sameRecords_entry _ _ rfl rfl
            · exact sameRecords_entry _ _ rfl rfl
          rw [step] at returned
          cases outcome with
          | done => exact sameRecords_trans _ _ _ next (ih below returned)
          | invalid corruptionPossible =>
              cases returned
              exact next
          | error =>
              cases returned
              exact next

theorem connect_tip_records (s s' : ChainState) (b : Uint256) (result : TipResult)
    (returned : s.connectTip w b = some (s', result)) : SameRecords s s' := by
  have tried : SameRecords s s.tried := sameRecords_entry _ _ rfl rfl
  obtain ⟨-, ⟨-, rfl⟩ | ⟨-, -, -, rfl⟩ | ⟨-, -, rfl⟩⟩ := connect_tip_cases w s s' b result returned
  · exact tried
  · have failed := sameRecords_modify s.tried b (fun entry =>
      { entry with nStatus := { entry.nStatus with failedValid := true } }) (fun _ => rfl)
      fun _ => rfl
    exact sameRecords_trans _ _ _ tried
      (sameRecords_trans _ _ _ failed (sameRecords_entry _ _ rfl rfl))
  · have connected : SameRecords s.tried (s.tried.connected w b) := by
      rw [connected]
      split
      · exact sameRecords_refl _
      · exact sameRecords_modify _ _ _ (fun _ => BlockStatus.raise_have_data _ _) fun _ => rfl
    exact sameRecords_trans _ _ _ tried
      (sameRecords_trans _ _ _ connected (sameRecords_entry _ _ rfl rfl))

theorem prune_candidates_records (s s' : ChainState)
    (returned : s.pruneBlockIndexCandidates w = some s') : SameRecords s s' := by
  rw [pruneBlockIndexCandidates] at returned
  split at returned
  · cases returned
  · dsimp only at returned
    split at returned
    · cases returned
    · cases returned
      exact sameRecords_entry _ _ rfl rfl

theorem connect_batch_records (m : Uint256) (old : Option Uint256) (batch : List Uint256)
    (s s' : ChainState) (result : Batch)
    (returned : connectBatch w m old s batch = some (s', result)) : SameRecords s s' := by
  induction batch generalizing s with
  | nil =>
      cases returned
      exact sameRecords_refl _
  | cons b batch ih =>
      rw [connectBatch] at returned
      cases step : s.connectTip w b with
      | none =>
          rw [step] at returned
          cases returned
      | some value =>
          obtain ⟨s₁, outcome⟩ := value
          have first := connect_tip_records w s s₁ b outcome step
          rw [step] at returned
          rcases outcome with _ | (_ | _) | _
          · dsimp only at returned
            cases pruned : s₁.pruneBlockIndexCandidates w with
            | none =>
                rw [pruned] at returned
                cases returned
            | some s₂ =>
                have second := sameRecords_trans _ _ _ first
                  (prune_candidates_records w s₁ s₂ pruned)
                rw [pruned] at returned
                dsimp only at returned
                split at returned
                · cases returned
                  exact second
                · exact sameRecords_trans _ _ _ second (ih s₂ returned)
          · cases returned
            exact sameRecords_trans _ _ _ first (sameRecords_entry _ _ rfl rfl)
          · cases returned
            exact first
          · cases returned
            exact first

theorem connect_batches_records (m : Uint256) (old : Option Uint256) (fuel : Nat) (nHeight : Int)
    (s s' : ChainState) (result : Bool)
    (returned : connectBatches w m old fuel nHeight s = some (s', result)) : SameRecords s s' := by
  induction fuel generalizing nHeight s with
  | zero => cases returned
  | succ fuel ih =>
      rw [connectBatches] at returned
      split at returned
      · cases returned
        exact sameRecords_refl _
      dsimp only at returned
      generalize step : connectBatch w m old s _ = outcome at returned
      rcases outcome with _ | ⟨s₁, result₁⟩
      · cases returned
      have first := connect_batch_records w m old _ s s₁ result₁ step
      cases result₁ with
      | error =>
          cases returned
          exact first
      | stop =>
          cases returned
          exact first
      | more => exact sameRecords_trans _ _ _ first (ih _ s₁ returned)

theorem activate_step_records (s s' : ChainState) (m : Uint256) (result : Bool)
    (returned : s.activateBestChainStep w m = some (s', result)) : SameRecords s s' := by
  rw [activateBestChainStep] at returned
  cases fall : s.disconnectTo w (s.findFork m) (s.chainActive.length + 1) with
  | none =>
      rw [fall] at returned
      cases returned
  | some value =>
      obtain ⟨below, outcome⟩ := value
      have first := disconnect_to_records w _ _ s below outcome fall
      rw [fall] at returned
      cases outcome with
      | done =>
          exact sameRecords_trans _ _ _ first
            (connect_batches_records w m _ _ _ below s' result returned)
      | invalid corruptionPossible =>
          cases returned
          exact first
      | error =>
          cases returned
          exact first

/-- `ActivateBestChain` adds no entry and no data. -/
theorem activate_records (fuel : Nat) (s s' : ChainState) (result : Bool)
    (returned : s.activateBestChain w fuel = some (s', result)) : SameRecords s s' := by
  induction fuel generalizing s with
  | zero => cases returned
  | succ fuel ih =>
      rw [activateBestChain] at returned
      cases find : s.findMostWorkChain w with
      | none =>
          rw [find] at returned
          cases returned
      | some value =>
          obtain ⟨s₁, candidate⟩ := value
          have first := find_most_work_records w _ s s₁ candidate find
          rw [find] at returned
          cases candidate with
          | none =>
              cases returned
              exact first
          | some m =>
              dsimp only at returned
              split at returned
              · cases returned
                exact first
              cases step : s₁.activateBestChainStep w m with
              | none =>
                  rw [step] at returned
                  cases returned
              | some value =>
                  obtain ⟨s₂, outcome⟩ := value
                  have second := sameRecords_trans _ _ _ first
                    (activate_step_records w s₁ s₂ m outcome step)
                  rw [step] at returned
                  cases outcome with
                  | false =>
                      cases returned
                      exact second
                  | true =>
                      dsimp only at returned
                      split at returned
                      · cases returned
                        exact sameRecords_trans _ _ _ second (sameRecords_entry _ _ rfl rfl)
                      · exact sameRecords_trans _ _ _ second (ih s₂ returned)

end Activate

end ChainState

/-! ## `AcceptBlock` with a known position -/

namespace DataStore

theorem getBlockPos_records (s s' : DataStore) (records : SameRecords s.chain s'.chain)
    (positions : s'.nDataPos = s.nDataPos) : s'.getBlockPos = s.getBlockPos := by
  funext p
  rw [getBlockPos, getBlockPos, records.haveData, nFile, nFile, records.nFile, positions]

/-- What happens to the records when a block is accepted that lies at `pos`. -/
structure Records (hash : Uint256) (pos : Nat × Nat) (s s' : DataStore) (result : AcceptResult) :
    Prop where
  contents : s'.contents = s.contents
  known : ∀ p ∈ s.chain.known, p ∈ s'.chain.known
  kept : ∀ p place, s.getBlockPos p = some place → s'.getBlockPos p = some place
  new : ∀ p place, s'.getBlockPos p = some place → s.getBlockPos p = some place ∨
    p = hash ∧ place = pos ∧ result = .stored
  own : ∀ place, s'.getBlockPos hash = some place → hash ∈ s'.chain.known
  done : result ≠ .refused → s'.getBlockPos hash ≠ none

section Accept

variable (w : Surroundings) (env : Environment) (config : StorageConfig) (messageStart : BitVec 32)

theorem records_same (hash : Uint256) (pos : Nat × Nat) (s s' : DataStore)
    (contents : s'.contents = s.contents) (known : ∀ p ∈ s.chain.known, p ∈ s'.chain.known)
    (places : s'.getBlockPos = s.getBlockPos)
    (whole : ∀ p place, s.getBlockPos p = some place → p ∈ s.chain.known) :
    Records hash pos s s' .refused where
  contents := contents
  known := known
  kept p place there := by rwa [places]
  new p place there := .inl (by rwa [places] at there)
  own place there := known hash (whole hash place (by rwa [places] at there))
  done refused := absurd rfl refused

/-- What comes before and leaves the records alone. -/
theorem records_before (hash : Uint256) (pos : Nat × Nat) (s₁ s₂ s₃ : DataStore)
    (result : AcceptResult) (contents : s₂.contents = s₁.contents)
    (known : ∀ p ∈ s₁.chain.known, p ∈ s₂.chain.known) (places : s₂.getBlockPos = s₁.getBlockPos)
    (records : Records hash pos s₂ s₃ result) : Records hash pos s₁ s₃ result where
  contents := records.contents.trans contents
  known p member := records.known p (known p member)
  kept p place there := records.kept p place (by rwa [places])
  new p place there := by
    rw [← places]
    exact records.new p place there
  own := records.own
  done := records.done

/-- What follows and leaves the records alone. -/
theorem records_after (hash : Uint256) (pos : Nat × Nat) (s₁ s₂ s₃ : DataStore)
    (result : AcceptResult) (contents : s₃.contents = s₂.contents)
    (known : s₃.chain.known = s₂.chain.known) (places : s₃.getBlockPos = s₂.getBlockPos)
    (records : Records hash pos s₁ s₂ result) : Records hash pos s₁ s₃ result where
  contents := contents.trans records.contents
  known p member := by
    rw [known]
    exact records.known p member
  kept p place there := by
    rw [places]
    exact records.kept p place there
  new p place there := records.new p place (by rwa [places] at there)
  own place there := by
    rw [known]
    exact records.own place (by rwa [places] at there)
  done accepted := by
    rw [places]
    exact records.done accepted

/-- A header adds no data. -/
theorem header_places (block : OfferedBlock) (s : DataStore)
    (whole : ∀ p place, s.getBlockPos p = some place → p ∈ s.chain.known) :
    (s.setFiles (s.storage.files.acceptBlockHeader w block).1).getBlockPos = s.getBlockPos := by
  have added : block.hash ∉ s.chain.known → ∀ files : BlockStore,
      files.chain = s.chain.addToBlockIndex block → (s.setFiles files).getBlockPos = s.getBlockPos := by
    intro fresh files chain
    funext p
    have now : (s.setFiles files).chain = s.chain.addToBlockIndex block := chain
    have missing : s.getBlockPos block.hash = none := by
      cases there : s.getBlockPos block.hash with
      | none => rfl
      | some place => exact absurd (whole block.hash place there) fresh
    by_cases here : p = block.hash
    · rw [here, missing, getBlockPos, now, haveData, nStatus, add_entry, if_pos rfl,
        (fresh_entry s.chain block).2.2]
      rfl
    · rw [getBlockPos, getBlockPos, nFile, nFile, now, haveData, nStatus, add_entry, if_neg here]
      rfl
  rw [BlockStore.acceptBlockHeader]
  dsimp only
  split
  · rename_i enters
    apply added enters.1
    have entered := enters.2
    have fresh : block.hash ∉ s.storage.files.chain.known := enters.1
    revert entered
    dsimp only [BlockStore.touch]
    rw [ChainState.acceptBlockHeader]
    split_ifs <;> intro entered
    all_goals first | rfl | exact absurd entered fresh
  · rfl

theorem receive_chain (call : DataCall) (block : OfferedBlock) (pos : Nat × Nat) (s : DataStore) :
    (s.receive w call block pos).chain =
      s.chain.receivedBlockTransactions w block.nTx pos.1 block.hash := by
  have placed := (placeBlock_same call.trial block.hash s.storage.files).1
  rw [receive]
  dsimp only [DataStore.chain, setFiles, BlockStore.touch]
  rw [placed]

/-- An entry that gets its data. -/
theorem receive_places (call : DataCall) (block : OfferedBlock) (pos : Nat × Nat) (s : DataStore)
    (p : Uint256) : (s.receive w call block pos).getBlockPos p =
      if p = block.hash then some pos else s.getBlockPos p := by
  have chain := receive_chain w call block pos s
  have records := received_records w s.chain block.nTx pos.1 block.hash
  rw [getBlockPos, nFile, chain, records.haveData, records.nFile]
  by_cases here : p = block.hash
  · have position : (s.receive w call block pos).nDataPos block.hash = pos.2 :=
      Function.update_self _ _ _
    have data : (s.chain.storing block.nTx pos.1 block.hash).haveData block.hash = true := by
      rw [haveData, storing_status, if_pos rfl, BlockStatus.raise_have_data]
    have file : ((s.chain.storing block.nTx pos.1 block.hash).entry block.hash).nFile = pos.1 := by
      rw [storing, modify_entry, if_pos rfl]
    rw [if_pos here, here, data, if_pos rfl, file, position]
  · have position : (s.receive w call block pos).nDataPos p = s.nDataPos p :=
      Function.update_of_ne here _ _
    have entry : (s.chain.storing block.nTx pos.1 block.hash).entry p = s.chain.entry p := by
      rw [storing, modify_entry, if_neg here]
    rw [if_neg here, haveData, nStatus, entry, position]
    rfl

theorem receive_records (call : DataCall) (block : OfferedBlock) (pos : Nat × Nat) (s : DataStore)
    (known : block.hash ∈ s.chain.known) (missing : s.getBlockPos block.hash = none) :
    Records block.hash pos s (s.receive w call block pos) .stored := by
  have places := receive_places w call block pos s
  have same : (s.receive w call block pos).chain.known = s.chain.known := by
    rw [receive_chain]
    exact (received_records w s.chain block.nTx pos.1 block.hash).known
  constructor
  case contents => rfl
  case known => exact fun p member => by rwa [same]
  case kept =>
    intro p place there
    have other : p ≠ block.hash := by
      intro here
      rw [here, missing] at there
      cases there
    rwa [places, if_neg other]
  case new =>
    intro p place there
    rw [places] at there
    split at there
    · rename_i here
      exact .inr ⟨here, (Option.some.inj there).symm, rfl⟩
    · exact .inl there
  case own =>
    intro _ _
    rwa [same]
  case done =>
    intro _
    rw [places, if_pos rfl]
    exact Option.some_ne_none pos

theorem writeBlock_records (call : DataCall) (pos : Nat × Nat) (dbp : call.dbp = some pos)
    (s : DataStore) (known : env.blockHash call.block.header ∈ s.chain.known)
    (missing : s.getBlockPos (env.blockHash call.block.header) = none)
    (whole : ∀ p place, s.getBlockPos p = some place → p ∈ s.chain.known) :
    Records (env.blockHash call.block.header) pos s
      (s.writeBlock w config messageStart call (call.offered env)).1
      (s.writeBlock w config messageStart call (call.offered env)).2 := by
  have same : s.pos call = pos := by rw [DataStore.pos, dbp]; rfl
  obtain ⟨-, positions, -⟩ := preallocate_same call s
  generalize nHeight : s.chain.nHeight (call.offered env).hash = height
  have contents : (s.reserve config call height).contents = s.contents := by
    rw [reserve, preallocate, dbp]
    rfl
  have chain := reserve_chain config call height s
  have places : (s.reserve config call height).getBlockPos = s.getBlockPos := by
    apply getBlockPos_records
    · rw [chain]
      exact sameRecords_refl _
    · exact positions
  have grows : ∀ p ∈ s.chain.known, p ∈ (s.reserve config call height).chain.known := by
    rw [chain]
    exact fun _ member => member
  rw [writeBlock_eq, nHeight]
  split
  · exact records_same _ _ _ _ contents grows places whole
  rw [if_pos (by rw [dbp]; rfl), same]
  exact records_before _ _ _ _ _ _ contents grows places
    (receive_records w call (call.offered env) pos _ (grows _ known) (by rw [places]; exact missing))

/-- Asked for, a block that lies at a known position is recorded there unless it is refused. -/
theorem storeBlock_records (call : DataCall) (pos : Nat × Nat) (dbp : call.dbp = some pos)
    (requested : call.fRequested = true) (s : DataStore)
    (whole : ∀ p place, s.getBlockPos p = some place → p ∈ s.chain.known) :
    Records (env.blockHash call.block.header) pos s
        (s.storeBlock w env config messageStart call).1
        (s.storeBlock w env config messageStart call).2 ∧
      ∀ p ∈ (s.headed w env call).chain.known,
        p ∈ (s.storeBlock w env config messageStart call).1.chain.known := by
  have places := header_places w (call.offered env) s whole
  have accepted := header_accepted w s.storage.files (call.offered env)
  have grows := (header_keeps w env call s).fewer.known
  rw [storeBlock]
  rw [headed] at grows ⊢
  generalize s.storage.files.acceptBlockHeader w (call.offered env) = result
    at places accepted grows ⊢
  obtain ⟨files, known⟩ := result
  dsimp only at places accepted grows ⊢
  have whole' : ∀ p place, (s.setFiles files).getBlockPos p = some place →
      p ∈ (s.setFiles files).chain.known := by
    intro p place there
    rw [places] at there
    exact grows p (whole p place there)
  have refused := records_same (env.blockHash call.block.header) pos s (s.setFiles files) rfl grows
    places whole
  split
  · exact ⟨refused, fun _ member => member⟩
  rename_i passes
  have member : env.blockHash call.block.header ∈ (s.setFiles files).chain.known :=
    accepted (by simpa using passes)
  split
  · rename_i data
    change (s.setFiles files).chain.haveData (env.blockHash call.block.header) = true at data
    have there : (s.setFiles files).getBlockPos (env.blockHash call.block.header) ≠ none := by
      rw [getBlockPos, if_pos data]
      exact Option.some_ne_none _
    refine ⟨⟨refused.contents, refused.known, refused.kept, ?_, refused.own, fun _ => there⟩,
      fun _ member => member⟩
    exact fun p place now => (refused.new p place now).imp_right fun new => by cases new.2.2
  rename_i data
  change ¬ (s.setFiles files).chain.haveData (env.blockHash call.block.header) = true at data
  split
  · rename_i unwanted
    have asked : (call.offered env).fRequested = true := requested
    rw [asked] at unwanted
    cases unwanted
  split
  · refine ⟨records_same _ _ _ _ rfl grows ?_ whole, fun _ member => member⟩
    rw [← places]
    apply getBlockPos_records
    · exact sameRecords_modify files.chain (call.offered env).hash (fun entry =>
        { entry with nStatus := { entry.nStatus with failedValid := true } }) (fun _ => rfl)
        fun _ => rfl
    · rfl
  split
  · exact ⟨refused, fun _ member => member⟩
  have missing : (s.setFiles files).getBlockPos (env.blockHash call.block.header) = none := by
    rw [getBlockPos, if_neg data]
  have written := writeBlock_records w env config messageStart call pos dbp (s.setFiles files) member
    missing whole'
  exact ⟨records_before _ _ s (s.setFiles files) _ _ rfl grows places written, written.known⟩

/-- A flush that is not asked for anything leaves the records alone while the node reindexes. -/
theorem flush_records (reindex : config.fReindex = true) (trial : FlushTrial) (recreates : Bool)
    (s : DataStore) :
    (s.flushStateToDisk config trial recreates .none).contents = s.contents ∧
      (s.flushStateToDisk config trial recreates .none).chain.known = s.chain.known ∧
      (s.flushStateToDisk config trial recreates .none).getBlockPos = s.getBlockPos := by
  have selected : s.storage.files.selectPruned config = (s.storage.files, []) := by
    rw [BlockStore.selectPruned, reindex, Bool.not_true, Bool.and_false]
    rfl
  obtain ⟨known, entry, -⟩ := flush_files config trial .none s.storage
  rw [selected] at known entry
  refine ⟨?_, known, ?_⟩
  · have idle : (flushPlan config trial .none s.storage).2 = false := by
      rw [flushPlan, selected]
      rfl
    have same : s.flushContents config trial recreates .none = s.contents := by
      rw [flushContents]
      generalize flushPlan config trial .none s.storage = plan at idle ⊢
      obtain ⟨files, writes⟩ := plan
      dsimp only at idle ⊢
      rw [idle]
      rfl
    exact same
  · have chain : SameRecords s.chain (s.flushStateToDisk config trial recreates .none).chain :=
      sameRecords_entry _ _ known entry
    funext p
    rw [getBlockPos, getBlockPos, nFile, nFile, chain.haveData, chain.nFile]
    by_cases data : s.chain.haveData p = true
    · have position : (s.flushStateToDisk config trial recreates .none).nDataPos p =
          s.nDataPos p := if_pos ((chain.haveData p).trans data)
      rw [if_pos data, if_pos data, position]
    · rw [if_neg data, if_neg data]

theorem acceptBlock_records (reindex : config.fReindex = true) (call : DataCall) (pos : Nat × Nat)
    (dbp : call.dbp = some pos) (requested : call.fRequested = true) (s : DataStore)
    (whole : ∀ p place, s.getBlockPos p = some place → p ∈ s.chain.known) :
    Records (env.blockHash call.block.header) pos s
        (s.acceptBlock w env config messageStart call).1
        (s.acceptBlock w env config messageStart call).2 ∧
      ∀ p ∈ (s.headed w env call).chain.known,
        p ∈ (s.acceptBlock w env config messageStart call).1.chain.known := by
  have stored := storeBlock_records w env config messageStart call pos dbp requested s whole
  rw [acceptBlock]
  generalize s.storeBlock w env config messageStart call = result at stored ⊢
  obtain ⟨s', outcome⟩ := result
  dsimp only at stored ⊢
  split
  · obtain ⟨contents, known, places⟩ := flush_records config reindex call.flush
      call.flushRecreates s'
    refine ⟨records_after _ _ _ _ _ _ contents known places stored.1, fun p member => ?_⟩
    dsimp only
    rw [known]
    exact stored.2 p member
  · exact stored

/-- A header that `AcceptBlockHeader` enters if it is unknown. -/
structure HeaderPasses (chain : ChainState) (block : OfferedBlock) : Prop where
  header : block.checkHeader = true
  parent : block.hash = w.hashGenesisBlock ∨ block.hashPrevBlock ∈ chain.known ∧
    chain.failed block.hashPrevBlock = false ∧ block.contextualHeader = true

instance (chain : ChainState) (block : OfferedBlock) : Decidable (HeaderPasses w chain block) :=
  decidable_of_iff (block.checkHeader = true ∧ (block.hash = w.hashGenesisBlock ∨
      chain.known.contains block.hashPrevBlock ∧ chain.failed block.hashPrevBlock = false ∧
        block.contextualHeader = true))
    ⟨fun both => ⟨both.1, by simpa using both.2⟩,
      fun passes => ⟨passes.header, by simpa using passes.parent⟩⟩

theorem passing_header_known (call : DataCall) (s : DataStore)
    (passes : HeaderPasses w s.chain (call.offered env)) :
    env.blockHash call.block.header ∈ (s.headed w env call).chain.known := by
  have hash : (call.offered env).hash = env.blockHash call.block.header := rfl
  by_cases old : (call.offered env).hash ∈ s.chain.known
  · exact (header_keeps w env call s).fewer.known _ old
  · apply header_accepted w s.storage.files (call.offered env)
    have accepted : (s.chain.acceptBlockHeader w (call.offered env)).2 = true := by
      rw [ChainState.acceptBlockHeader, if_neg old, passes.header, Bool.not_true,
        if_neg Bool.false_ne_true]
      rcases passes.parent with genesis | ⟨known, sane, contextual⟩
      · rw [if_pos genesis]
      · rw [sane, contextual, if_neg (not_not.mpr known)]
        split <;> rfl
    rw [BlockStore.acceptBlockHeader]
    rw [DataStore.chain] at accepted
    dsimp only
    split <;> exact accepted

end Accept

end DataStore

end RoiCoin
