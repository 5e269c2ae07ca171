import RoiCoin.Lib.Runs
import RoiCoin.Validation.ActivateBestChain
import RoiCoin.Validation.BlockPositions
import RoiCoin.Validation.HaveData

/-! What pruning takes away (`FindFilesToPrune`, `PruneOneBlockFile`), and how far from the tip it
stays.

The heights that `vinfoBlockFile` notes bound those of the blocks in a file, over all runs of
`AcceptBlock`, `ConnectBlock`, `FlushStateToDisk` and of the choice of the active chain. -/

namespace RoiCoin

open ChainState

/-! ## One file -/

/-- The entry of a block whose file is pruned. -/
def BlockEntry.pruned (entry : BlockEntry) : BlockEntry :=
  { entry with
    nFile := 0
    nStatus := { entry.nStatus with haveData := false, haveUndo := false } }

/-- The entries in `lies` lose their data, with the pairs that wait for them; all else stays. -/
structure Clears (chain chain' : ChainState) (lies : Uint256 → Prop) : Prop where
  known : chain'.known = chain.known
  active : chain'.chainActive = chain.chainActive
  candidates : chain'.setBlockIndexCandidates = chain.setBlockIndexCandidates
  taken : ∀ p, lies p → chain'.entry p = (chain.entry p).pruned
  kept : ∀ p, ¬ lies p → chain'.entry p = chain.entry p
  unlinked : ∀ a b, (a, b) ∈ chain'.mapBlocksUnlinked ↔
    (a, b) ∈ chain.mapBlocksUnlinked ∧ ¬ (lies b ∧ chain.pprev b = some a)

theorem clears_none (chain : ChainState) (lies : Uint256 → Prop) (none : ∀ p, ¬ lies p) :
    Clears chain chain lies where
  known := rfl
  active := rfl
  candidates := rfl
  taken p here := (none p here).elim
  kept _ _ := rfl
  unlinked a b := by simp [none b]

theorem clears_pprev (chain chain' : ChainState) (lies : Uint256 → Prop)
    (clears : Clears chain chain' lies) (p : Uint256) : chain'.pprev p = chain.pprev p := by
  by_cases here : lies p
  · rw [pprev, clears.taken p here]
    rfl
  · rw [pprev, clears.kept p here]
    rfl

theorem clears_trans (chain₁ chain₂ chain₃ : ChainState) (lies₁ lies₂ lies : Uint256 → Prop)
    (first : Clears chain₁ chain₂ lies₁) (second : Clears chain₂ chain₃ lies₂)
    (either : ∀ p, lies p ↔ lies₁ p ∨ lies₂ p) : Clears chain₁ chain₃ lies where
  known := second.known.trans first.known
  active := second.active.trans first.active
  candidates := second.candidates.trans first.candidates
  taken p here := by
    by_cases early : lies₁ p
    · by_cases late : lies₂ p
      · rw [second.taken p late, first.taken p early]
        rfl
      · rw [second.kept p late, first.taken p early]
    · have late := ((either p).mp here).resolve_left early
      rw [second.taken p late, first.kept p early]
  kept p nowhere := by
    rw [either, not_or] at nowhere
    rw [second.kept p nowhere.2, first.kept p nowhere.1]
  unlinked a b := by
    have link := clears_pprev chain₁ chain₂ lies₁ first b
    rw [second.unlinked, first.unlinked, link, either]
    tauto

/-- One turn of the loop of `PruneOneBlockFile`. -/
theorem pruneEntry_clears (fileNumber : Nat) (store : BlockStore) (pindex : Uint256) :
    Clears store.chain (store.pruneEntry fileNumber pindex).chain
      fun p => p = pindex ∧ (store.chain.entry p).nFile = fileNumber := by
  rw [BlockStore.pruneEntry]
  split
  · rename_i here
    have links := sameLinks_modify store.chain pindex BlockEntry.pruned fun _ => rfl
    have entry : ∀ p, (store.chain.modify pindex BlockEntry.pruned).entry p =
        if p = pindex then (store.chain.entry pindex).pruned else store.chain.entry p :=
      fun p => modify_entry store.chain pindex p _
    refine ⟨rfl, rfl, rfl, ?_, ?_, ?_⟩
    · intro p lies
      calc
        _ = (store.chain.modify pindex BlockEntry.pruned).entry p := rfl
        _ = (store.chain.entry p).pruned := by rw [entry, if_pos lies.1, lies.1]
    · intro p elsewhere
      have other : p ≠ pindex := fun same => elsewhere ⟨same, by rw [same]; exact here⟩
      calc
        _ = (store.chain.modify pindex BlockEntry.pruned).entry p := rfl
        _ = store.chain.entry p := by rw [entry, if_neg other]
    · intro a b
      have parents : (store.chain.modify pindex BlockEntry.pruned).pprev pindex =
          store.chain.pprev pindex := by rw [links.pprev]
      calc
        _ ↔ (a, b) ∈ store.chain.mapBlocksUnlinked.filter fun pair =>
              ¬ (some pair.1 = (store.chain.modify pindex BlockEntry.pruned).pprev pindex ∧
                pair.2 = pindex) := Iff.rfl
        _ ↔ _ := by
          rw [List.mem_filter, parents]
          apply and_congr_right
          intro _
          simp only [decide_eq_true_eq, not_iff_not]
          constructor
          · intro given
            obtain ⟨link, rfl⟩ := given
            exact ⟨⟨rfl, here⟩, link.symm⟩
          · intro given
            obtain ⟨⟨rfl, _⟩, link⟩ := given
            exact ⟨link.symm, rfl⟩
  · rename_i elsewhere
    apply clears_none
    intro p lies
    rw [lies.1] at lies
    exact elsewhere lies.2

theorem pruneEntries_clears (fileNumber : Nat) (pindexes : List Uint256) (store : BlockStore) :
    Clears store.chain (pindexes.foldl (BlockStore.pruneEntry fileNumber) store).chain
      fun p => p ∈ pindexes ∧ (store.chain.entry p).nFile = fileNumber := by
  induction pindexes generalizing store with
  | nil => exact clears_none _ _ (by simp)
  | cons pindex pindexes ih =>
      have first := pruneEntry_clears fileNumber store pindex
      apply clears_trans _ _ _ _ _ _ first (ih (store.pruneEntry fileNumber pindex))
      intro p
      by_cases now : p = pindex ∧ (store.chain.entry p).nFile = fileNumber
      · exact ⟨fun _ => .inl now, fun _ => ⟨List.mem_cons.mpr (.inl now.1), now.2⟩⟩
      · rw [first.kept p now, List.mem_cons]
        tauto

/-! ## The chosen files -/

/-- The entries of blocks in some files. -/
def BlockStore.Lies (store : BlockStore) (files : List Nat) (p : Uint256) : Prop :=
  p ∈ store.chain.known ∧ (store.chain.entry p).nFile ∈ files

/-- What choosing and pruning `files` does, where no file with blocks above `nLastBlockWeCanPrune`
is chosen. -/
structure Chosen (nLastBlockWeCanPrune : Nat) (store store' : BlockStore) (files : List Nat) :
    Prop where
  clears : Clears store.chain store'.chain (store.Lies files)
  reset : ∀ n ∈ files, store'.fileInfo n = .null
  info : ∀ n, n ∉ files → store'.fileInfo n = store.fileInfo n
  old : ∀ n ∈ files, (store.fileInfo n).nSize ≠ 0 ∧
    (store.fileInfo n).nHeightLast ≤ nLastBlockWeCanPrune
  blk : store'.blk = store.blk
  rev : store'.rev = store.rev

theorem chosen_none (nLastBlockWeCanPrune : Nat) (store : BlockStore) :
    Chosen nLastBlockWeCanPrune store store [] where
  clears := clears_none _ _ fun _ lies => List.not_mem_nil lies.2
  reset _ none := (List.not_mem_nil none).elim
  info _ _ := rfl
  old _ none := (List.not_mem_nil none).elim
  blk := rfl
  rev := rfl

theorem pruneOneBlockFile_info (store : BlockStore) (fileNumber n : Nat) :
    (store.pruneOneBlockFile fileNumber).fileInfo n =
      if n = fileNumber then .null else store.fileInfo n := by
  rw [BlockStore.fileInfo, BlockStore.pruneOneBlockFile, pruneEntries_info,
    List.getD_eq_getElem?_getD, List.getElem?_set]
  by_cases here : fileNumber = n
  · rw [if_pos here, if_pos here.symm]
    split <;> rfl
  · rw [if_neg here, if_neg fun same => here same.symm]
    rfl

/-- One file, and then others. -/
theorem chosen_cons (nLastBlockWeCanPrune fileNumber : Nat) (store store' : BlockStore)
    (files : List Nat) (size : (store.fileInfo fileNumber).nSize ≠ 0)
    (low : (store.fileInfo fileNumber).nHeightLast ≤ nLastBlockWeCanPrune)
    (known : DataKnown store.chain)
    (rest : Chosen nLastBlockWeCanPrune (store.pruneOneBlockFile fileNumber) store' files) :
    Chosen nLastBlockWeCanPrune store store' (fileNumber :: files) := by
  have first := pruneEntries_clears fileNumber store.chain.known store
  have pruned := (pruneOneBlockFile_pruned store fileNumber known).1
  have info := pruneOneBlockFile_info store fileNumber
  refine ⟨?_, ?_, ?_, ?_, rest.blk.trans pruned.blk, rest.rev.trans pruned.rev⟩
  · apply clears_trans _ _ _ _ _ _ first rest.clears
    intro p
    have entry : ((store.pruneOneBlockFile fileNumber).chain.entry p) =
        (store.chain.known.foldl (BlockStore.pruneEntry fileNumber) store).chain.entry p := rfl
    rw [BlockStore.Lies, BlockStore.Lies, pruned.known, entry]
    by_cases now : p ∈ store.chain.known ∧ (store.chain.entry p).nFile = fileNumber
    · exact ⟨fun _ => .inl now, fun _ => ⟨now.1, List.mem_cons.mpr (.inl now.2)⟩⟩
    · rw [first.kept p now, List.mem_cons]
      tauto
  · intro n member
    by_cases late : n ∈ files
    · exact rest.reset n late
    · rw [rest.info n late, info, if_pos ((List.mem_cons.mp member).resolve_right late)]
  · intro n outside
    rw [List.mem_cons, not_or] at outside
    rw [rest.info n outside.2, info, if_neg outside.1]
  · intro n member
    by_cases here : n = fileNumber
    · rw [here]
      exact ⟨size, low⟩
    · have old := rest.old n ((List.mem_cons.mp member).resolve_left here)
      rw [info, if_neg here] at old
      exact old

theorem pruneLoop_chosen (config : StorageConfig) (nLastBlockWeCanPrune : Nat)
    (fileNumbers : List Nat) (nCurrentUsage : Nat) (store : BlockStore)
    (known : DataKnown store.chain) :
    let result := BlockStore.pruneLoop config nLastBlockWeCanPrune fileNumbers nCurrentUsage store
    Chosen nLastBlockWeCanPrune store result.1 result.2 := by
  induction fileNumbers generalizing nCurrentUsage store with
  | nil => exact chosen_none _ store
  | cons fileNumber fileNumbers ih =>
      dsimp only
      rw [BlockStore.pruneLoop]
      split_ifs with empty enough high
      · exact ih nCurrentUsage store known
      · exact chosen_none _ store
      · exact ih nCurrentUsage store known
      · have pruned := (pruneOneBlockFile_pruned store fileNumber known).1
        exact chosen_cons _ fileNumber store _ _ empty (Nat.le_of_not_gt high) known
          (ih _ _ (dataKnown_fewer _ _ known pruned.fewer))

/-- Files are chosen only when there is a tip, which is high enough. -/
theorem findFilesToPrune_chosen (config : StorageConfig) (store : BlockStore)
    (known : DataKnown store.chain) :
    let result := store.findFilesToPrune config
    ∃ nLastBlockWeCanPrune, Chosen nLastBlockWeCanPrune store result.1 result.2 ∧
      (result.2 ≠ [] → ∃ tip, store.chain.tip = some tip ∧
        config.pruneAfterHeight < store.chain.nHeight tip ∧
        nLastBlockWeCanPrune = unsigned32 (store.chain.nHeight tip - minBlocksToKeep)) := by
  dsimp only
  rw [BlockStore.findFilesToPrune]
  cases top : store.chain.tip with
  | none => exact ⟨0, chosen_none 0 store, fun some => (some rfl).elim⟩
  | some tip =>
      dsimp only
      split_ifs with early usage
      · exact ⟨0, chosen_none 0 store, fun some => (some rfl).elim⟩
      · rw [not_or, Nat.not_le] at early
        exact ⟨_, pruneLoop_chosen config _ _ _ store known, fun _ => ⟨tip, rfl, early.2, rfl⟩⟩
      · exact ⟨0, chosen_none 0 store, fun some => (some rfl).elim⟩

/-- `nPruneAfterHeight` -/
def pruneAfterHeight : Network → Nat
  | .main => 262800
  | .testnet => 1000
  | .regtest => 1000

/-- The subtraction from the height of the tip does not wrap. -/
theorem lastBlockWeCanPrune_le (network : Network) (nHeight : Nat)
    (high : pruneAfterHeight network < nHeight) :
    unsigned32 (nHeight - minBlocksToKeep) + minBlocksToKeep ≤ nHeight := by
  have above : 1000 ≤ pruneAfterHeight network := by cases network <;> decide
  have keep : minBlocksToKeep = 720 := rfl
  rw [unsigned32, keep]
  omega

/-! ## Links between entries -/

/-- Everything that is linked is known, and every pair leads from a parent to its child. -/
structure Joined (chain : ChainState) : Prop where
  parents : ∀ p a, p ∈ chain.known → chain.pprev p = some a → a ∈ chain.known
  candidates : ∀ p ∈ chain.setBlockIndexCandidates, p ∈ chain.known
  unlinked : ∀ a b, (a, b) ∈ chain.mapBlocksUnlinked → b ∈ chain.known ∧ chain.pprev b = some a

theorem joined_within (chain chain' : ChainState) (joined : Joined chain)
    (known : chain'.known = chain.known) (pprev : chain'.pprev = chain.pprev)
    (candidates : chain'.setBlockIndexCandidates ⊆ chain.setBlockIndexCandidates)
    (unlinked : chain'.mapBlocksUnlinked ⊆ chain.mapBlocksUnlinked) : Joined chain' := by
  refine ⟨?_, ?_, ?_⟩
  · rw [known, pprev]
    exact joined.parents
  · rw [known]
    intro p member
    exact joined.candidates p (candidates member)
  · rw [known, pprev]
    intro a b member
    exact joined.unlinked a b (unlinked member)

/-- No entry comes to point at data, heights stay, and what is linked stays known. -/
structure Tidy (chain chain' : ChainState) : Prop where
  known : ∀ p ∈ chain.known, p ∈ chain'.known
  data : ∀ p, chain'.haveData p = true →
    chain.haveData p = true ∧ (chain'.entry p).nFile = (chain.entry p).nFile
  heights : ∀ p ∈ chain.known, chain'.nHeight p = chain.nHeight p
  joined : Joined chain → Joined chain'

theorem tidy_refl (chain : ChainState) : Tidy chain chain :=
  ⟨fun _ known => known, fun _ data => ⟨data, rfl⟩, fun _ _ => rfl, id⟩

theorem tidy_trans (chain₁ chain₂ chain₃ : ChainState) (first : Tidy chain₁ chain₂)
    (second : Tidy chain₂ chain₃) : Tidy chain₁ chain₃ where
  known p known := second.known p (first.known p known)
  data p data := by
    obtain ⟨middle, file₂⟩ := second.data p data
    obtain ⟨before, file₁⟩ := first.data p middle
    exact ⟨before, file₂.trans file₁⟩
  heights p known := (second.heights p (first.known p known)).trans (first.heights p known)
  joined start := second.joined (first.joined start)

theorem tidy_fewer (chain chain' : ChainState) (fewer : Fewer chain chain')
    (heights : ∀ p ∈ chain.known, chain'.nHeight p = chain.nHeight p)
    (joined : Joined chain → Joined chain') : Tidy chain chain' :=
  ⟨fewer.known, fun p data => (fewer.entries p).data data, heights, joined⟩

/-- The entries stay, and nothing is linked anew. -/
theorem tidy_same (chain chain' : ChainState) (known : chain'.known = chain.known)
    (entry : chain'.entry = chain.entry)
    (candidates : chain'.setBlockIndexCandidates ⊆ chain.setBlockIndexCandidates)
    (unlinked : chain'.mapBlocksUnlinked ⊆ chain.mapBlocksUnlinked) : Tidy chain chain' := by
  apply tidy_fewer chain chain' (fewer_same chain chain' known entry)
  · intro p _
    rw [nHeight, entry, nHeight]
  · intro start
    have links : chain'.pprev = chain.pprev := by
      funext p
      rw [pprev, entry, pprev]
    exact joined_within chain chain' start known links candidates unlinked

theorem tidy_modify (chain : ChainState) (pindex : Uint256) (change : BlockEntry → BlockEntry)
    (pprev : ∀ entry, (change entry).pprev = entry.pprev)
    (height : ∀ entry, (change entry).nHeight = entry.nHeight)
    (file : ∀ entry, (change entry).nFile = entry.nFile)
    (data : ∀ entry, (change entry).nStatus.haveData = entry.nStatus.haveData) :
    Tidy chain (chain.modify pindex change) where
  known _ known := known
  data p has := by
    rw [haveData, nStatus, modify_entry] at has
    rw [modify_entry]
    split_ifs at has ⊢ with here
    · rw [data] at has
      rw [file, here]
      exact ⟨has, rfl⟩
    · exact ⟨has, rfl⟩
  heights p _ := by
    rw [nHeight, modify_entry]
    split_ifs with here
    · rw [height, here]
      rfl
    · rfl
  joined start := joined_within chain _ start rfl
    (sameLinks_modify chain pindex change pprev).pprev (fun _ member => member)
    fun _ member => member

theorem tidy_insertUnlinked (chain : ChainState) (pindex : Uint256)
    (known : pindex ∈ chain.known) : Tidy chain (chain.insertUnlinked pindex) := by
  refine tidy_fewer _ _ (fewer_same _ _ rfl rfl) (fun _ _ => rfl) fun start => ?_
  refine ⟨start.parents, start.candidates, ?_⟩
  intro a b member
  rcases List.mem_append.mp member with new | old
  · simp only [Option.mem_toList, Option.map_eq_some_iff, Prod.mk.injEq] at new
    obtain ⟨_, link, rfl, rfl⟩ := new
    exact ⟨known, link⟩
  · exact start.unlinked a b old

theorem tidy_add (chain : ChainState) (block : OfferedBlock) (unknown : block.hash ∉ chain.known) :
    Tidy chain (chain.addToBlockIndex block) := by
  have old : ∀ p ∈ chain.known, (chain.addToBlockIndex block).entry p = chain.entry p :=
    add_old chain block unknown
  have links : ∀ p ∈ chain.known, (chain.addToBlockIndex block).pprev p = chain.pprev p := by
    intro p known
    rw [pprev, old p known, pprev]
  apply tidy_fewer _ _ (fewer_add chain block)
  · intro p known
    rw [nHeight, old p known, nHeight]
  · intro start
    refine ⟨?_, ?_, ?_⟩
    · intro p a known link
      rw [add_known] at known ⊢
      rcases List.mem_cons.mp known with rfl | before
      · have parent : (chain.freshEntry block).pprev = some a := link
        rw [fresh_parent] at parent
        split_ifs at parent with there
        cases parent
        exact List.mem_cons_of_mem _ there
      · rw [links p before] at link
        exact List.mem_cons_of_mem _ (start.parents p a before link)
    · intro p member
      exact List.mem_cons_of_mem _ (start.candidates p member)
    · intro a b member
      obtain ⟨before, link⟩ := start.unlinked a b member
      rw [links b before]
      exact ⟨List.mem_cons_of_mem _ before, link⟩

theorem tidy_accept_header (w : Surroundings) (chain : ChainState) (block : OfferedBlock) :
    Tidy chain (chain.acceptBlockHeader w block).1 := by
  rw [ChainState.acceptBlockHeader]
  by_cases known : block.hash ∈ chain.known
  · rw [if_pos known]
    exact tidy_refl chain
  · have added := tidy_add chain block known
    rw [if_neg known]
    split_ifs
    all_goals first | exact tidy_refl chain | exact added

/-! ## Received transactions -/

theorem tidy_link_one (w : Surroundings) (chain : ChainState) (pindex : Uint256)
    (known : pindex ∈ chain.known) : Tidy chain (chain.linkOne w pindex).1 := by
  have links := link_one_links w chain pindex
  apply tidy_fewer _ _ (fewer_link_one w chain pindex) fun p _ => congrFun links.nHeight p
  intro start
  refine ⟨?_, ?_, ?_⟩
  · rw [links.known, links.pprev]
    exact start.parents
  · rw [links.known]
    intro p member
    rcases links.fromBefore p member with before | rfl
    · exact start.candidates p before
    · exact known
  · rw [links.known, links.pprev, links.unlinked]
    intro a b member
    exact start.unlinked a b (List.mem_of_mem_filter member)

theorem link_one_range (w : Surroundings) (chain : ChainState) (pindex : Uint256)
    (joined : Joined chain) : ∀ q ∈ (chain.linkOne w pindex).2, q ∈ chain.known := by
  intro q member
  rw [(link_one_links w chain pindex).children, List.mem_map] at member
  obtain ⟨⟨a, b⟩, waits, rfl⟩ := member
  exact (joined.unlinked a b (List.mem_of_mem_filter waits)).1

theorem tidy_link_queue (w : Surroundings) (fuel : Nat) (chain : ChainState)
    (queue : List Uint256) (joined : Joined chain) (known : ∀ q ∈ queue, q ∈ chain.known) :
    Tidy chain (chain.linkQueue w fuel queue) := by
  induction fuel generalizing chain queue with
  | zero => exact tidy_refl chain
  | succ fuel ih =>
      cases queue with
      | nil => exact tidy_refl chain
      | cons pindex queue =>
          rw [List.forall_mem_cons] at known
          have first := tidy_link_one w chain pindex known.1
          apply tidy_trans _ _ _ first
          apply ih _ _ (first.joined joined)
          intro q member
          apply first.known
          rcases List.mem_append.mp member with queued | child
          · exact known.2 q queued
          · exact link_one_range w chain pindex joined q child

/-- Once an entry has its data, `ReceivedBlockTransactions` is tidy. -/
theorem tidy_received (w : Surroundings) (chain : ChainState) (nTx nFile : Nat)
    (pindexNew : Uint256) (joined : Joined chain) (known : pindexNew ∈ chain.known) :
    Tidy (chain.storing nTx nFile pindexNew)
      (chain.receivedBlockTransactions w nTx nFile pindexNew) := by
  have links := sameLinks_modify chain pindexNew
    (fun entry =>
      { entry with
        nTx, nChainTx := 0, nFile
        nStatus := BlockStatus.raiseValidity { entry.nStatus with haveData := true }
          blockValidTransactions }) fun _ => rfl
  have stored : Joined (chain.storing nTx nFile pindexNew) :=
    joined_within chain _ joined rfl links.pprev (fun _ member => member) fun _ member => member
  have linked : ∀ fuel, Tidy (chain.storing nTx nFile pindexNew)
      ((chain.storing nTx nFile pindexNew).linkQueue w fuel [pindexNew]) := by
    intro fuel
    apply tidy_link_queue w fuel _ _ stored
    intro q member
    rw [List.mem_singleton.mp member]
    exact known
  rw [receivedBlockTransactions]
  dsimp only
  split
  · exact linked _
  · split_ifs
    · exact linked _
    · exact tidy_insertUnlinked _ pindexNew known
    · exact tidy_refl _

/-! ## The choice of the active chain -/

theorem joined_branch (chain : ChainState) (joined : Joined chain) (pindex : Uint256)
    (known : pindex ∈ chain.known) : ∀ p ∈ chain.branch pindex, p ∈ chain.known :=
  Branches.mem_walk_closed chain.pprev (fun p => p ∈ chain.known) joined.parents _ pindex known

theorem tidy_erase (chain : ChainState) (pindex : Uint256) :
    Tidy chain (chain.eraseCandidate pindex) :=
  tidy_same _ _ rfl rfl List.filter_sublist.subset fun _ member => member

theorem tidy_discardOne (fFailedChain : Bool) (chain : ChainState) (pindexFailed : Uint256)
    (known : pindexFailed ∈ chain.known) :
    Tidy chain (chain.discardOne fFailedChain pindexFailed) := by
  rw [discardOne]
  cases fFailedChain with
  | true =>
      have flagged := tidy_modify chain pindexFailed
        (fun entry => { entry with nStatus := { entry.nStatus with failedChild := true } })
        (fun _ => rfl) (fun _ => rfl) (fun _ => rfl) fun _ => rfl
      exact tidy_trans _ _ _ flagged (tidy_erase _ pindexFailed)
  | false =>
      exact tidy_trans _ _ _ (tidy_insertUnlinked chain pindexFailed known)
        (tidy_erase _ pindexFailed)

theorem tidy_discard (chain : ChainState) (above : List Uint256) (pindexTest : Uint256)
    (known : ∀ p ∈ above, p ∈ chain.known) : Tidy chain (chain.discard above pindexTest) := by
  have folded : ∀ (fFailedChain : Bool) (above : List Uint256) (chain : ChainState),
      (∀ p ∈ above, p ∈ chain.known) →
        Tidy chain (above.foldl (discardOne fFailedChain) chain) := by
    intro fFailedChain above
    induction above with
    | nil => exact fun chain _ => tidy_refl chain
    | cons pindexFailed above ih =>
        intro chain known
        rw [List.forall_mem_cons] at known
        have first := tidy_discardOne fFailedChain chain pindexFailed known.1
        exact tidy_trans _ _ _ first (ih _ fun p member => first.known p (known.2 p member))
  exact tidy_trans _ _ _ (folded _ above chain known) (tidy_erase _ pindexTest)

theorem tidy_findMostWorkLoop (w : Surroundings) (fuel : Nat) (chain chain' : ChainState)
    (pindexNew : Option Uint256) (joined : Joined chain)
    (found : chain.findMostWorkLoop w fuel = some (chain', pindexNew)) : Tidy chain chain' := by
  induction fuel generalizing chain with
  | zero => cases found
  | succ fuel ih =>
      rw [findMostWorkLoop] at found
      cases best : chain.bestCandidate w with
      | none =>
          rw [best] at found
          cases found
          exact tidy_refl _
      | some candidate =>
          rw [best] at found
          dsimp only at found
          split at found
          · cases found
          · split at found
            · cases found
              exact tidy_refl _
            · split at found
              · cases found
              · have known := joined.candidates candidate (List.argmax_mem best)
                have discarded : ∀ pindexTest, Tidy chain (chain.discard
                    ((chain.pathToActive candidate).takeWhile chain.usable) pindexTest) := by
                  intro pindexTest
                  apply tidy_discard
                  intro p member
                  exact joined_branch chain joined candidate known p
                    (List.takeWhile_subset _ (List.takeWhile_subset _ member))
                exact tidy_trans _ _ _ (discarded _) (ih _ ((discarded _).joined joined) found)

/-- What choosing the active chain does to the tree. The last one is what `InvalidateBlock`,
`ReconsiderBlock` and `InvalidBlockFound` do to an entry. -/
inductive ChainStep where
  | findMostWorkChain
  | pruneBlockIndexCandidates
  | setTip (pindex : Option Uint256)
  | setFlags (pindex : Uint256) (failedValid failedChild : Bool)

namespace ChainStep

/-- A failed assertion changes nothing any more. -/
def run (w : Surroundings) (chain : ChainState) : ChainStep → ChainState
  | findMostWorkChain => (chain.findMostWorkChain w).elim chain Prod.fst
  | pruneBlockIndexCandidates => (chain.pruneBlockIndexCandidates w).getD chain
  | setTip pindex => chain.setTip pindex
  | setFlags pindex failedValid failedChild =>
      chain.modify pindex fun entry =>
        { entry with nStatus := { entry.nStatus with failedValid, failedChild } }

end ChainStep

theorem tidy_chain_step (w : Surroundings) (chain : ChainState) (step : ChainStep)
    (joined : Joined chain) : Tidy chain (step.run w chain) := by
  cases step with
  | findMostWorkChain =>
      rw [ChainStep.run]
      cases found : chain.findMostWorkChain w with
      | none => exact tidy_refl chain
      | some result => exact tidy_findMostWorkLoop w _ chain result.1 result.2 joined found
  | pruneBlockIndexCandidates =>
      rw [ChainStep.run, ChainState.pruneBlockIndexCandidates]
      cases chain.tip with
      | none => exact tidy_refl chain
      | some tip =>
          dsimp only
          split_ifs
          · exact tidy_refl chain
          · exact tidy_same _ _ rfl rfl List.filter_sublist.subset fun _ member => member
  | setTip pindex => exact tidy_same _ _ rfl rfl (fun _ member => member) fun _ member => member
  | setFlags pindex failedValid failedChild =>
      exact tidy_modify chain pindex
        (fun entry => { entry with nStatus := { entry.nStatus with failedValid, failedChild } })
        (fun _ => rfl) (fun _ => rfl) (fun _ => rfl) fun _ => rfl

/-! ## Heights of files -/

/-- The height noted for a file is at least that of every block in it. -/
structure Summarised (store : BlockStore) : Prop where
  joined : Joined store.chain
  known : DataKnown store.chain
  heights : ∀ p, store.chain.haveData p = true →
    store.chain.nHeight p ≤ (store.fileInfo (store.chain.entry p).nFile).nHeightLast

/-- The noted heights of files with blocks do not fall. -/
theorem summarised_tidy (store store' : BlockStore) (summarised : Summarised store)
    (tidy : Tidy store.chain store'.chain)
    (heights : ∀ p, store'.chain.haveData p = true →
      (store.fileInfo (store'.chain.entry p).nFile).nHeightLast ≤
        (store'.fileInfo (store'.chain.entry p).nFile).nHeightLast) : Summarised store' := by
  refine ⟨tidy.joined summarised.joined,
    fun p data => tidy.known p (summarised.known p (tidy.data p data).1), ?_⟩
  intro p data
  obtain ⟨before, file⟩ := tidy.data p data
  calc
    store'.chain.nHeight p = store.chain.nHeight p := tidy.heights p (summarised.known p before)
    _ ≤ (store.fileInfo (store.chain.entry p).nFile).nHeightLast := summarised.heights p before
    _ ≤ _ := by
      rw [← file]
      exact heights p data

/-- Only the tree changes. -/
theorem summarised_chain (store store' : BlockStore) (summarised : Summarised store)
    (tidy : Tidy store.chain store'.chain) (info : store'.vinfoBlockFile = store.vinfoBlockFile) :
    Summarised store' := by
  apply summarised_tidy store store' summarised tidy
  intro p _
  rw [BlockStore.fileInfo, BlockStore.fileInfo, info]

theorem addBlock_height (info : CBlockFileInfo) (nHeightIn nTimeIn : Nat) :
    info.nHeightLast ≤ (info.addBlock nHeightIn nTimeIn).nHeightLast ∧
      nHeightIn ≤ (info.addBlock nHeightIn nTimeIn).nHeightLast := by
  rw [CBlockFileInfo.addBlock]
  dsimp only
  split_ifs <;> omega

/-- `FindBlockPos` notes the height of the block in the file it chooses. -/
theorem findBlockPos_heights (config : StorageConfig) (freeBytes : Nat) (store : BlockStore)
    (nAddSize nHeight nTime : Nat) (known : Option (Nat × Nat)) :
    let store' := (store.findBlockPos config freeBytes nAddSize nHeight nTime known).1
    (∀ n, (store.fileInfo n).nHeightLast ≤ (store'.fileInfo n).nHeightLast) ∧
      nHeight ≤ (store'.fileInfo store'.nLastBlockFile).nHeightLast := by
  have last := (findBlockPos_same config freeBytes store nAddSize nHeight nTime known).2.2.2.2
  have info : ∀ n,
      ((store.findBlockPos config freeBytes nAddSize nHeight nTime known).1.fileInfo
          n).nHeightLast =
        if n = store.blockFile nAddSize known then
          ((store.fileInfo (store.blockFile nAddSize known)).addBlock nHeight nTime).nHeightLast
        else (store.fileInfo n).nHeightLast := by
    have change : ∀ nSize n,
        ((store.changeInfo (store.blockFile nAddSize known) fun info =>
          { info.addBlock nHeight nTime with nSize }).getD n .null).nHeightLast =
        if n = store.blockFile nAddSize known then
          ((store.fileInfo (store.blockFile nAddSize known)).addBlock nHeight nTime).nHeightLast
        else (store.fileInfo n).nHeightLast := by
      intro nSize n
      rw [BlockStore.fileInfo_change]
      split_ifs <;> rfl
    intro n
    rw [BlockStore.findBlockPos]
    dsimp only
    split
    · exact change _ n
    · exact change _ n
  have added := addBlock_height (store.fileInfo (store.blockFile nAddSize known)) nHeight nTime
  constructor
  · intro n
    rw [info]
    split_ifs with here
    · rw [here]
      exact added.1
    · exact le_rfl
  · rw [last, info, if_pos rfl]
    exact added.2

theorem summarised_findBlockPos (config : StorageConfig) (freeBytes : Nat) (store : BlockStore)
    (nAddSize nHeight nTime : Nat) (known : Option (Nat × Nat)) (summarised : Summarised store) :
    Summarised (store.findBlockPos config freeBytes nAddSize nHeight nTime known).1 := by
  have heights := (findBlockPos_heights config freeBytes store nAddSize nHeight nTime known).1
  have chain := (findBlockPos_same config freeBytes store nAddSize nHeight nTime known).1
  apply summarised_tidy store _ summarised
  · rw [chain]
    exact tidy_refl _
  · exact fun _ _ => heights _

/-- A block is noted in its entry once its height is noted for its file. -/
theorem summarised_received (w : Surroundings) (store : BlockStore) (nTx : Nat)
    (pindexNew : Uint256) (summarised : Summarised store) (known : pindexNew ∈ store.chain.known)
    (noted : store.chain.nHeight pindexNew ≤ (store.fileInfo store.nLastBlockFile).nHeightLast) :
    Summarised (store.touch pindexNew fun chain =>
      chain.receivedBlockTransactions w nTx store.nLastBlockFile pindexNew) := by
  have entry : ∀ p, (store.chain.storing nTx store.nLastBlockFile pindexNew).entry p =
      if p = pindexNew then
        { store.chain.entry pindexNew with
          nTx, nChainTx := 0, nFile := store.nLastBlockFile
          nStatus := BlockStatus.raiseValidity
            { (store.chain.entry pindexNew).nStatus with haveData := true }
            blockValidTransactions }
      else store.chain.entry p := fun p => modify_entry store.chain pindexNew p _
  have links := sameLinks_modify store.chain pindexNew
    (fun entry =>
      { entry with
        nTx, nChainTx := 0, nFile := store.nLastBlockFile
        nStatus := BlockStatus.raiseValidity { entry.nStatus with haveData := true }
          blockValidTransactions }) fun _ => rfl
  have stored : Summarised { store with
      chain := store.chain.storing nTx store.nLastBlockFile pindexNew } := by
    refine ⟨joined_within store.chain _ summarised.joined rfl links.pprev
      (fun _ member => member) fun _ member => member, ?_, ?_⟩
    · intro p data
      dsimp only at data ⊢
      rw [entry] at data
      split_ifs at data with here
      · rw [here]
        exact known
      · exact summarised.known p data
    · intro p data
      rw [haveData, nStatus] at data
      rw [nHeight]
      dsimp only at data ⊢
      rw [entry] at data ⊢
      split_ifs at data ⊢ with here
      · exact noted
      · exact summarised.heights p data
  exact summarised_chain _ _ stored
    (tidy_received w store.chain nTx store.nLastBlockFile pindexNew summarised.joined known) rfl

theorem summarised_writeBlock (w : Surroundings) (config : StorageConfig) (trial : BlockTrial)
    (block : OfferedBlock) (store : BlockStore) (summarised : Summarised store)
    (known : block.hash ∈ store.chain.known) :
    Summarised (store.writeBlock w config trial block).1 := by
  have found := summarised_findBlockPos config trial.freeBytes store (trial.nBlockSize + 8)
    (store.chain.nHeight block.hash) trial.nTime trial.known summarised
  have noted := (findBlockPos_heights config trial.freeBytes store (trial.nBlockSize + 8)
    (store.chain.nHeight block.hash) trial.nTime trial.known).2
  have chain := (findBlockPos_same config trial.freeBytes store (trial.nBlockSize + 8)
    (store.chain.nHeight block.hash) trial.nTime trial.known).1
  rw [BlockStore.writeBlock]
  generalize store.findBlockPos config trial.freeBytes (trial.nBlockSize + 8)
    (store.chain.nHeight block.hash) trial.nTime trial.known = result at found noted chain ⊢
  obtain ⟨grown, room⟩ := result
  dsimp only at found noted chain ⊢
  split
  · exact found
  · split
    · exact found
    · obtain ⟨same, last⟩ := placeBlock_same trial block.hash grown
      have info : (grown.placeBlock trial block.hash).vinfoBlockFile = grown.vinfoBlockFile := by
        rw [BlockStore.placeBlock]
        split_ifs <;> rfl
      have placed : Summarised (grown.placeBlock trial block.hash) := by
        apply summarised_chain grown _ found _ info
        rw [same]
        exact tidy_refl _
      have received := summarised_received w (grown.placeBlock trial block.hash) block.nTx
        block.hash placed (by rw [same, chain]; exact known)
        (by rw [same, chain, last, BlockStore.fileInfo, info]; exact noted)
      exact received

theorem summarised_acceptBlock (w : Surroundings) (config : StorageConfig) (trial : BlockTrial)
    (block : OfferedBlock) (store : BlockStore) (summarised : Summarised store) :
    Summarised (store.acceptBlock w config trial block).1 := by
  have header : Summarised (store.acceptBlockHeader w block).1 := by
    apply summarised_chain store _ summarised _ (header_last w store block).2.1
    have tidy := tidy_accept_header w store.chain block
    rw [BlockStore.acceptBlockHeader]
    dsimp only
    split
    · exact tidy
    · exact tidy_refl _
  have known := header_accepted w store block
  rw [BlockStore.acceptBlock]
  generalize store.acceptBlockHeader w block = result at header known ⊢
  obtain ⟨noted, accepted⟩ := result
  dsimp only at header known ⊢
  split
  · exact header
  · rename_i yes
    rw [Bool.not_eq_true', Bool.not_eq_false] at yes
    split
    · exact header
    · split
      · exact header
      · split
        · have flagged := tidy_chain_step w noted.chain
            (.setFlags block.hash true (noted.chain.nStatus block.hash).failedChild) header.joined
          exact summarised_chain noted _ header flagged rfl
        · split
          · exact header
          · exact summarised_writeBlock w config trial block noted header (known yes)

theorem findUndoPos_heights (config : StorageConfig) (freeBytes : Nat) (store : BlockStore)
    (nFile nAddSize n : Nat) :
    ((store.findUndoPos config freeBytes nFile nAddSize).1.fileInfo n).nHeightLast =
      (store.fileInfo n).nHeightLast := by
  have change : ((store.vinfoBlockFile.set nFile
      { store.fileInfo nFile with
        nUndoSize := (store.fileInfo nFile).nUndoSize + nAddSize }).getD n .null).nHeightLast =
      (store.vinfoBlockFile.getD n .null).nHeightLast := by
    rw [List.getD_eq_getElem?_getD, List.getD_eq_getElem?_getD, List.getElem?_set]
    by_cases here : nFile = n
    · rw [if_pos here]
      split_ifs with inside
      · rw [Option.getD_some, BlockStore.fileInfo, here, List.getD_eq_getElem?_getD]
      · rw [List.getElem?_eq_none (by omega)]
    · rw [if_neg here]
  exact change

/-- Undo data changes neither the data of blocks nor the heights of files. -/
theorem summarised_writeUndo (config : StorageConfig) (trial : UndoTrial) (nUndoSize : Nat)
    (pindex : Uint256) (store : BlockStore) (summarised : Summarised store) :
    Summarised (store.writeUndo config trial nUndoSize pindex).1 := by
  have raise : ∀ nStatus : BlockStatus,
      (nStatus.raiseValidity blockValidScripts).haveData = nStatus.haveData :=
    fun nStatus => BlockStatus.raise_have_data nStatus blockValidScripts
  rw [BlockStore.writeUndo]
  split
  · split
    · exact summarised
    · exact summarised_chain store _ summarised
        (tidy_modify store.chain pindex
          (fun entry => { entry with nStatus := entry.nStatus.raiseValidity blockValidScripts })
          (fun _ => rfl) (fun _ => rfl) (fun _ => rfl) fun entry => raise entry.nStatus) rfl
  · have grown : Summarised (store.findUndoPos config trial.freeBytes
        (store.chain.entry pindex).nFile (nUndoSize + 40)).1 := by
      refine summarised_tidy store _ summarised (tidy_refl _) fun p _ => ?_
      rw [findUndoPos_heights]
    generalize store.findUndoPos config trial.freeBytes (store.chain.entry pindex).nFile
      (nUndoSize + 40) = result at grown ⊢
    obtain ⟨grownStore, found⟩ := result
    rw [BlockStore.noteUndo]
    split
    · exact grown
    · exact summarised_chain grownStore _ grown
        (tidy_modify grownStore.chain pindex
          (fun entry =>
            { entry with
              nStatus := BlockStatus.raiseValidity { entry.nStatus with haveUndo := true }
                blockValidScripts })
          (fun _ => rfl) (fun _ => rfl) (fun _ => rfl) fun _ => raise _) rfl

/-- Pruned files have no blocks any more, and the notes on other files stay. -/
theorem summarised_chosen (nLastBlockWeCanPrune : Nat) (store store' : BlockStore)
    (files : List Nat) (chosen : Chosen nLastBlockWeCanPrune store store' files)
    (summarised : Summarised store) : Summarised store' := by
  have clears := chosen.clears
  have links : store'.chain.pprev = store.chain.pprev := by
    funext p
    exact clears_pprev _ _ _ clears p
  have stays : ∀ p, store'.chain.haveData p = true →
      store'.chain.entry p = store.chain.entry p ∧ ¬ store.Lies files p := by
    intro p data
    have elsewhere : ¬ store.Lies files p := by
      intro lies
      rw [haveData, nStatus, clears.taken p lies] at data
      cases data
    exact ⟨clears.kept p elsewhere, elsewhere⟩
  refine ⟨?_, ?_, ?_⟩
  · apply joined_within store.chain _ summarised.joined clears.known links
    · rw [clears.candidates]
      exact fun _ member => member
    · intro pair member
      exact ((clears.unlinked pair.1 pair.2).mp member).1
  · intro p data
    obtain ⟨same, -⟩ := stays p data
    rw [same] at data
    rw [clears.known]
    exact summarised.known p data
  · intro p data
    obtain ⟨same, elsewhere⟩ := stays p data
    rw [haveData, nStatus, same] at data
    have outside : (store.chain.entry p).nFile ∉ files :=
      fun member => elsewhere ⟨summarised.known p data, member⟩
    rw [nHeight, same, chosen.info _ outside]
    exact summarised.heights p data

/-- Once the files to prune are chosen, a flush leaves the tree alone. -/
theorem flush_chain (config : StorageConfig) (trial : FlushTrial) (mode : FlushStateMode)
    (storage : Storage) :
    ∃ fHavePruned, (storage.flushStateToDisk config trial mode).1.files.chain =
      { (storage.files.selectPruned config).1.chain with fHavePruned } := by
  rw [Storage.flushStateToDisk]
  generalize storage.files.selectPruned config = result
  obtain ⟨files, setFilesToPrune⟩ := result
  dsimp only
  split
  · exact ⟨files.chain.fHavePruned, rfl⟩
  · refine ⟨files.chain.fHavePruned || !setFilesToPrune.isEmpty, ?_⟩
    rw [Storage.writeState]
    split
    · rfl
    · have written := (BlockStore.writeIndex_result trial setFilesToPrune
        (({ storage with files }.begin (!setFilesToPrune.isEmpty) trial.nNow)).files).1
      generalize BlockStore.writeIndex trial setFilesToPrune _ = result at written ⊢
      obtain ⟨files', done⟩ := result
      dsimp only at written ⊢
      split
      · exact written
      · split
        · rw [Storage.flushCoins]
          split_ifs <;> exact written
        · exact written

theorem summarised_flush (config : StorageConfig) (trial : FlushTrial) (mode : FlushStateMode)
    (storage : Storage) (summarised : Summarised storage.files) :
    Summarised (storage.flushStateToDisk config trial mode).1.files := by
  obtain ⟨_, chosen, -⟩ := findFilesToPrune_chosen config storage.files summarised.known
  have found := summarised_chosen _ _ _ _ chosen summarised
  have selected : Summarised (storage.files.selectPruned config).1 := by
    rw [BlockStore.selectPruned]
    split
    · exact ⟨found.joined, found.known, found.heights⟩
    · exact summarised
  obtain ⟨fHavePruned, chain⟩ := flush_chain config trial mode storage
  obtain ⟨-, -, info⟩ := flush_files config trial mode storage
  apply summarised_chain _ _ selected _ info
  rw [chain]
  exact tidy_same _ _ rfl rfl (fun _ member => member) fun _ member => member

/-! ## Runs -/

/-- A step that stores something, or one that looks for the chain to be active. -/
inductive NodeMove where
  | store (step : StoreStep)
  | choose (step : ChainStep)

def NodeMove.run (w : Surroundings) (config : StorageConfig) (storage : Storage) :
    NodeMove → Storage
  | store step => step.run w config storage
  | choose step =>
      { storage with files := { storage.files with chain := step.run w storage.files.chain } }

theorem summarised_move (w : Surroundings) (config : StorageConfig) (storage : Storage)
    (move : NodeMove) (summarised : Summarised storage.files) :
    Summarised (move.run w config storage).files := by
  cases move with
  | store step =>
      cases step with
      | acceptBlock trial block =>
          exact summarised_acceptBlock w config trial block storage.files summarised
      | connectBlock trial nUndoSize pindex =>
          exact summarised_writeUndo config trial nUndoSize pindex storage.files summarised
      | flushStateToDisk trial mode => exact summarised_flush config trial mode storage summarised
  | choose step =>
      exact summarised_chain storage.files _ summarised
        (tidy_chain_step w storage.files.chain step summarised.joined) rfl

theorem summarised_run (w : Surroundings) (config : StorageConfig) (storage : Storage)
    (moves : List NodeMove) (summarised : Summarised storage.files) :
    Summarised (Runs.run (NodeMove.run w config) storage moves).files :=
  Runs.run_keeps (NodeMove.run w config) (fun storage => Summarised storage.files)
    (fun storage move => summarised_move w config storage move) storage moves summarised

/-- What `UnlinkPrunedFiles` leaves of the other files. -/
theorem unlinkPrunedFiles_others (removes : Nat → Bool) (store : BlockStore) (files : List Nat)
    (n : Nat) (other : n ∉ files) :
    (store.unlinkPrunedFiles removes files).1.blk n = store.blk n ∧
      (store.unlinkPrunedFiles removes files).1.rev n = store.rev n := by
  induction files generalizing store with
  | nil => exact ⟨rfl, rfl⟩
  | cons fileNumber files ih =>
      rw [List.mem_cons, not_or] at other
      rw [BlockStore.unlinkPrunedFiles]
      split
      · obtain ⟨blk, rev⟩ := ih { store with
          blk := Function.update store.blk fileNumber .empty
          rev := Function.update store.rev fileNumber .empty } other.2
        rw [blk, rev]
        exact ⟨Function.update_of_ne other.1 _ _, Function.update_of_ne other.1 _ _⟩
      · exact ⟨rfl, rfl⟩

/-- What is promised about the files that `FindFilesToPrune` chooses and prunes. A pair of
`mapBlocksUnlinked` stands for the block that waits, its second component; that data of the first
one or of an ancestor is missing is why it waits. -/
structure PrunedSafely (store store' : BlockStore) (files : List Nat) : Prop where
  /-- The last `minBlocksToKeep` heights of the active chain are kept, on every branch. -/
  old : ∀ p, store.chain.haveData p = true → (store.chain.entry p).nFile ∈ files →
    ∃ tip, store.chain.tip = some tip ∧
      store.chain.nHeight p + minBlocksToKeep ≤ store.chain.nHeight tip
  gone : ∀ p ∈ store'.chain.known,
    store'.chain.haveData p = true ∨ (store'.chain.nStatus p).haveUndo = true →
      (store'.chain.entry p).nFile ∉ files
  waiting : ∀ a b, (a, b) ∈ store'.chain.mapBlocksUnlinked →
    (store.chain.entry b).nFile ∉ files ∧ store'.chain.entry b = store.chain.entry b
  entries : ∀ p, (store.chain.entry p).nFile ∉ files →
    store'.chain.entry p = store.chain.entry p
  pairs : ∀ a b, (a, b) ∈ store.chain.mapBlocksUnlinked → (store.chain.entry b).nFile ∉ files →
    (a, b) ∈ store'.chain.mapBlocksUnlinked
  contents : ∀ n, n ∉ files → store'.fileInfo n = store.fileInfo n ∧ ∀ removes,
    (store'.unlinkPrunedFiles removes files).1.blk n = store.blk n ∧
      (store'.unlinkPrunedFiles removes files).1.rev n = store.rev n

/-- A block at height five waits in the first file, and the tip is in the second one. -/
def farApart : Storage :=
  { almostFull with
    files := { almostFull.files with
      chain := { ChainState.start with
        known := [0, 1, 2]
        entry := fun p =>
          if p = 1 then
            { BlockEntry.blank with
              pprev := some 0, nHeight := 5, nTx := 1, nStatus := ⟨3, true, true, false, false⟩ }
          else if p = 2 then
            { BlockEntry.blank with
              nHeight := 1100, nFile := 1, nTx := 1, nStatus := ⟨5, true, true, false, false⟩ }
          else .blank
        mapBlocksUnlinked := [(0, 1)] }
      vinfoBlockFile := [⟨1, 500, 40, 5, 5, 1, 1⟩, ⟨1, 500, 40, 1100, 1100, 1, 1⟩]
      nLastBlockFile := 1 } }

theorem farApart_summarised : Summarised farApart.files := by
  refine ⟨⟨?_, fun _ none => (List.not_mem_nil none).elim, ?_⟩, ?_, ?_⟩
  · intro p a _ link
    rw [pprev] at link
    dsimp only [farApart] at link ⊢
    split_ifs at link
    · cases link
      exact List.mem_cons_self
    · cases link
    · cases link
  · intro a b member
    cases List.mem_singleton.mp member
    exact ⟨by decide, rfl⟩
  · intro p data
    dsimp only [farApart] at data ⊢
    split_ifs at data with low high
    · rw [low]
      decide
    · rw [high]
      decide
    · cases data
  · intro p data
    rw [haveData, nStatus] at data
    rw [nHeight]
    dsimp only [farApart] at data ⊢
    split_ifs at data ⊢ with low high
    · decide
    · decide
    · cases data

def smallTarget : StorageConfig := ⟨true, false, 1, 1000, 100, ⟨fun _ => true, fun _ => none⟩⟩

end RoiCoin
