import RoiCoin.Validation.BlockScan
import RoiCoin.Validation.DataPositions

/-! Loading the block files of a node that rebuilds its index (`ProcessNewBlock`,
`LoadExternalBlockFile`).

Of the multimap only ranges of equal keys are read, so that its entries stand in the order of
insertion. `none` is a call of `ActivateBestChain` that does not return. Its undo files, and what it
flushes to the databases, are left out. -/

namespace RoiCoin

open ChainState Codec

/-- What a call of `ProcessNewBlock` meets; `contextualHeader` and `contextual` are the verdicts of
the contextual checks. -/
structure ProcessTrial where
  adjustedTime : Int
  contextualHeader : Bool
  contextual : BlockVerdict
  freeBytes : Nat
  allocation : AllocTrial
  writing : WriteTrial
  flush : FlushTrial
  flushRecreates : Bool
  /-- Set by `FindUndoPos`. -/
  fCheckForPruning : Bool
  /-- `state.IsError()`, where `ActivateBestChain` fails. -/
  isError : Bool

/-- The call of `AcceptBlock`. -/
def ProcessTrial.call (trial : ProcessTrial) (block : TypedBlock) (dbp : Nat × Nat) : DataCall where
  block := block.1
  typed := block.2
  adjustedTime := trial.adjustedTime
  contextualHeader := trial.contextualHeader
  contextual := trial.contextual
  fRequested := true
  dbp := some dbp
  freeBytes := trial.freeBytes
  allocation := trial.allocation
  writing := trial.writing
  flush := trial.flush
  flushRecreates := trial.flushRecreates

/-- The surroundings of the loader: the calls of `ProcessNewBlock` by their numbers, how the files
are read, and how many turns `ActivateBestChain` may take. -/
structure Loading where
  network : Network
  w : Surroundings
  env : Environment
  config : StorageConfig
  trial : Nat → ProcessTrial
  fuel : Nat
  chunk : Nat → Nat → Nat
  reach : Nat → Nat → Nat

def Loading.hash (l : Loading) (block : TypedBlock) : Uint256 := l.env.blockHash block.1.header

def Loading.source (l : Loading) (nFile : Nat) (content : Bytes) : SourceFile :=
  ⟨content, l.chunk nFile⟩

/-- `calls` counts the calls of `ProcessNewBlock`. `refused` keeps the blocks that it refused though
they were the first one or had their parent in the index, and `failed` whether `ActivateBestChain`
has failed; nothing in the source reads these. -/
structure Reindexing where
  store : DataStore
  mapBlocksUnknownParent : List (Uint256 × (Nat × Nat))
  nLoaded : Nat
  calls : Nat
  refused : List CBlock
  failed : Bool

inductive Processed where
  /-- By `CheckBlock` or `AcceptBlock`. -/
  | refused
  /-- By `ActivateBestChain`. -/
  | failed (isError : Bool)
  | done
  deriving DecidableEq, Repr

/-- `ActivateBestChain` leaves the block files and what is recorded of them. -/
def DataStore.activated (s : DataStore) (chain : ChainState) (fCheckForPruning : Bool) :
    DataStore :=
  s.setFiles { s.storage.files with
    chain, fCheckForPruning := s.storage.files.fCheckForPruning || fCheckForPruning }

namespace Reindexing

variable (l : Loading)

/-- The genesis block, or a block with its parent in the index. -/
def Placed (s : Reindexing) (block : TypedBlock) : Prop :=
  l.hash block = l.w.hashGenesisBlock ∨ block.1.header.hashPrevBlock ∈ s.store.chain.known

instance (s : Reindexing) (block : TypedBlock) : Decidable (s.Placed l block) :=
  inferInstanceAs (Decidable (_ ∨ _))

/-- `ProcessNewBlock` refuses a block. -/
def refuse (s : Reindexing) (block : TypedBlock) (store : DataStore) : Reindexing :=
  { s with
    store
    calls := s.calls + 1
    refused := if s.Placed l block then block.1 :: s.refused else s.refused }

/-- The end of `ProcessNewBlock`. -/
def activateBestChain (s : Reindexing) (store : DataStore) : Option (Reindexing × Processed) :=
  let trial := l.trial s.calls
  match store.chain.activateBestChain l.w l.fuel with
  | none => none
  | some (chain, false) =>
      some ({ s with
        store := store.activated chain trial.fCheckForPruning
        calls := s.calls + 1
        failed := true }, .failed trial.isError)
  | some (chain, true) =>
      some ({ s with
        store := store.activated chain trial.fCheckForPruning
        calls := s.calls + 1
        nLoaded := s.nLoaded + 1 }, .done)

def processNewBlock (s : Reindexing) (block : TypedBlock) (dbp : Nat × Nat) :
    Option (Reindexing × Processed) :=
  let trial := l.trial s.calls
  match checkBlock { l.env with adjustedTime := trial.adjustedTime } block.1 true true with
  | .error _ => some (s.refuse l block s.store, .refused)
  | .ok _ =>
      match s.store.acceptBlock l.w l.env l.config
        (BitVec.ofNat 32 (readLE l.network.messageStart)) (trial.call block dbp) with
      | (store, .refused) => some (s.refuse l block store, .refused)
      | (store, _) => s.activateBestChain l store

/-! ## The queue -/

/-- `ReadBlockFromDisk` -/
def readParked (s : Reindexing) (pos : Nat × Nat) : Option TypedBlock :=
  match readBlock ((s.store.contents pos.1).drop pos.2) with
  | none => none
  | some block =>
      if readBlockFromDiskPow l.env.blockHash l.env.params block.1.header then some block else none

/-- `mapBlocksUnknownParent.erase(it)` -/
def erase (s : Reindexing) (it : Uint256 × (Nat × Nat)) : Reindexing :=
  { s with mapBlocksUnknownParent := s.mapBlocksUnknownParent.erase it }

/-- A turn over the range, up to the erasure. -/
def replayOne (s : Reindexing) (queue : List Uint256) (it : Uint256 × (Nat × Nat)) :
    Option (Reindexing × List Uint256) :=
  match s.readParked l it.2 with
  | none => some (s, queue)
  | some block =>
      match s.processNewBlock l block it.2 with
      | none => none
      | some (s, .done) => some (s, queue ++ [l.hash block])
      | some (s, _) => some (s, queue)

def replayRange : List (Uint256 × (Nat × Nat)) → Reindexing → List Uint256 →
    Option (Reindexing × List Uint256)
  | [], s, queue => some (s, queue)
  | it :: range, s, queue =>
      match s.replayOne l queue it with
      | none => none
      | some (s, queue) => replayRange range (s.erase it) queue

/-- `mapBlocksUnknownParent.equal_range(head)` -/
def range (s : Reindexing) (head : Uint256) : List (Uint256 × (Nat × Nat)) :=
  s.mapBlocksUnknownParent.filter fun it => it.1 = head

def replayQueue : Nat → Reindexing → List Uint256 → Option Reindexing
  | 0, _, _ => none
  | fuel + 1, s, queue =>
      match queue with
      | [] => some s
      | head :: queue =>
          match replayRange l (s.range head) s queue with
          | none => none
          | some (s, queue) => replayQueue fuel s queue

/-- "Recursively process earlier encountered successors of this block". What comes into the queue
leaves the multimap. -/
def replay (s : Reindexing) (hash : Uint256) : Option Reindexing :=
  replayQueue l (s.mapBlocksUnknownParent.length + 2) s [hash]

/-! ## A file -/

/-- What the loop goes on with. -/
def goOn : Option Reindexing → Option Reindexing × Bool
  | none => (none, true)
  | some s => (some s, false)

/-- What is done with a block, and whether the loop ends. -/
def importBlock (nFile : Nat) :
    Option Reindexing → TypedBlock → Nat → Option Reindexing × Bool
  | none, _, _ => (none, true)
  | some s, block, nBlockPos =>
      let dbp := (nFile, toUint32 nBlockPos)
      let hash := l.hash block
      if ¬ s.Placed l block then
        (some { s with
          mapBlocksUnknownParent :=
            s.mapBlocksUnknownParent ++ [(block.1.header.hashPrevBlock, dbp)] }, false)
      else if ¬ s.store.chain.known.contains hash ∨ s.store.chain.haveData hash = false then
        match s.processNewBlock l block dbp with
        | none => (none, true)
        | some (s, .failed true) => (some s, true)
        | some (s, _) => goOn (s.replay l hash)
      else goOn (s.replay l hash)

def loadExternalBlockFile (s : Reindexing) (nFile : Nat) : Option Reindexing × ScanEnd :=
  BlockScan.scan (l.source nFile (s.store.contents nFile)) l.network.messageStart (l.reach nFile)
    (importBlock l nFile) (some { s with nLoaded := 0 })

/-- The loop of `ThreadImport` over the files. -/
def loadFiles : List Nat → Reindexing → Option Reindexing
  | [], s => some s
  | nFile :: nFiles, s => (s.loadExternalBlockFile l nFile).1.bind (loadFiles nFiles)

/-! ## What the functions do -/

theorem readParked_fromDisk (s : Reindexing) (pos : Nat × Nat) :
    (s.readParked l pos).map Subtype.val =
      readBlockFromDisk l.env (s.store.contents pos.1) pos.2 := by
  rw [readParked, readBlockFromDisk, readBlock]
  split
  · rename_i none
    split at none
    · cases none
    · rename_i failed
      rw [failed]
      rfl
  · rename_i block found
    split at found
    · rename_i block' rest read
      cases found
      simp only [read, Option.bind_eq_bind, Option.bind_some]
      split <;> rfl
    · cases found

/-- What a call of `ProcessNewBlock` that returns has done; `accepted` is the result of
`AcceptBlock`. -/
structure Processes (block : TypedBlock) (dbp : Nat × Nat) (s s' : Reindexing) (result : Processed)
    (accepted : AcceptResult) : Prop where
  records : DataStore.Records (l.hash block) dbp s.store s'.store accepted
  outcome : result = .refused ↔ accepted = .refused
  refused : ∀ other ∈ s.refused, other ∈ s'.refused
  noted : result = .refused → s.Placed l block → block.1 ∈ s'.refused
  fails : ∀ isError, result = .failed isError → s'.failed = true

/-- The block passes `CheckBlock`, and its header `AcceptBlockHeader`. -/
structure Passes (s : Reindexing) (block : TypedBlock) (dbp : Nat × Nat) : Prop where
  check : (checkBlock { l.env with adjustedTime := (l.trial s.calls).adjustedTime } block.1 true
    true).toBool = true
  header : DataStore.HeaderPasses l.w s.store.chain
    (((l.trial s.calls).call block dbp).offered l.env)

instance (s : Reindexing) (block : TypedBlock) (dbp : Nat × Nat) : Decidable (s.Passes l block dbp) :=
  decidable_of_iff (_ ∧ _) ⟨fun both => ⟨both.1, both.2⟩, fun passes => ⟨passes.check, passes.header⟩⟩

theorem activateBestChain_processes (block : TypedBlock) (dbp : Nat × Nat) (s s' : Reindexing)
    (store : DataStore) (result : Processed) (accepted : AcceptResult)
    (accepts : accepted ≠ .refused)
    (records : DataStore.Records (l.hash block) dbp s.store store accepted)
    (returned : s.activateBestChain l store = some (s', result)) :
    Processes l block dbp s s' result accepted ∧ store.chain.known = s'.store.chain.known := by
  rw [activateBestChain] at returned
  cases activated : store.chain.activateBestChain l.w l.fuel with
  | none =>
      rw [activated] at returned
      cases returned
  | some value =>
      obtain ⟨chain, active⟩ := value
      have same := activate_records l.w l.fuel store.chain chain active activated
      have moved := DataStore.records_after _ _ s.store store
        (store.activated chain (l.trial s.calls).fCheckForPruning) _ rfl same.known
        (DataStore.getBlockPos_records _ _ same rfl) records
      rw [activated] at returned
      cases active with
      | false =>
          cases returned
          exact ⟨{
            records := moved
            outcome := ⟨(nomatch ·), fun refused => absurd refused accepts⟩
            refused := fun _ member => member
            noted := fun other => nomatch other
            fails := fun _ _ => rfl }, same.known.symm⟩
      | true =>
          cases returned
          exact ⟨{
            records := moved
            outcome := ⟨(nomatch ·), fun refused => absurd refused accepts⟩
            refused := fun _ member => member
            noted := fun other => nomatch other
            fails := fun _ other => nomatch other }, same.known.symm⟩

/-- A refused block changes what `AcceptBlock` has changed, and is noted. -/
theorem refuse_processes (block : TypedBlock) (dbp : Nat × Nat) (s : Reindexing)
    (store : DataStore) (records : DataStore.Records (l.hash block) dbp s.store store .refused) :
    Processes l block dbp s (s.refuse l block store) .refused .refused where
  records := records
  outcome := ⟨fun _ => rfl, fun _ => rfl⟩
  refused other member := by
    rw [refuse]
    dsimp only
    split
    · exact List.mem_cons_of_mem _ member
    · exact member
  noted _ placed := by
    rw [refuse, if_pos placed]
    exact List.mem_cons_self
  fails _ other := nomatch other

theorem processNewBlock_processes (s s' : Reindexing) (block : TypedBlock) (dbp : Nat × Nat)
    (result : Processed) (reindex : l.config.fReindex = true)
    (whole : ∀ p place, s.store.getBlockPos p = some place → p ∈ s.store.chain.known)
    (returned : s.processNewBlock l block dbp = some (s', result)) :
    (∃ accepted, Processes l block dbp s s' result accepted) ∧
      (s.Passes l block dbp → l.hash block ∈ s'.store.chain.known) := by
  rw [processNewBlock] at returned
  dsimp only at returned
  cases checked : checkBlock { l.env with adjustedTime := (l.trial s.calls).adjustedTime } block.1
    true true with
  | error failure =>
      rw [checked] at returned
      cases returned
      refine ⟨⟨.refused, refuse_processes l block dbp s s.store
        (DataStore.records_same _ _ _ _ rfl (fun _ member => member) rfl whole)⟩, fun passes => ?_⟩
      have passed := passes.check
      rw [checked] at passed
      cases passed
  | ok done =>
      rw [checked] at returned
      dsimp only at returned
      obtain ⟨records, headed⟩ := DataStore.acceptBlock_records l.w l.env l.config
        (BitVec.ofNat 32 (readLE l.network.messageStart)) reindex ((l.trial s.calls).call block dbp)
        dbp rfl rfl s.store whole
      have known := fun passes : s.Passes l block dbp => headed _
        (DataStore.passing_header_known l.w l.env ((l.trial s.calls).call block dbp) s.store
          passes.header)
      generalize s.store.acceptBlock l.w l.env l.config
        (BitVec.ofNat 32 (readLE l.network.messageStart)) ((l.trial s.calls).call block dbp) =
          outcome at returned records known
      obtain ⟨store, accepted⟩ := outcome
      by_cases refused : accepted = .refused
      · subst refused
        cases returned
        exact ⟨⟨.refused, refuse_processes l block dbp s store records⟩, known⟩
      · have goes : s.activateBestChain l store = some (s', result) := by
          cases accepted with
          | refused => exact absurd rfl refused
          | passedOver => exact returned
          | stored => exact returned
        obtain ⟨processes, same⟩ := activateBestChain_processes l block dbp s s' store result
          accepted refused records goes
        refine ⟨⟨accepted, processes⟩, fun passes => ?_⟩
        rw [← same]
        exact known passes

/-! ## The queue ends -/

theorem activateBestChain_parked (s s' : Reindexing) (store : DataStore) (result : Processed)
    (returned : s.activateBestChain l store = some (s', result)) :
    s'.mapBlocksUnknownParent = s.mapBlocksUnknownParent ∧ (s.failed = true → s'.failed = true) := by
  rw [activateBestChain] at returned
  split at returned <;> cases returned
  · exact ⟨rfl, fun _ => rfl⟩
  · exact ⟨rfl, id⟩

theorem processNewBlock_parked (s s' : Reindexing) (block : TypedBlock) (dbp : Nat × Nat)
    (result : Processed) (returned : s.processNewBlock l block dbp = some (s', result)) :
    s'.mapBlocksUnknownParent = s.mapBlocksUnknownParent ∧ (s.failed = true → s'.failed = true) := by
  rw [processNewBlock] at returned
  dsimp only at returned
  split at returned
  · cases returned
    exact ⟨rfl, id⟩
  · split at returned
    · cases returned
      exact ⟨rfl, id⟩
    · exact activateBestChain_parked l s s' _ result returned

theorem replayOne_parked (s s' : Reindexing) (queue queue' : List Uint256)
    (it : Uint256 × (Nat × Nat)) (returned : s.replayOne l queue it = some (s', queue')) :
    s'.mapBlocksUnknownParent = s.mapBlocksUnknownParent ∧ queue'.length ≤ queue.length + 1 := by
  rw [replayOne] at returned
  split at returned
  · cases returned
    exact ⟨rfl, Nat.le_succ _⟩
  · rename_i block read
    cases step : s.processNewBlock l block it.2 with
    | none =>
        rw [step] at returned
        cases returned
    | some value =>
        obtain ⟨s₁, result⟩ := value
        have parked := (processNewBlock_parked l s s₁ block it.2 result step).1
        rw [step] at returned
        cases result with
        | done =>
            cases returned
            exact ⟨parked, by simp⟩
        | refused =>
            cases returned
            exact ⟨parked, Nat.le_succ _⟩
        | failed isError =>
            cases returned
            exact ⟨parked, Nat.le_succ _⟩

theorem replayRange_parked (range : List (Uint256 × (Nat × Nat))) (s s' : Reindexing)
    (queue queue' : List Uint256) (returned : replayRange l range s queue = some (s', queue')) :
    s'.mapBlocksUnknownParent = s.mapBlocksUnknownParent.diff range ∧
      queue'.length ≤ queue.length + range.length := by
  induction range generalizing s queue with
  | nil =>
      cases returned
      exact ⟨rfl, Nat.le_refl _⟩
  | cons it range ih =>
      rw [replayRange] at returned
      cases step : s.replayOne l queue it with
      | none =>
          rw [step] at returned
          cases returned
      | some value =>
          obtain ⟨s₁, queue₁⟩ := value
          obtain ⟨parked, short⟩ := replayOne_parked l s s₁ queue queue₁ it step
          rw [step] at returned
          obtain ⟨left, pushed⟩ := ih (s₁.erase it) queue₁ returned
          rw [List.length_cons, List.diff_cons]
          refine ⟨?_, by omega⟩
          rw [left, erase, parked]

/-- What is left of a list without one of its ranges. -/
theorem diff_range (entries : List (Uint256 × (Nat × Nat))) (head : Uint256) :
    entries.diff (entries.filter fun it => it.1 = head) =
      entries.filter fun it => it.1 ≠ head := by
  induction entries with
  | nil => rfl
  | cons it entries ih =>
      by_cases same : it.1 = head
      · have inside : (it :: entries).filter (fun it => it.1 = head) =
            it :: entries.filter fun it => it.1 = head := List.filter_cons_of_pos (by simpa using same)
        have outside : (it :: entries).filter (fun it => it.1 ≠ head) =
            entries.filter fun it => it.1 ≠ head := List.filter_cons_of_neg (by simpa using same)
        rw [inside, outside, List.diff_cons, List.erase_cons_head]
        exact ih
      · have inside : (it :: entries).filter (fun it => it.1 = head) =
            entries.filter fun it => it.1 = head := List.filter_cons_of_neg (by simpa using same)
        have outside : (it :: entries).filter (fun it => it.1 ≠ head) =
            it :: entries.filter fun it => it.1 ≠ head :=
          List.filter_cons_of_pos (by simpa using same)
        have apart : it ∉ entries.filter fun it => it.1 = head := by
          intro member
          exact same (by simpa using (List.mem_filter.mp member).2)
        rw [inside, outside, List.cons_diff_of_not_mem apart, ih]

/-- A turn over the queue takes the whole range out of the multimap. -/
theorem replayRange_left (s s' : Reindexing) (head : Uint256) (queue queue' : List Uint256)
    (returned : replayRange l (s.range head) s queue = some (s', queue')) :
    s'.mapBlocksUnknownParent = s.mapBlocksUnknownParent.filter (fun it => it.1 ≠ head) ∧
      s'.mapBlocksUnknownParent.length + queue'.length ≤
        s.mapBlocksUnknownParent.length + queue.length := by
  obtain ⟨left, pushed⟩ := replayRange_parked l _ s s' queue queue' returned
  rw [range, diff_range] at left
  refine ⟨left, ?_⟩
  have whole := List.length_eq_length_filter_add (l := s.mapBlocksUnknownParent)
    fun it => decide (it.1 = head)
  have others : (s.mapBlocksUnknownParent.filter fun it => !decide (it.1 = head)) =
      s.mapBlocksUnknownParent.filter fun it => it.1 ≠ head := by
    congr 1
    funext it
    simp
  rw [others] at whole
  rw [range] at pushed
  rw [left]
  omega

/-- The queue is empty before the turns are used up: more of them make no difference. -/
theorem replayQueue_enough (fuel : Nat) (s : Reindexing) (queue : List Uint256)
    (enough : s.mapBlocksUnknownParent.length + queue.length < fuel) :
    replayQueue l (fuel + 1) s queue = replayQueue l fuel s queue := by
  induction fuel generalizing s queue with
  | zero => omega
  | succ fuel ih =>
      cases queue with
      | nil => rfl
      | cons head queue =>
          rw [replayQueue, replayQueue]
          cases step : replayRange l (s.range head) s queue with
          | none => rfl
          | some value =>
              obtain ⟨s₁, queue₁⟩ := value
              have left := (replayRange_left l s s₁ head queue queue₁ step).2
              rw [List.length_cons] at enough
              exact ih s₁ queue₁ (by omega)

/-- So the loop over the queue ends. -/
theorem replay_ends (s : Reindexing) (hash : Uint256) (more : Nat) :
    replayQueue l (s.mapBlocksUnknownParent.length + 2 + more) s [hash] = s.replay l hash := by
  induction more with
  | zero => rfl
  | succ more ih =>
      rw [← ih, ← Nat.add_assoc]
      exact replayQueue_enough l _ s [hash] (by rw [List.length_singleton]; omega)

end Reindexing

end RoiCoin
