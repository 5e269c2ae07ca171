import RoiCoin.Validation.LoadBlocks

/-! The order of the blocks in the files makes no difference to a node that reindexes.

A block is parked as long as there is no data for its parent, or its parent waits in the queue. -/

namespace RoiCoin

open ChainState Codec

/-- The records of a file, and what lies behind the last one. -/
structure BlockFile (network : Network) where
  records : List (BlockRecord network)
  padding : Bytes
  clear : ¬ network.messageStart <:+: padding

namespace BlockFile

variable {network : Network}

def bytes (file : BlockFile network) : Bytes := fileBytes file.padding file.records

/-- The blocks with their positions. -/
def blocks (file : BlockFile network) : List (TypedBlock × Nat) := placed 0 file.records

end BlockFile

/-- What is read at the position of a block is the block. -/
theorem placed_read {network : Network} (content padding : Bytes)
    (records : List (BlockRecord network)) (offset : Nat)
    (left : content.drop offset = fileBytes padding records) (block : TypedBlock) (nPos : Nat)
    (member : (block, nPos) ∈ placed offset records) :
    readBlock (content.drop nPos) = some block ∧
      (content.drop nPos).take block.1.write.length = block.1.write := by
  induction records generalizing offset with
  | nil => cases member
  | cons record records ih =>
      have behind : content.drop (offset + record.padding.length) =
          record.bytes ++ fileBytes padding records := by
        rw [← List.drop_drop, left, fileBytes, List.drop_left]
      have there := record_at content record _ _ behind
      rw [placed, List.mem_cons] at member
      rcases member with here | later
      · cases here
        refine ⟨?_, there.block⟩
        have whole := List.take_append_drop record.block.1.write.length
          (content.drop (offset + record.padding.length + 8))
        have read := reads_block record.block.1 record.block.2
          (small_sized record.block.1 record.small)
          ((content.drop (offset + record.padding.length + 8)).drop record.block.1.write.length)
        rw [there.block] at whole
        rw [whole] at read
        exact CBufferedFile.readBlock_some _ _ record.block read
      · exact ih _ there.next later

namespace Reindexing

variable (l : Loading) (files : Nat → BlockFile l.network)

/-- A block lies in a file. -/
def Lies (nFile : Nat) (block : TypedBlock) (nPos : Nat) : Prop :=
  (block, nPos) ∈ (files nFile).blocks

/-! ## The invariant -/

/-- The blocks that were seen are stored, parked or refused; `queue` holds the blocks whose parked
children are still to be replayed. -/
structure Keeps (seen : List (Nat × TypedBlock × Nat)) (queue : List Uint256) (s : Reindexing) :
    Prop where
  contents : ∀ nFile, s.store.contents nFile = (files nFile).bytes
  known : ∀ p place, s.store.getBlockPos p = some place → p ∈ s.store.chain.known
  recorded : ∀ p place, s.store.getBlockPos p = some place →
    ∃ block, Lies l files place.1 block place.2 ∧ l.hash block = p
  parked : ∀ it ∈ s.mapBlocksUnknownParent, ∃ block, Lies l files it.2.1 block it.2.2 ∧
    block.1.header.hashPrevBlock = it.1
  awaited : ∀ it ∈ s.mapBlocksUnknownParent, s.store.getBlockPos it.1 ≠ none → it.1 ∈ queue
  queued : ∀ head ∈ queue, s.range head ≠ [] → head ∈ s.store.chain.known
  accounted : ∀ nFile block nPos, (nFile, block, nPos) ∈ seen →
    Lies l files nFile block nPos ∧
      (readBlockFromDiskPow l.env.blockHash l.env.params block.1.header = true →
        s.store.getBlockPos (l.hash block) ≠ none ∨ block.1 ∈ s.refused ∨
          l.hash block ≠ l.w.hashGenesisBlock ∧
            (block.1.header.hashPrevBlock, nFile, nPos) ∈ s.mapBlocksUnknownParent)

variable {l files}

/-- A parked block is read back. -/
theorem readParked_lies (s : Reindexing)
    (contents : ∀ nFile, s.store.contents nFile = (files nFile).bytes) (nFile : Nat)
    (block : TypedBlock) (nPos : Nat) (lies : Lies l files nFile block nPos) :
    s.readParked l (nFile, nPos) =
      if readBlockFromDiskPow l.env.blockHash l.env.params block.1.header then some block
      else none := by
  have read := (placed_read (s.store.contents nFile) (files nFile).padding (files nFile).records 0
    (contents nFile) block nPos lies).1
  rw [readParked, read]

/-- `ProcessNewBlock` on a block of the files. -/
theorem keeps_process (seen : List (Nat × TypedBlock × Nat)) (queue queue' : List Uint256)
    (s s' : Reindexing) (block : TypedBlock) (nFile nPos : Nat) (result : Processed)
    (accepted : AcceptResult) (keeps : Keeps l files seen queue s)
    (lies : Lies l files nFile block nPos)
    (processes : Processes l block (nFile, nPos) s s' result accepted)
    (parked : s'.mapBlocksUnknownParent = s.mapBlocksUnknownParent) (sane : s'.failed = false)
    (more : ∀ head ∈ queue, head ∈ queue')
    (pushed : result = .done → l.hash block ∈ queue')
    (queued : ∀ head ∈ queue', s.range head ≠ [] → head ∈ s'.store.chain.known) :
    Keeps l files seen queue' s' := by
  have records := processes.records
  constructor
  case contents =>
    rw [records.contents]
    exact keeps.contents
  case known =>
    intro p place there
    rcases records.new p place there with old | ⟨same, -, -⟩
    · exact records.known p (keeps.known p place old)
    · rw [same] at there ⊢
      exact records.own place there
  case recorded =>
    intro p place there
    rcases records.new p place there with old | ⟨same, here, -⟩
    · exact keeps.recorded p place old
    · rw [here, same]
      exact ⟨block, lies, rfl⟩
  case parked =>
    rw [parked]
    exact keeps.parked
  case awaited =>
    rw [parked]
    intro it member data
    obtain ⟨place, there⟩ := Option.ne_none_iff_exists'.mp data
    rcases records.new it.1 place there with old | ⟨same, -, stored⟩
    · exact more _ (keeps.awaited it member (by rw [old]; exact Option.some_ne_none _))
    · rw [same]
      apply pushed
      cases result with
      | done => rfl
      | refused =>
          rw [processes.outcome.mp rfl] at stored
          cases stored
      | failed isError =>
          rw [processes.fails isError rfl] at sane
          cases sane
  case queued =>
    intro head member some
    rw [range, parked] at some
    exact queued head member some
  case accounted =>
    intro nFile' block' nPos' member
    obtain ⟨lies', account⟩ := keeps.accounted nFile' block' nPos' member
    refine ⟨lies', fun pow => ?_⟩
    rw [parked]
    rcases account pow with data | refused | waits
    · obtain ⟨place, there⟩ := Option.ne_none_iff_exists'.mp data
      exact .inl (by rw [records.kept _ place there]; exact Option.some_ne_none _)
    · exact .inr (.inl (processes.refused _ refused))
    · exact .inr (.inr waits)

/-- A block that was processed is stored or refused. -/
theorem process_accounts (s s' : Reindexing) (block : TypedBlock) (dbp : Nat × Nat)
    (result : Processed) (accepted : AcceptResult)
    (processes : Processes l block dbp s s' result accepted) (placed : s.Placed l block) :
    s'.store.getBlockPos (l.hash block) ≠ none ∨ block.1 ∈ s'.refused := by
  by_cases refused : result = .refused
  · exact .inr (processes.noted refused placed)
  · exact .inl (processes.records.done fun other => refused (processes.outcome.mpr other))

/-- An entry is erased that is accounted for. -/
theorem keeps_erase (seen : List (Nat × TypedBlock × Nat)) (queue : List Uint256) (s : Reindexing)
    (it : Uint256 × (Nat × Nat)) (keeps : Keeps l files seen queue s)
    (settled : ∀ block, Lies l files it.2.1 block it.2.2 →
      readBlockFromDiskPow l.env.blockHash l.env.params block.1.header = true →
        s.store.getBlockPos (l.hash block) ≠ none ∨ block.1 ∈ s.refused) :
    Keeps l files seen queue (s.erase it) where
  contents := keeps.contents
  known := keeps.known
  recorded := keeps.recorded
  parked other member := keeps.parked other (List.mem_of_mem_erase member)
  awaited other member := keeps.awaited other (List.mem_of_mem_erase member)
  queued head member some := by
    refine keeps.queued head member fun none => some ?_
    have fewer := (List.erase_sublist (a := it) (l := s.mapBlocksUnknownParent)).filter
      fun it => decide (it.1 = head)
    rw [range] at none
    rw [none] at fewer
    exact List.sublist_nil.mp fewer
  accounted nFile block nPos member := by
    obtain ⟨lies, account⟩ := keeps.accounted nFile block nPos member
    refine ⟨lies, fun pow => ?_⟩
    rcases account pow with data | refused | ⟨apart, waits⟩
    · exact .inl data
    · exact .inr (.inl refused)
    · by_cases same : (block.1.header.hashPrevBlock, nFile, nPos) = it
      · rcases settled block (by rw [← same]; exact lies) pow with data | refused
        · exact .inl data
        · exact .inr (.inl refused)
      · exact .inr (.inr ⟨apart, (List.mem_erase_of_ne same).mpr waits⟩)

/-! ## The queue -/

/-- An entry of the multimap: the position of a block under its parent. -/
def Parks (l : Loading) (files : Nat → BlockFile l.network) (it : Uint256 × (Nat × Nat)) : Prop :=
  ∃ block, Lies l files it.2.1 block it.2.2 ∧ block.1.header.hashPrevBlock = it.1

theorem keeps_replayOne (seen : List (Nat × TypedBlock × Nat)) (head : Uint256)
    (queue queue' : List Uint256) (s s' : Reindexing) (it : Uint256 × (Nat × Nat))
    (reindex : l.config.fReindex = true) (keeps : Keeps l files seen (head :: queue) s)
    (parks : Parks l files it) (own : it.1 = head) (known : head ∈ s.store.chain.known)
    (returned : s.replayOne l queue it = some (s', queue')) (sane : s'.failed = false) :
    Keeps l files seen (head :: queue') (s'.erase it) ∧ head ∈ s'.store.chain.known := by
  obtain ⟨block, lies, link⟩ := parks
  have read := readParked_lies s keeps.contents it.2.1 block it.2.2 lies
  have only : ∀ other, Lies l files it.2.1 other it.2.2 → other = block := by
    intro other lies'
    have there := (placed_read (s.store.contents it.2.1) (files it.2.1).padding
      (files it.2.1).records 0 (keeps.contents it.2.1) block it.2.2 lies).1
    have again := (placed_read (s.store.contents it.2.1) (files it.2.1).padding
      (files it.2.1).records 0 (keeps.contents it.2.1) other it.2.2 lies').1
    rw [there] at again
    exact (Option.some.inj again).symm
  rw [replayOne, read] at returned
  by_cases pow : readBlockFromDiskPow l.env.blockHash l.env.params block.1.header = true
  · rw [if_pos pow] at returned
    dsimp only at returned
    cases step : s.processNewBlock l block it.2 with
    | none =>
        rw [step] at returned
        cases returned
    | some value =>
        obtain ⟨s₁, result⟩ := value
        obtain ⟨⟨accepted, processes⟩, -⟩ := processNewBlock_processes l s s₁ block it.2 result
          reindex keeps.known step
        have parked := (processNewBlock_parked l s s₁ block it.2 result step).1
        have placed : s.Placed l block := .inr (by rw [link, own]; exact known)
        have accounts := process_accounts s s₁ block it.2 result accepted processes placed
        have grows := processes.records.known
        rw [step] at returned
        have next : s' = s₁ ∧ (∀ q ∈ queue, q ∈ queue') ∧
            (result = .done → l.hash block ∈ queue') ∧
            ∀ q ∈ queue', q ∈ queue ∨ result = .done ∧ q = l.hash block := by
          cases result with
          | done =>
              cases returned
              refine ⟨rfl, fun q member => List.mem_append_left _ member,
                fun _ => List.mem_append_right _ (List.mem_singleton_self _), fun q member => ?_⟩
              rcases List.mem_append.mp member with old | new
              · exact .inl old
              · exact .inr ⟨rfl, List.mem_singleton.mp new⟩
          | refused =>
              cases returned
              exact ⟨rfl, fun _ member => member, by simp, fun _ member => .inl member⟩
          | failed isError =>
              cases returned
              exact ⟨rfl, fun _ member => member, by simp, fun _ member => .inl member⟩
        obtain ⟨rfl, more, pushed, only_pushed⟩ := next
        have kept := keeps_process seen (head :: queue) (head :: queue') s s' block it.2.1 it.2.2
          result accepted keeps lies processes parked sane
          (by
            intro q member
            rcases List.mem_cons.mp member with same | old
            · rw [same]
              exact List.mem_cons_self
            · exact List.mem_cons_of_mem _ (more q old))
          (fun done => List.mem_cons_of_mem _ (pushed done))
          (by
            intro q member some
            rcases List.mem_cons.mp member with same | behind
            · rw [same]
              exact grows head known
            · rcases only_pushed q behind with old | ⟨done, same⟩
              · exact grows q (keeps.queued q (List.mem_cons_of_mem _ old) some)
              · have stored : s'.store.getBlockPos (l.hash block) ≠ none :=
                  processes.records.done fun refused => by
                    rw [processes.outcome.mpr refused] at done
                    cases done
                obtain ⟨place, there⟩ := Option.ne_none_iff_exists'.mp stored
                rw [same]
                exact processes.records.own place there)
        refine ⟨keeps_erase seen _ s' it kept ?_, grows head known⟩
        intro other lies' _
        rw [only other lies']
        exact accounts
  · rw [if_neg pow] at returned
    cases returned
    refine ⟨keeps_erase seen _ s it keeps ?_, known⟩
    intro other lies' sound
    rw [only other lies'] at sound
    exact absurd sound pow

/-- Once `ActivateBestChain` has failed, this stays noted. -/
theorem replayOne_failed (queue queue' : List Uint256) (s s' : Reindexing)
    (it : Uint256 × (Nat × Nat)) (returned : s.replayOne l queue it = some (s', queue'))
    (failed : s.failed = true) : s'.failed = true := by
  rw [replayOne] at returned
  split at returned
  · cases returned
    exact failed
  · rename_i block read
    cases step : s.processNewBlock l block it.2 with
    | none =>
        rw [step] at returned
        cases returned
    | some value =>
        obtain ⟨s₁, result⟩ := value
        have sticks := (processNewBlock_parked l s s₁ block it.2 result step).2 failed
        rw [step] at returned
        cases result <;> cases returned <;> exact sticks

theorem replayRange_failed (range : List (Uint256 × (Nat × Nat))) (queue queue' : List Uint256)
    (s s' : Reindexing) (returned : replayRange l range s queue = some (s', queue'))
    (failed : s.failed = true) : s'.failed = true := by
  induction range generalizing s queue with
  | nil =>
      cases returned
      exact failed
  | cons it range ih =>
      rw [replayRange] at returned
      cases step : s.replayOne l queue it with
      | none =>
          rw [step] at returned
          cases returned
      | some value =>
          obtain ⟨s₁, queue₁⟩ := value
          rw [step] at returned
          exact ih queue₁ (s₁.erase it) returned (replayOne_failed queue queue₁ s s₁ it step failed)

theorem replayQueue_failed (fuel : Nat) (s s' : Reindexing) (queue : List Uint256)
    (returned : replayQueue l fuel s queue = some s') (failed : s.failed = true) :
    s'.failed = true := by
  induction fuel generalizing s queue with
  | zero => cases returned
  | succ fuel ih =>
      cases queue with
      | nil =>
          cases returned
          exact failed
      | cons head queue =>
          rw [replayQueue] at returned
          cases step : replayRange l (s.range head) s queue with
          | none =>
              rw [step] at returned
              cases returned
          | some value =>
              obtain ⟨s₁, queue₁⟩ := value
              rw [step] at returned
              exact ih s₁ queue₁ returned (replayRange_failed _ queue queue₁ s s₁ step failed)

theorem keeps_replayRange (seen : List (Nat × TypedBlock × Nat)) (head : Uint256)
    (range : List (Uint256 × (Nat × Nat))) (queue queue' : List Uint256) (s s' : Reindexing)
    (reindex : l.config.fReindex = true) (keeps : Keeps l files seen (head :: queue) s)
    (parks : ∀ it ∈ range, Parks l files it ∧ it.1 = head)
    (known : range ≠ [] → head ∈ s.store.chain.known)
    (returned : replayRange l range s queue = some (s', queue')) (sane : s'.failed = false) :
    Keeps l files seen (head :: queue') s' := by
  induction range generalizing s queue with
  | nil =>
      cases returned
      exact keeps
  | cons it range ih =>
      rw [replayRange] at returned
      cases step : s.replayOne l queue it with
      | none =>
          rw [step] at returned
          cases returned
      | some value =>
          obtain ⟨s₁, queue₁⟩ := value
          rw [step] at returned
          have sane₁ : s₁.failed = false := by
            cases bad : s₁.failed with
            | false => rfl
            | true =>
                have sticks := replayRange_failed range queue₁ queue' (s₁.erase it) s' returned bad
                rw [sticks] at sane
                cases sane
          obtain ⟨parks_it, own⟩ := parks it List.mem_cons_self
          obtain ⟨kept, known'⟩ := keeps_replayOne seen head queue queue₁ s s₁ it reindex keeps
            parks_it own (known (List.cons_ne_nil _ _)) step sane₁
          exact ih queue₁ (s₁.erase it) kept
            (fun other member => parks other (List.mem_cons_of_mem _ member)) (fun _ => known')
            returned

/-- The queue runs empty, and what is left in the multimap waits for a parent without data. -/
theorem keeps_replayQueue (seen : List (Nat × TypedBlock × Nat)) (fuel : Nat)
    (queue : List Uint256) (s s' : Reindexing) (reindex : l.config.fReindex = true)
    (keeps : Keeps l files seen queue s) (returned : replayQueue l fuel s queue = some s')
    (sane : s'.failed = false) : Keeps l files seen [] s' := by
  induction fuel generalizing s queue with
  | zero => cases returned
  | succ fuel ih =>
      cases queue with
      | nil =>
          cases returned
          exact keeps
      | cons head queue =>
          rw [replayQueue] at returned
          cases step : replayRange l (s.range head) s queue with
          | none =>
              rw [step] at returned
              cases returned
          | some value =>
              obtain ⟨s₁, queue₁⟩ := value
              rw [step] at returned
              have sane₁ : s₁.failed = false := by
                cases bad : s₁.failed with
                | false => rfl
                | true =>
                    have sticks := replayQueue_failed fuel s₁ s' queue₁ returned bad
                    rw [sticks] at sane
                    cases sane
              have left := (replayRange_left l s s₁ head queue queue₁ step).1
              have kept := keeps_replayRange seen head (s.range head) queue queue₁ s s₁ reindex
                keeps
                (by
                  intro it member
                  obtain ⟨there, own⟩ := List.mem_filter.mp member
                  exact ⟨keeps.parked it there, of_decide_eq_true own⟩)
                (keeps.queued head List.mem_cons_self) step sane₁
              refine ih queue₁ s₁ ?_ returned
              refine { kept with awaited := ?_, queued := ?_ }
              · intro it member data
                rcases List.mem_cons.mp (kept.awaited it member data) with same | waits
                · rw [left] at member
                  exact absurd same (of_decide_eq_true (List.mem_filter.mp member).2)
                · exact waits
              · exact fun q member => kept.queued q (List.mem_cons_of_mem _ member)

/-! ## A record -/

theorem keeps_see (seen : List (Nat × TypedBlock × Nat)) (queue : List Uint256) (s : Reindexing)
    (nFile : Nat) (block : TypedBlock) (nPos : Nat) (keeps : Keeps l files seen queue s)
    (lies : Lies l files nFile block nPos)
    (account : readBlockFromDiskPow l.env.blockHash l.env.params block.1.header = true →
      s.store.getBlockPos (l.hash block) ≠ none ∨ block.1 ∈ s.refused ∨
        l.hash block ≠ l.w.hashGenesisBlock ∧
          (block.1.header.hashPrevBlock, nFile, nPos) ∈ s.mapBlocksUnknownParent) :
    Keeps l files (seen ++ [(nFile, block, nPos)]) queue s := by
  refine { keeps with accounted := ?_ }
  intro nFile' block' nPos' member
  rcases List.mem_append.mp member with old | new
  · exact keeps.accounted nFile' block' nPos' old
  · cases List.mem_singleton.mp new
    exact ⟨lies, account⟩

theorem keeps_park (seen : List (Nat × TypedBlock × Nat)) (s : Reindexing) (nFile : Nat)
    (block : TypedBlock) (nPos : Nat) (keeps : Keeps l files seen [] s)
    (lies : Lies l files nFile block nPos) (early : ¬ s.Placed l block) :
    Keeps l files (seen ++ [(nFile, block, nPos)]) [] { s with
      mapBlocksUnknownParent :=
        s.mapBlocksUnknownParent ++ [(block.1.header.hashPrevBlock, nFile, nPos)] } := by
  rw [Placed, not_or] at early
  apply keeps_see
  case lies => exact lies
  case account =>
    exact fun _ => .inr (.inr ⟨early.1, List.mem_append_right _ (List.mem_singleton_self _)⟩)
  case keeps =>
    constructor
    case contents => exact keeps.contents
    case known => exact keeps.known
    case recorded => exact keeps.recorded
    case parked =>
      intro it member
      rcases List.mem_append.mp member with old | new
      · exact keeps.parked it old
      · rw [List.mem_singleton.mp new]
        exact ⟨block, lies, rfl⟩
    case awaited =>
      intro it member data
      rcases List.mem_append.mp member with old | new
      · exact keeps.awaited it old data
      · rw [List.mem_singleton.mp new] at data
        obtain ⟨place, there⟩ := Option.ne_none_iff_exists'.mp data
        exact absurd (keeps.known _ place there) early.2
    case queued => exact fun _ member => nomatch member
    case accounted =>
      intro nFile' block' nPos' member
      obtain ⟨lies', account⟩ := keeps.accounted nFile' block' nPos' member
      refine ⟨lies', fun pow => ?_⟩
      rcases account pow with data | refused | ⟨apart, waits⟩
      · exact .inl data
      · exact .inr (.inl refused)
      · exact .inr (.inr ⟨apart, List.mem_append_left _ waits⟩)

/-- What a record must meet when the loop comes to it: its position fits `nPos`, and if blocks
are parked under it, its header gets into the index. -/
structure Suits (l : Loading) (s : Reindexing) (nFile : Nat) (block : TypedBlock) (nBlockPos : Nat) :
    Prop where
  position : nBlockPos < 2 ^ 32
  passes : s.Placed l block → l.hash block ∉ s.store.chain.known → s.range (l.hash block) ≠ [] →
    s.Passes l block (nFile, nBlockPos)

instance (s : Reindexing) (nFile : Nat) (block : TypedBlock) (nBlockPos : Nat) :
    Decidable (s.Suits l nFile block nBlockPos) :=
  decidable_of_iff (nBlockPos < 2 ^ 32 ∧ (s.Placed l block →
      ¬ s.store.chain.known.contains (l.hash block) → s.range (l.hash block) ≠ [] →
        s.Passes l block (nFile, nBlockPos)))
    ⟨fun both => ⟨both.1, by simpa using both.2⟩,
      fun suits => ⟨suits.position, by simpa using suits.passes⟩⟩

theorem goOn_some (state : Option Reindexing) (s' : Reindexing) (stop : Bool)
    (returned : goOn state = (some s', stop)) : state = some s' ∧ stop = false := by
  cases state with
  | none => cases returned
  | some s =>
      cases returned
      exact ⟨rfl, rfl⟩

theorem importBlock_failed (nFile : Nat) (s s' : Reindexing) (block : TypedBlock) (nBlockPos : Nat)
    (stop : Bool) (returned : importBlock l nFile (some s) block nBlockPos = (some s', stop))
    (failed : s.failed = true) : s'.failed = true := by
  rw [importBlock] at returned
  split at returned
  · cases returned
    exact failed
  split at returned
  · cases step : s.processNewBlock l block (nFile, toUint32 nBlockPos) with
    | none =>
        rw [step] at returned
        cases returned
    | some value =>
        obtain ⟨s₁, result⟩ := value
        have sticks := (processNewBlock_parked l s s₁ block _ result step).2 failed
        rw [step] at returned
        rcases result with _ | (_ | _) | _
        · exact replayQueue_failed _ s₁ s' _ (goOn_some _ s' stop returned).1 sticks
        · exact replayQueue_failed _ s₁ s' _ (goOn_some _ s' stop returned).1 sticks
        · cases returned
          exact sticks
        · exact replayQueue_failed _ s₁ s' _ (goOn_some _ s' stop returned).1 sticks
  · exact replayQueue_failed _ s s' _ (goOn_some _ s' stop returned).1 failed

theorem keeps_importBlock (seen : List (Nat × TypedBlock × Nat)) (nFile : Nat) (s s' : Reindexing)
    (block : TypedBlock) (nBlockPos : Nat) (stop : Bool) (reindex : l.config.fReindex = true)
    (keeps : Keeps l files seen [] s) (lies : Lies l files nFile block nBlockPos)
    (suits : s.Suits l nFile block nBlockPos)
    (returned : importBlock l nFile (some s) block nBlockPos = (some s', stop))
    (sane : s'.failed = false) :
    stop = false ∧ Keeps l files (seen ++ [(nFile, block, nBlockPos)]) [] s' := by
  have position : toUint32 nBlockPos = nBlockPos := Nat.mod_eq_of_lt suits.position
  rw [importBlock, position] at returned
  split at returned
  · rename_i early
    cases returned
    exact ⟨rfl, keeps_park seen s nFile block nBlockPos keeps lies early⟩
  rename_i placed
  rw [not_not] at placed
  -- What is left to do once the block itself is accounted for.
  have rest : ∀ s₁ : Reindexing, goOn (s₁.replay l (l.hash block)) = (some s', stop) →
      (s₁.failed = false → Keeps l files seen [l.hash block] s₁ ∧
        (s₁.store.getBlockPos (l.hash block) ≠ none ∨ block.1 ∈ s₁.refused)) →
      stop = false ∧ Keeps l files (seen ++ [(nFile, block, nBlockPos)]) [] s' := by
    intro s₁ returned kept
    obtain ⟨replayed, goes⟩ := goOn_some _ s' stop returned
    rw [replay] at replayed
    have sane₁ : s₁.failed = false := by
      cases bad : s₁.failed with
      | false => rfl
      | true =>
          have sticks := replayQueue_failed _ s₁ s' _ replayed bad
          rw [sticks] at sane
          cases sane
    obtain ⟨kept, accounts⟩ := kept sane₁
    refine ⟨goes, ?_⟩
    apply keeps_replayQueue _ _ _ s₁ s' reindex _ replayed sane
    apply keeps_see seen _ s₁ nFile block nBlockPos kept lies
    intro _
    rcases accounts with data | refused
    · exact .inl data
    · exact .inr (.inl refused)
  split at returned
  · rename_i missing
    cases step : s.processNewBlock l block (nFile, nBlockPos) with
    | none =>
        rw [step] at returned
        cases returned
    | some value =>
        obtain ⟨s₁, result⟩ := value
        obtain ⟨⟨accepted, processes⟩, header⟩ := processNewBlock_processes l s s₁ block
          (nFile, nBlockPos) result reindex keeps.known step
        have parked := (processNewBlock_parked l s s₁ block _ result step).1
        have kept : s₁.failed = false → Keeps l files seen [l.hash block] s₁ ∧
            (s₁.store.getBlockPos (l.hash block) ≠ none ∨ block.1 ∈ s₁.refused) := by
          intro sane₁
          refine ⟨?_, process_accounts s s₁ block _ result accepted processes placed⟩
          apply keeps_process seen [] [l.hash block] s s₁ block nFile nBlockPos result accepted keeps
            lies processes parked sane₁ (fun _ h => by cases h)
            (fun _ => List.mem_singleton_self _)
          intro head member some
          rw [List.mem_singleton.mp member] at some ⊢
          by_cases old : l.hash block ∈ s.store.chain.known
          · exact processes.records.known _ old
          · exact header (suits.passes placed old some)
        rw [step] at returned
        rcases result with _ | (_ | _) | _
        · exact rest s₁ returned kept
        · exact rest s₁ returned kept
        · cases returned
          rw [processes.fails true rfl] at sane
          cases sane
        · exact rest s₁ returned kept
  · rename_i there
    rw [not_or, not_not, Bool.not_eq_false] at there
    apply rest s returned
    intro _
    have data : s.store.getBlockPos (l.hash block) ≠ none := by
      rw [DataStore.getBlockPos, if_pos there.2]
      exact Option.some_ne_none _
    refine ⟨{ keeps with awaited := ?_, queued := ?_ }, .inl data⟩
    · exact fun it member data' => by cases keeps.awaited it member data'
    · intro head member _
      rw [List.mem_singleton.mp member]
      exact List.contains_iff_mem.mp there.1

/-! ## The files -/

/-- Every record suits that the loop over a file comes to. -/
def Suited (l : Loading) (nFile : Nat) : List (TypedBlock × Nat) → Option Reindexing → Prop
  | [], _ => True
  | (block, nBlockPos) :: blocks, state =>
      (∀ s ∈ state, s.Suits l nFile block nBlockPos) ∧
        ((importBlock l nFile state block nBlockPos).2 = false →
          Suited l nFile blocks (importBlock l nFile state block nBlockPos).1)

instance decidableSuited (nFile : Nat) (blocks : List (TypedBlock × Nat))
    (state : Option Reindexing) : Decidable (Suited l nFile blocks state) :=
  match blocks with
  | [] => isTrue trivial
  | (block, nBlockPos) :: blocks =>
      have := decidableSuited nFile blocks (importBlock l nFile state block nBlockPos).1
      inferInstanceAs (Decidable ((∀ s ∈ state, s.Suits l nFile block nBlockPos) ∧ _))

/-- Every record suits in the files that are loaded. -/
def AllSuited (l : Loading) (files : Nat → BlockFile l.network) : List Nat → Reindexing → Prop
  | [], _ => True
  | nFile :: nFiles, s =>
      Suited l nFile (files nFile).blocks (some { s with nLoaded := 0 }) ∧
        ∀ s', (s.loadExternalBlockFile l nFile).1 = some s' → AllSuited l files nFiles s'

theorem visit_none (nFile : Nat) (blocks : List (TypedBlock × Nat)) :
    visit (importBlock l nFile) none blocks = none := by
  cases blocks with
  | nil => rfl
  | cons first blocks => rfl

theorem visit_failed (nFile : Nat) (blocks : List (TypedBlock × Nat)) (s s' : Reindexing)
    (returned : visit (importBlock l nFile) (some s) blocks = some s')
    (failed : s.failed = true) : s'.failed = true := by
  induction blocks generalizing s with
  | nil =>
      cases returned
      exact failed
  | cons first blocks ih =>
      obtain ⟨block, nBlockPos⟩ := first
      rw [visit] at returned
      generalize step : importBlock l nFile (some s) block nBlockPos = result at returned
      rcases result with ⟨_ | s₁, _ | _⟩
      · have nothing : none = some s' := (visit_none (l := l) nFile blocks).symm.trans returned
        cases nothing
      · cases returned
      · exact ih s₁ returned (importBlock_failed nFile s s₁ block nBlockPos false step failed)
      · cases returned
        exact importBlock_failed nFile s s' block nBlockPos true step failed

theorem keeps_visit (seen : List (Nat × TypedBlock × Nat)) (nFile : Nat)
    (blocks : List (TypedBlock × Nat)) (s s' : Reindexing) (reindex : l.config.fReindex = true)
    (keeps : Keeps l files seen [] s)
    (lie : ∀ block nPos, (block, nPos) ∈ blocks → Lies l files nFile block nPos)
    (suited : Suited l nFile blocks (some s))
    (returned : visit (importBlock l nFile) (some s) blocks = some s') (sane : s'.failed = false) :
    Keeps l files (seen ++ blocks.map fun found => (nFile, found)) [] s' := by
  induction blocks generalizing seen s with
  | nil =>
      cases returned
      rw [List.map_nil, List.append_nil]
      exact keeps
  | cons first blocks ih =>
      obtain ⟨block, nBlockPos⟩ := first
      obtain ⟨suits, next⟩ := suited
      have lies := lie block nBlockPos List.mem_cons_self
      rw [visit] at returned
      generalize step : importBlock l nFile (some s) block nBlockPos = result at returned
      rcases result with ⟨_ | s₁, _ | _⟩
      · have nothing : none = some s' := (visit_none (l := l) nFile blocks).symm.trans returned
        cases nothing
      · cases returned
      · have sane₁ : s₁.failed = false := by
          cases bad : s₁.failed with
          | false => rfl
          | true =>
              have sticks := visit_failed nFile blocks s₁ s' returned bad
              rw [sticks] at sane
              cases sane
        have kept := (keeps_importBlock seen nFile s s₁ block nBlockPos false reindex keeps lies
          (suits s rfl) step sane₁).2
        rw [step] at next
        have all := ih _ s₁ kept
          (fun block nPos member => lie block nPos (List.mem_cons_of_mem _ member))
          (next rfl) returned
        rwa [List.append_assoc, List.singleton_append] at all
      · cases returned
        have stops := (keeps_importBlock seen nFile s s' block nBlockPos true reindex keeps lies
          (suits s rfl) step sane).1
        cases stops

/-- The files as they are on the disk. -/
structure OnDisk (l : Loading) (files : Nat → BlockFile l.network) : Prop where
  steady : ∀ nFile n, 0 < l.chunk nFile n
  small : ∀ nFile, (files nFile).bytes.length < 2 ^ 63

theorem keeps_loadFile (seen : List (Nat × TypedBlock × Nat)) (nFile : Nat) (s s' : Reindexing)
    (reindex : l.config.fReindex = true) (disk : OnDisk l files) (keeps : Keeps l files seen [] s)
    (suited : Suited l nFile (files nFile).blocks (some { s with nLoaded := 0 }))
    (returned : (s.loadExternalBlockFile l nFile).1 = some s') (sane : s'.failed = false) :
    Keeps l files (seen ++ (files nFile).blocks.map fun found => (nFile, found)) [] s' := by
  have content := keeps.contents nFile
  have file : (l.source nFile (s.store.contents nFile)).content.length < 2 ^ 63 := by
    rw [Loading.source, content]
    exact disk.small nFile
  have scanned := BlockScan.scan_visits (l.reach nFile) (importBlock l nFile) file
    (disk.steady nFile) (files nFile).padding (files nFile).clear (files nFile).records content
    (some { s with nLoaded := 0 })
  rw [loadExternalBlockFile, scanned] at returned
  have begun : Keeps l files seen [] { s with nLoaded := 0 } := { keeps with }
  exact keeps_visit seen nFile (files nFile).blocks { s with nLoaded := 0 } s' reindex begun
    (fun _ _ member => member) suited returned sane

theorem loadFile_failed (nFile : Nat) (s s' : Reindexing)
    (returned : (s.loadExternalBlockFile l nFile).1 = some s') (failed : s.failed = true) :
    s'.failed = true := by
  have kept := BlockScan.loop_keeps (l.source nFile (s.store.contents nFile)) l.network.messageStart
    (l.reach nFile) (importBlock l nFile) (fun state => ∀ s, state = some s → s.failed = true)
    (by
      intro state block nBlockPos before s₁ after
      cases state with
      | none => cases after
      | some s₀ =>
          exact importBlock_failed nFile s₀ s₁ block nBlockPos
            (importBlock l nFile (some s₀) block nBlockPos).2 (Prod.ext after rfl)
            (before s₀ rfl))
    ((l.source nFile (s.store.contents nFile)).content.length + 1)
    (BlockScan.start (some { s with nLoaded := 0 }))
    (by
      intro s₀ same
      cases same
      exact failed)
  exact kept s' returned

theorem loadFiles_failed (nFiles : List Nat) (s s' : Reindexing)
    (returned : s.loadFiles l nFiles = some s') (failed : s.failed = true) : s'.failed = true := by
  induction nFiles generalizing s with
  | nil =>
      cases returned
      exact failed
  | cons nFile nFiles ih =>
      rw [loadFiles, Option.bind_eq_some_iff] at returned
      obtain ⟨s₁, step, rest⟩ := returned
      exact ih s₁ rest (loadFile_failed nFile s s₁ step failed)

theorem keeps_loadFiles (nFiles : List Nat) (seen : List (Nat × TypedBlock × Nat))
    (s s' : Reindexing) (reindex : l.config.fReindex = true) (disk : OnDisk l files)
    (keeps : Keeps l files seen [] s) (suited : AllSuited l files nFiles s)
    (returned : s.loadFiles l nFiles = some s') (sane : s'.failed = false) :
    Keeps l files (seen ++ nFiles.flatMap fun nFile =>
      (files nFile).blocks.map fun found => (nFile, found)) [] s' := by
  induction nFiles generalizing seen s with
  | nil =>
      cases returned
      rw [List.flatMap_nil, List.append_nil]
      exact keeps
  | cons nFile nFiles ih =>
      rw [loadFiles, Option.bind_eq_some_iff] at returned
      obtain ⟨s₁, step, rest⟩ := returned
      have sane₁ : s₁.failed = false := by
        cases bad : s₁.failed with
        | false => rfl
        | true =>
            have sticks := loadFiles_failed nFiles s₁ s' rest bad
            rw [sticks] at sane
            cases sane
      have kept := keeps_loadFile seen nFile s s₁ reindex disk keeps suited.1 step sane₁
      have all := ih _ s₁ kept (suited.2 s₁ step) rest
      rw [List.append_assoc] at all
      rw [List.flatMap_cons]
      exact all

/-! ## Every order -/

/-- Before the first file: nothing is known, and nothing parked. -/
structure Fresh (s : Reindexing) : Prop where
  known : s.store.chain.known = []
  data : ∀ p, s.store.getBlockPos p = none
  parked : s.mapBlocksUnknownParent = []

/-- A block in the files with all of its ancestors, back to the genesis block: their headers have
the proof of work, and none of them was refused. -/
inductive Connected (l : Loading) (files : Nat → BlockFile l.network) (nFiles : List Nat)
    (refused : List CBlock) : TypedBlock → Prop where
  | genesis (block : TypedBlock) (nFile nPos : Nat) (listed : nFile ∈ nFiles)
      (lies : Lies l files nFile block nPos)
      (pow : readBlockFromDiskPow l.env.blockHash l.env.params block.1.header = true)
      (passed : block.1 ∉ refused) (first : l.hash block = l.w.hashGenesisBlock) :
      Connected l files nFiles refused block
  | child (block parent : TypedBlock) (nFile nPos : Nat) (listed : nFile ∈ nFiles)
      (lies : Lies l files nFile block nPos)
      (pow : readBlockFromDiskPow l.env.blockHash l.env.params block.1.header = true)
      (passed : block.1 ∉ refused) (link : block.1.header.hashPrevBlock = l.hash parent)
      (below : Connected l files nFiles refused parent) :
      Connected l files nFiles refused block

/-- The block is in the index, with data recorded where a block of its hash lies. -/
def Stored (l : Loading) (s : Reindexing) (block : TypedBlock) : Prop :=
  l.hash block ∈ s.store.chain.known ∧
    ∃ nFile nPos, s.store.getBlockPos (l.hash block) = some (nFile, nPos) ∧
      ∃ found : TypedBlock, l.hash found = l.hash block ∧
        ((s.store.contents nFile).drop nPos).take found.1.write.length = found.1.write

theorem connected_data (nFiles : List Nat) (s : Reindexing)
    (keeps : Keeps l files (nFiles.flatMap fun nFile =>
      (files nFile).blocks.map fun found => (nFile, found)) [] s) (block : TypedBlock)
    (connected : Connected l files nFiles s.refused block) :
    s.store.getBlockPos (l.hash block) ≠ none := by
  have seen : ∀ nFile block nPos, nFile ∈ nFiles → Lies l files nFile block nPos →
      (nFile, block, nPos) ∈ nFiles.flatMap fun nFile =>
        (files nFile).blocks.map fun found => (nFile, found) := by
    intro nFile block nPos listed lies
    exact List.mem_flatMap.mpr ⟨nFile, listed, List.mem_map.mpr ⟨(block, nPos), lies, rfl⟩⟩
  induction connected with
  | genesis block nFile nPos listed lies pow passed first =>
      rcases (keeps.accounted nFile block nPos (seen _ _ _ listed lies)).2 pow with
        data | refused | ⟨apart, -⟩
      · exact data
      · exact absurd refused passed
      · exact absurd first apart
  | child block parent nFile nPos listed lies pow passed link below ih =>
      rcases (keeps.accounted nFile block nPos (seen _ _ _ listed lies)).2 pow with
        data | refused | ⟨-, waits⟩
      · exact data
      · exact absurd refused passed
      · have empty := keeps.awaited _ waits (by rw [link]; exact ih)
        cases empty

def threeHash (header : CBlockHeader) : Uint256 :=
  if header.hashPrevBlock = 0 then mainHashGenesisBlock
  else if header.hashPrevBlock = mainHashGenesisBlock then 1
  else 2

def secondBlock : CBlock := ⟨⟨1, 1, 7, 0, 0x2000ffff, 0, 0, 0⟩, [coinbasePaying 0]⟩

theorem typed_of_coinbase (header : CBlockHeader) : (CBlock.mk header [coinbasePaying 0]).Typed := by
  intro tx member
  rw [List.mem_singleton.mp member]
  exact coinbasePaying_typed

def plainLoading : Loading where
  network := .main
  w := plainSurroundings
  env := { plainEnvironment with blockHash := threeHash }
  config := { noPruning with fReindex := true }
  trial _ := ⟨0, true, .valid, 0, ⟨true, false, true⟩, ⟨true, false, true, true, true, true, 0⟩,
    findGenesis.flush, false, false, false⟩
  fuel := 4
  chunk _ _ := 4096
  reach _ _ := 0

def plainRecord (block : CBlock) (typed : block.Typed) (small : block.serializeSize ≤ maxBlockSize) :
    BlockRecord .main where
  padding := [0, 16]
  block := ⟨block, typed⟩
  clear := by decide
  small := small

def childFirst (nFile : Nat) : BlockFile .main where
  records :=
    if nFile = 0 then
      [plainRecord plainGenesis (typed_of_coinbase _) (by decide),
        plainRecord secondBlock (typed_of_coinbase _) (by decide),
        plainRecord firstBlock (typed_of_coinbase _) (by decide)]
    else []
  padding := [0]
  clear := by decide

def unloaded : Reindexing where
  store := { reindexing with contents := fun nFile => (childFirst nFile).bytes }
  mapBlocksUnknownParent := []
  nLoaded := 0
  calls := 0
  refused := []
  failed := false

theorem childFirst_small (nFile : Nat) : (childFirst nFile).bytes.length < 2 ^ 63 := by
  by_cases first : nFile = 0
  · rw [first]
    decide +kernel
  · have bytes : (childFirst nFile).bytes = [0] := by
      rw [BlockFile.bytes, childFirst, if_neg first, fileBytes]
    rw [bytes]
    decide

theorem childFirst_disk : OnDisk plainLoading childFirst :=
  ⟨fun _ _ => by simp [plainLoading], childFirst_small⟩

theorem childFirst_suited : AllSuited plainLoading childFirst [0] unloaded :=
  ⟨by decide +kernel, fun _ _ => trivial⟩

theorem childFirst_loaded : ∃ done : Reindexing, unloaded.loadFiles plainLoading [0] = some done ∧
    done.failed = false ∧ done.refused = [] := by
  have run : ((visit (importBlock plainLoading 0) (some unloaded) (childFirst 0).blocks).map
      fun s => (s.failed, s.refused)) = some (false, []) := by decide +kernel
  obtain ⟨done, loaded, fields⟩ := Option.map_eq_some_iff.mp run
  rw [Prod.mk.injEq] at fields
  have file : (plainLoading.source 0 (childFirst 0).bytes).content.length < 2 ^ 63 :=
    childFirst_small 0
  have scanned := BlockScan.scan_visits (plainLoading.reach 0) (importBlock plainLoading 0) file
    (childFirst_disk.steady 0) (childFirst 0).padding (childFirst 0).clear (childFirst 0).records rfl
    (some unloaded)
  refine ⟨done, ?_, fields.1, fields.2⟩
  rw [loadFiles, Option.bind_eq_some_iff]
  exact ⟨done, scanned.trans loaded, rfl⟩

end Reindexing

end RoiCoin
