import RoiCoin.Validation.TipCalls

/-! The best block of `pcoinsTip` and the tip of the active chain, over runs of `ConnectTip` and
`DisconnectTip`. -/

namespace RoiCoin

open Checked FlatView

/-- The index entries behind the block tree: each has its own hash, which is not the null one, and
is not its own parent. -/
def Indexed (env : Environment) (chain : ChainState) : Prop :=
  ∀ p pindex, env.mapBlockIndex p = some pindex →
    pindex.phashBlock = some p ∧ pindex.pprev = chain.pprev p ∧ p ≠ 0 ∧ chain.pprev p ≠ some p

theorem indexed_links (env : Environment) (chain chain' : ChainState)
    (indexed : Indexed env chain) (links : SameLinks chain chain') : Indexed env chain' := by
  intro p pindex found
  rw [links.pprev]
  exact indexed p pindex found

/-! ## The best block of the views -/

theorem connectBlock_best (env : Environment) (block : CBlock) (pindex : CBlockIndex)
    (view : FlatView) (connected : Connected) (hash : Uint256)
    (own : pindex.phashBlock = some hash)
    (accepted : connectBlock env block pindex view false = .ok connected) :
    connected.view.hashBlock = hash := by
  rw [connectBlock] at accepted
  simp only [bind_ok] at accepted
  obtain ⟨_, -, _, -, rest⟩ := accepted
  split at rest
  · rw [connectGenesis, if_neg Bool.false_ne_true, own] at rest
    cases rest
    rfl
  · simp only [connectTransactions, bind_ok] at rest
    obtain ⟨_, -, st, -, _, -, finished⟩ := rest
    obtain ⟨parent, hash', -, own', shape⟩ := finishBlock_view _ _ _ _ finished
    rw [own] at own'
    cases own'
    rw [shape]
    rfl

theorem disconnectBlock_best (env : Environment) (block : CBlock) (pindex : CBlockIndex)
    (view : FlatView) (undoRead : Checking CBlockUndo) (disconnected : Disconnected)
    (accepted : disconnectBlockWith env block pindex view undoRead = .ok disconnected) :
    disconnected.view.hashBlock = pindex.pprev.getD 0 := by
  rw [disconnectBlockWith] at accepted
  cases own : pindex.phashBlock with
  | none =>
      rw [own] at accepted
      cases accepted
  | some hash =>
      rw [own] at accepted
      simp only [bind_ok, pure_ok] at accepted
      obtain ⟨_, -, _, -, _, -, st, -, rfl⟩ := accepted
      rfl

/-! ## A call up to the flush -/

theorem findUndoPos_chain (config : StorageConfig) (freeBytes : Nat) (store : BlockStore)
    (nFile nAddSize : Nat) :
    (store.findUndoPos config freeBytes nFile nAddSize).1.chain = store.chain := by
  cases store
  rfl

theorem noteUndo_links (trial : UndoTrial) (pindex : Uint256) (found : BlockStore × Bool) :
    SameLinks found.1.chain (BlockStore.noteUndo trial pindex found).1.chain := by
  obtain ⟨store, found⟩ := found
  rw [BlockStore.noteUndo]
  split
  · exact sameLinks_refl _
  · exact sameLinks_modify store.chain pindex
      (fun entry =>
        { entry with
          nStatus := BlockStatus.raiseValidity { entry.nStatus with haveUndo := true }
            blockValidScripts })
      fun _ => rfl

theorem writeUndo_links (config : StorageConfig) (trial : UndoTrial) (nUndoSize : Nat)
    (pindex : Uint256) (store : BlockStore) :
    SameLinks store.chain (store.writeUndo config trial nUndoSize pindex).1.chain := by
  rw [BlockStore.writeUndo]
  split
  · split
    · exact sameLinks_refl _
    · exact sameLinks_modify store.chain pindex
        (fun entry => { entry with nStatus := entry.nStatus.raiseValidity blockValidScripts })
        fun _ => rfl
  · have noted := noteUndo_links trial pindex
      (store.findUndoPos config trial.freeBytes (store.chain.entry pindex).nFile (nUndoSize + 40))
    rw [findUndoPos_chain] at noted
    exact noted

theorem invalidBlockFound_links (store files : BlockStore) (pindex : Uint256)
    (found : store.invalidBlockFound pindex = some files) : SameLinks store.chain files.chain := by
  rw [BlockStore.invalidBlockFound] at found
  cases tip : store.chain.tip with
  | none =>
      rw [tip] at found
      cases found
  | some _ =>
      rw [tip] at found
      cases found
      have links := sameLinks_modify store.chain pindex
        (fun entry => { entry with nStatus := { entry.nStatus with failedValid := true } })
        fun _ => rfl
      exact ⟨links.pprev, links.active⟩

/-- A view that is merged belongs to a block. -/
theorem connectBlockStored_ok (env : Environment) (config : StorageConfig) (trial : TipTrial)
    (block : CBlock) (pindexNew : Uint256) (pindex : CBlockIndex) (files : BlockStore)
    (view : FlatView) (own : pindex.phashBlock = some pindexNew) :
    let result := connectBlockStored env config trial block pindexNew pindex files view
    SameLinks files.chain result.1.chain ∧
      ∀ merged, result.2 = .ok merged → merged.hashBlock = pindexNew := by
  dsimp only
  rw [connectBlockStored]
  cases accepted : connectBlock env block pindex view false with
  | error failure => exact ⟨sameLinks_refl _, by simp⟩
  | ok connected =>
      have best := connectBlock_best env block pindex view connected pindexNew own accepted
      dsimp only
      cases connected.blockundo with
      | none =>
          refine ⟨sameLinks_refl _, ?_⟩
          intro merged same
          cases same
          exact best
      | some blockundo =>
          dsimp only
          have links := writeUndo_links config trial.undo
            (writeBlockUndo config.curve blockundo).length pindexNew files
          generalize files.writeUndo config trial.undo _ pindexNew = result at links ⊢
          obtain ⟨files', written⟩ := result
          dsimp only at links ⊢
          split
          · exact ⟨links, by simp⟩
          · refine ⟨links, ?_⟩
            intro merged same
            cases same
            exact best

/-- The view and the mempool of a node, and its links. -/
structure Unmoved (node node' : TipState) : Prop where
  view : node'.pcoinsTip = node.pcoinsTip
  links : SameLinks node.chain node'.chain
  pool : node'.mempool = node.mempool

theorem unmoved_refl (node : TipState) : Unmoved node node := ⟨rfl, sameLinks_refl _, rfl⟩

theorem unmoved_files (node : TipState) (files : BlockStore)
    (links : SameLinks node.chain files.chain) : Unmoved node (node.withFiles files) :=
  ⟨rfl, links, rfl⟩

/-- A block has been merged whose disconnecting or connecting makes `target` the tip. -/
structure Merged (node : TipState) (target : Option Uint256) (node' : TipState) : Prop where
  best : node'.pcoinsTip.hashBlock = target.getD 0
  links : SameLinks node.chain node'.chain
  pool : node'.mempool = node.mempool
  moved : target.getD 0 ≠ node.chain.tip.getD 0

/-- The tip a call works towards. -/
def TipCall.target (node : TipState) : TipCall → Option Uint256
  | connectTip pindexNew _ => some pindexNew
  | disconnectTip _ => node.chain.tip.bind node.chain.pprev

def Applied.Ok (node : TipState) (target : Option Uint256) : Applied → Prop
  | failed node' => Unmoved node node'
  | merged node' _ => Merged node target node'

theorem connectFailed_ok (node : TipState) (pindexNew : Uint256) (failure : Failure)
    (applied : Applied) (target : Option Uint256)
    (done : node.connectFailed pindexNew failure = some applied) : applied.Ok node target := by
  unfold TipState.connectFailed at done
  split at done
  · split at done
    · cases done
      exact unmoved_refl node
    · cases found : node.storage.files.invalidBlockFound pindexNew with
      | none =>
          rw [found] at done
          cases done
      | some files =>
          rw [found] at done
          cases done
          exact unmoved_files node files (invalidBlockFound_links _ _ _ found)
  · cases done
    exact unmoved_refl node
  · cases done

theorem applied_ok_trans (node node' : TipState) (target : Option Uint256) (applied : Applied)
    (first : Unmoved node node') (second : applied.Ok node' target) : applied.Ok node target := by
  cases applied with
  | failed node'' =>
      exact ⟨second.view.trans first.view, sameLinks_trans _ _ _ first.links second.links,
        second.pool.trans first.pool⟩
  | merged node'' block =>
      refine ⟨second.best, sameLinks_trans _ _ _ first.links second.links,
        second.pool.trans first.pool, ?_⟩
      have tips : node'.chain.tip = node.chain.tip := congrArg List.head? first.links.active
      rw [← tips]
      exact second.moved

theorem connectApply_ok (env : Environment) (config : StorageConfig) (trial : TipTrial)
    (pindexNew : Uint256) (pblock : Option CBlock) (node : TipState) (applied : Applied)
    (indexed : Indexed env node.chain)
    (done : node.connectApply env config trial pindexNew pblock = some applied) :
    applied.Ok node (some pindexNew) := by
  rw [TipState.connectApply] at done
  split at done
  · cases done
  · rename_i parent
    rw [not_not] at parent
    split at done
    · cases done
    · cases done
      exact unmoved_refl node
    · rename_i pindex block found _
      obtain ⟨own, _, notNull, notSelf⟩ := indexed pindexNew pindex found
      obtain ⟨links, best⟩ := connectBlockStored_ok (node.environment env) config trial block
        pindexNew pindex node.storage.files node.pcoinsTip own
      generalize connectBlockStored (node.environment env) config trial block pindexNew pindex
        node.storage.files node.pcoinsTip = result at links best done
      obtain ⟨files, result⟩ := result
      cases result with
      | error failure =>
          exact applied_ok_trans node (node.withFiles files) _ applied
            (unmoved_files node files links) (connectFailed_ok _ _ _ _ _ done)
      | ok view =>
          cases done
          refine ⟨best view rfl, links, rfl, ?_⟩
          rw [← parent]
          intro same
          cases previous : node.chain.pprev pindexNew with
          | none =>
              rw [previous] at same
              exact notNull same
          | some hashPrev =>
              rw [previous] at same notSelf
              exact notSelf (congrArg some same.symm)

theorem disconnectApply_ok (env : Environment) (trial : TipTrial) (node : TipState)
    (applied : Applied) (indexed : Indexed env node.chain)
    (done : node.disconnectApply env trial = some applied) :
    applied.Ok node (node.chain.tip.bind node.chain.pprev) := by
  rw [TipState.disconnectApply] at done
  cases tip : node.chain.tip with
  | none =>
      rw [tip] at done
      cases done
  | some pindexDelete =>
      rw [tip] at done
      dsimp only at done
      split at done
      · cases done
      · cases done
        exact unmoved_refl node
      · rename_i pindex block found _
        obtain ⟨own, previous, notNull, notSelf⟩ := indexed pindexDelete pindex found
        split at done
        · split at done
          · cases done
            exact unmoved_refl node
          · cases done
        · rename_i disconnected accepted
          split at done
          · cases done
            have best := disconnectBlock_best _ _ _ _ _ _ accepted
            rw [previous] at best
            refine ⟨best, sameLinks_refl _, rfl, ?_⟩
            rw [tip, Option.bind_some, Option.getD_some]
            intro same
            cases parent : node.chain.pprev pindexDelete with
            | none =>
                rw [parent] at same
                exact notNull same.symm
            | some hashPrev =>
                rw [parent] at same notSelf
                exact notSelf (congrArg some same)
          · cases done
            exact unmoved_refl node

theorem apply_ok (env : Environment) (config : StorageConfig) (trial : TipTrial)
    (node : TipState) (call : TipCall) (applied : Applied) (indexed : Indexed env node.chain)
    (done : call.apply env config trial node = some applied) :
    applied.Ok node (call.target node) := by
  cases call with
  | connectTip pindexNew pblock =>
      exact connectApply_ok env config trial pindexNew pblock node applied indexed done
  | disconnectTip policy => exact disconnectApply_ok env trial node applied indexed done

/-! ## A whole call -/

/-- The best block of the view is the tip, or null while there is no tip. -/
def TipState.InStep (node : TipState) : Prop := node.pcoinsTip.hashBlock = node.chain.tip.getD 0

/-- View and chain are in step after a call, and nothing has moved if it has returned false. -/
def Lockstep (before after : TipState) (returned : Bool) : Prop :=
  after.InStep ∧
    (returned = false → after.pcoinsTip.coins = before.pcoinsTip.coins ∧
      after.chain.chainActive = before.chain.chainActive ∧ after.mempool = before.mempool)

/-- The call does not reach a `FlushStateToDisk` that the disk fails. -/
def TipCall.FlushFine (env : Environment) (config : StorageConfig) (trial : TipTrial)
    (node : TipState) (call : TipCall) : Prop :=
  ∀ merged block, call.apply env config trial node = some (.merged merged block) →
    merged.storage.flushTrouble config trial.flush .ifNeeded = false

theorem finish_ok (env : Environment) (call : TipCall) (block : CBlock) (node middle after : TipState)
    (links : SameLinks node.chain middle.chain)
    (done : call.finish env block middle = some after) :
    after.chain.tip = call.target node ∧ after.chain.pprev = middle.chain.pprev ∧
      after.pcoinsTip = middle.pcoinsTip := by
  have tips : middle.chain.tip = node.chain.tip := congrArg List.head? links.active
  cases call with
  | connectTip pindexNew pblock =>
      cases done
      exact ⟨rfl, rfl, rfl⟩
  | disconnectTip policy =>
      simp only [TipCall.finish, TipState.disconnectFinish] at done
      rw [TipCall.target, ← tips, ← links.pprev]
      cases tip : middle.chain.tip with
      | none =>
          rw [tip] at done
          cases done
      | some pindexDelete =>
          rw [tip] at done
          dsimp only at done
          split at done
          · cases done
          · rw [Option.bind_some]
            cases parent : middle.chain.pprev pindexDelete with
            | none =>
                rw [parent] at done
                cases done
            | some hashPrev =>
                rw [parent] at done
                cases done
                exact ⟨rfl, rfl, rfl⟩

/-- A call keeps view and chain in step exactly when the disk does not fail its flush. -/
theorem call_lockstep (env : Environment) (config : StorageConfig) (trial : TipTrial)
    (node : TipState) (call : TipCall) (indexed : Indexed env node.chain) (inStep : node.InStep) :
    (∀ after returned, call.run env config trial node = some (after, returned) →
      Lockstep node after returned) ↔ call.FlushFine env config trial node := by
  rw [TipCall.FlushFine]
  cases done : call.apply env config trial node with
  | none => simp [TipCall.run, done]
  | some applied =>
      have ok := apply_ok env config trial node call applied indexed done
      cases applied with
      | failed after =>
          have same : Lockstep node after false := by
            have tips : after.chain.tip = node.chain.tip := congrArg List.head? ok.links.active
            refine ⟨?_, fun _ => ⟨by rw [ok.view], ok.links.active, ok.pool⟩⟩
            rw [TipState.InStep, ok.view, tips]
            exact inStep
          simp [TipCall.run, done, same]
      | merged merged block =>
          obtain ⟨flushed, result⟩ := Storage.flush_flushed config trial.flush .ifNeeded
            merged.storage
          rw [TipCall.run, done]
          dsimp only
          generalize merged.storage.flushStateToDisk config trial.flush .ifNeeded = flush
            at flushed result ⊢
          obtain ⟨storage, returned⟩ := flush
          have links : SameLinks node.chain storage.files.chain :=
            sameLinks_trans _ _ _ ok.links flushed.links
          have best : storage.pcoinsTip.hashBlock = (call.target node).getD 0 :=
            flushed.best.trans ok.best
          cases returned with
          | false =>
              constructor
              · intro all
                obtain ⟨inStep', -⟩ := all { merged with storage } false rfl
                have tips : storage.files.chain.tip = node.chain.tip :=
                  congrArg List.head? links.active
                have same : storage.pcoinsTip.hashBlock = storage.files.chain.tip.getD 0 := inStep'
                rw [best, tips] at same
                exact (ok.moved same).elim
              · intro fine
                have trouble := fine merged block rfl
                rw [trouble] at result
                cases result
          | true =>
              constructor
              · intro _ merged' block' same
                cases same
                exact (Bool.not_eq_true' _).mp result.symm
              · intro _ after returned' finished
                dsimp only at finished
                cases last : call.finish env block { merged with storage } with
                | none =>
                    rw [last] at finished
                    cases finished
                | some reached =>
                    rw [last] at finished
                    cases finished
                    obtain ⟨tip, -, view⟩ := finish_ok env call block node { merged with storage } _
                      links last
                    refine ⟨?_, by simp⟩
                    rw [TipState.InStep, view, tip]
                    exact best

theorem call_indexed (env : Environment) (config : StorageConfig) (trial : TipTrial)
    (node after : TipState) (call : TipCall) (returned : Bool) (indexed : Indexed env node.chain)
    (ran : call.run env config trial node = some (after, returned)) :
    Indexed env after.chain := by
  rw [TipCall.run] at ran
  cases done : call.apply env config trial node with
  | none =>
      rw [done] at ran
      cases ran
  | some applied =>
      have ok := apply_ok env config trial node call applied indexed done
      rw [done] at ran
      cases applied with
      | failed failed =>
          cases ran
          exact indexed_links env _ _ indexed ok.links
      | merged merged block =>
          obtain ⟨flushed, -⟩ := Storage.flush_flushed config trial.flush .ifNeeded merged.storage
          dsimp only at ran
          generalize merged.storage.flushStateToDisk config trial.flush .ifNeeded = flush
            at flushed ran
          obtain ⟨storage, done'⟩ := flush
          have links : SameLinks node.chain storage.files.chain :=
            sameLinks_trans _ _ _ ok.links flushed.links
          cases done' with
          | false =>
              cases ran
              exact indexed_links env _ _ indexed links
          | true =>
              dsimp only at ran
              cases last : call.finish env block { merged with storage } with
              | none =>
                  rw [last] at ran
                  cases ran
              | some reached =>
                  rw [last] at ran
                  cases ran
                  obtain ⟨-, parents, -⟩ := finish_ok env call block node { merged with storage } _
                      links last
                  intro p pindex found
                  rw [parents]
                  exact indexed_links env _ _ indexed links p pindex found

/-! ## Runs -/

/-- Every call of the run, up to one that does not return, leaves view and chain in step. -/
def KeepsLockstep (env : Environment) (config : StorageConfig) :
    List (TipCall × TipTrial) → TipState → Prop
  | [], _ => True
  | (call, trial) :: calls, node =>
      ∀ after returned, call.run env config trial node = some (after, returned) →
        Lockstep node after returned ∧ KeepsLockstep env config calls after

/-- The disk does not fail the flush of any call of the run. -/
def FlushesFine (env : Environment) (config : StorageConfig) :
    List (TipCall × TipTrial) → TipState → Prop
  | [], _ => True
  | (call, trial) :: calls, node =>
      call.FlushFine env config trial node ∧
        ∀ after returned, call.run env config trial node = some (after, returned) →
          FlushesFine env config calls after

/-- In every run from a state in step, view and chain stay in step exactly when the disk does not
fail a flush. -/
theorem lockstep_iff (env : Environment) (config : StorageConfig)
    (calls : List (TipCall × TipTrial)) (node : TipState) (indexed : Indexed env node.chain)
    (inStep : node.InStep) :
    KeepsLockstep env config calls node ↔ FlushesFine env config calls node := by
  induction calls generalizing node with
  | nil => exact Iff.rfl
  | cons entry calls ih =>
      obtain ⟨call, trial⟩ := entry
      have one := call_lockstep env config trial node call indexed inStep
      constructor
      · intro keeps
        refine ⟨one.mp fun after returned ran => (keeps after returned ran).1, ?_⟩
        intro after returned ran
        obtain ⟨step, rest⟩ := keeps after returned ran
        exact (ih after (call_indexed env config trial node after call returned indexed ran)
          step.1).mp rest
      · intro fine after returned ran
        have step := one.mpr fine.1 after returned ran
        exact ⟨step, (ih after (call_indexed env config trial node after call returned indexed ran)
          step.1).mpr (fine.2 after returned ran)⟩

/-- The genesis block is connected, and a first block is in the index. -/
def firstTree : ChainState :=
  { ChainState.start with
    known := [1, mainHashGenesisBlock]
    entry := fun p =>
      if p = 1 then { BlockEntry.blank with pprev := some mainHashGenesisBlock, nHeight := 1 }
      else .blank
    chainActive := [mainHashGenesisBlock] }

def firstTip : TipState where
  storage := {
    files := ⟨firstTree, [.null], 0, [], [], false, fun _ => .empty, fun _ => .empty, []⟩
    pcoinsTip := ⟨fun _ => none, mainHashGenesisBlock⟩
    coinsdb := ⟨fun _ => none, mainHashGenesisBlock⟩
    nLastWrite := 1
    nLastFlush := 1 }
  mempool := .empty

def firstEnvironment : Environment :=
  { plainEnvironment with
    mapBlockIndex hash :=
      if hash = mainHashGenesisBlock then some genesisIndex
      else if hash = 1 then some (firstIndex 7)
      else none }

/-- A cache of at most one hundred bytes. -/
def smallCache : StorageConfig := ⟨false, false, 0, 0, 100, ⟨fun _ => true, fun _ => none⟩⟩

/-- The cache is over its limit, and the coin database takes it or not. -/
def fullCache (coinsWritten : Bool) : TipTrial where
  block := none
  blockUndo := none
  undo := ⟨100000000, true⟩
  txIndexFails := false
  flush := ⟨2, 200, false, 1, 100000000, 100000000, true, true, true, true, fun _ => true,
    coinsWritten⟩

def connectFirst : TipCall := .connectTip 1 (some ⟨firstHeader 7, [coinbasePaying (77 * coin)]⟩)

theorem firstTip_indexed : Indexed firstEnvironment firstTip.chain := by
  intro p pindex found
  dsimp only [firstEnvironment] at found
  split_ifs at found with genesis first
  · cases found
    subst genesis
    decide
  · cases found
    subst first
    decide

theorem lockstep_iff_first :
    KeepsLockstep firstEnvironment smallCache [(connectFirst, fullCache true)] firstTip := by
  refine (lockstep_iff firstEnvironment smallCache _ firstTip firstTip_indexed rfl).mpr
    ⟨?_, fun _ _ _ => trivial⟩
  intro merged block done
  have fine : (connectFirst.apply firstEnvironment smallCache (fullCache true) firstTip).map
      (fun applied =>
        match applied with
        | .failed _ => false
        | .merged merged _ =>
            merged.storage.flushTrouble smallCache (fullCache true).flush .ifNeeded) =
        some false := by decide +kernel
  rw [done] at fine
  exact Option.some.inj fine

/-- The coin database fails when the view of the first block has been merged. -/
theorem failed_write_out_of_step : ¬ ∀ (env : Environment) (config : StorageConfig)
    (calls : List (TipCall × TipTrial)) (node : TipState), Indexed env node.chain →
      node.InStep → KeepsLockstep env config calls node := by
  intro always
  have keeps := always firstEnvironment smallCache [(connectFirst, fullCache false)] firstTip
    firstTip_indexed rfl
  have broken : (connectFirst.run firstEnvironment smallCache (fullCache false) firstTip).map
      (fun result => decide (result.1.pcoinsTip.hashBlock = result.1.chain.tip.getD 0)) =
        some false := by
    decide +kernel
  cases ran : connectFirst.run firstEnvironment smallCache (fullCache false) firstTip with
  | none =>
      rw [ran] at broken
      cases broken
  | some result =>
      obtain ⟨after, returned⟩ := result
      rw [ran, Option.map_some, Option.some.injEq, decide_eq_false_iff_not] at broken
      exact broken (keeps after returned ran).1.1

end RoiCoin
