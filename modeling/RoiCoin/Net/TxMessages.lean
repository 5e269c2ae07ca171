import RoiCoin.Lib.Waking
import RoiCoin.MempoolStructure
import RoiCoin.Net.RollingBloomFilter
import RoiCoin.OrphanPool
import RoiCoin.Validation.AcceptToMemoryPool

/-! The "tx" message (`ProcessMessage` in `main.cpp`) between two changes of the active chain.

An accepted transaction wakes the orphans that spend from it, and those that are accepted wake
others. The policy of the node is a parameter of every call of `AcceptToMemoryPool`, since the rate
limiter keeps a count between calls. The best block of the coins is the tip. The wallets,
`CTxMemPool::check`, the inventory known to the peer and the requests in flight are left out. -/

namespace RoiCoin

open Std Checked FlatView

/-- `MAX_REJECT_MESSAGE_LENGTH` -/
def maxRejectMessageLength : Nat := 111

/-- The capacity of `recentRejects`. -/
def recentRejectsSize : Nat := 120000

/-- How the handler can end without returning. -/
inductive TxFault where
  /-- `AcceptToMemoryPool` throws or aborts. -/
  | acceptance (failure : Failure)
  | filter (fault : FilterFault)
  /-- The index names an orphan that is not there. -/
  | noOrphan
  /-- An iterator that points at nothing. -/
  | iterator
  /-- The loop over `vWorkQueue` has used up its fuel. -/
  | fuel
  deriving DecidableEq, Repr

/-- What `AcceptToMemoryPool` returns, `fMissingInputs` and the state together. -/
inductive TxVerdict where
  | accepted (mempool : CTxMemPool)
  | missingInputs
  | rejected (state : Option Rejection)

section Verdict

variable (env : Environment) (base : FlatView) (policy : RelayPolicy) (pool : CTxMemPool)
  (tx : CTransaction)

/-- The part of `AcceptToMemoryPool` that comes before the inputs are looked up. -/
def checkBeforeInputs : Checking Unit := do
  checkTransaction tx
  require (tx.isCoinBase = false) (dos 100 "coinbase")
  checkStandard policy tx
  require (policy.checkFinalTx tx = true) (.invalid ⟨0, rejectNonstandard, "non-final", false⟩)
  require ((pool.lookup env.getHash (env.getHash tx)).isNone = true) .refused
  require (∀ txin ∈ tx.vin, (pool.mapNextTx txin.prevout).isNone = true) .refused
  require ((memPoolView env.getHash base pool).haveCoins (env.getHash tx) = false) .refused

/-- `*pfMissingInputs` after the call. -/
def fMissingInputs : Bool :=
  match checkBeforeInputs env base policy pool tx with
  | .error _ => false
  | .ok () => tx.vin.any fun txin =>
      !(memPoolView env.getHash base pool).haveCoins txin.prevout.hash

def txVerdict : Except TxFault TxVerdict :=
  match acceptToMemoryPool env policy base pool tx with
  | .ok mempool => .ok (.accepted mempool)
  | .error .refused =>
      if fMissingInputs env base policy pool tx then .ok .missingInputs else .ok (.rejected none)
  | .error (.invalid rejection) => .ok (.rejected (some rejection))
  | .error failure => .error (.acceptance failure)

end Verdict

/-- `recentRejects->insert(hash)` -/
def insertReject (recentRejects : CRollingBloomFilter) (hash : Uint256) :
    Except TxFault CRollingBloomFilter :=
  (recentRejects.insert (writeUint256 hash)).mapError .filter

/-- The variables of the loop that resolves orphans; of `vWorkQueue` the part that the loop has not
come to. -/
structure Resolving where
  mempool : CTxMemPool
  vWorkQueue : List Uint256
  vEraseQueue : List Uint256
  setMisbehaving : List Int
  recentRejects : CRollingBloomFilter
  /-- `RelayTransaction`, the last one last -/
  relayed : List CTransaction
  /-- `Misbehaving`, the last call last -/
  misbehaving : List (Int × Nat)
  /-- How often `AcceptToMemoryPool` was called. -/
  nCalls : Nat

namespace Resolving

variable (env : Environment) (base : FlatView) (policies : Nat → RelayPolicy)

/-- `Misbehaving` for the peer of an invalid orphan. -/
def punish (state : Resolving) (fromPeer : Int) (nDos : Nat) : Resolving :=
  if nDos > 0 then
    { state with
      setMisbehaving := fromPeer :: state.setMisbehaving
      misbehaving := state.misbehaving ++ [(fromPeer, nDos)] }
  else state

/-- An orphan that has its inputs and was not accepted. -/
def reject (state : Resolving) (orphanHash : Uint256) (fromPeer : Int)
    (rejection : Option Rejection) : Except TxFault Resolving := do
  let recentRejects ← insertReject state.recentRejects orphanHash
  return { state.punish fromPeer ((rejection.map Rejection.nDoS).getD 0) with
    recentRejects
    vEraseQueue := state.vEraseQueue ++ [orphanHash]
    nCalls := state.nCalls + 1 }

/-- The body of the loop over the orphans that spend from one transaction. -/
def visit (orphans : OrphanPool) (state : Resolving) (orphanHash : Uint256) :
    Except TxFault Resolving :=
  match orphans.mapOrphanTransactions[orphanHash]? with
  | none => .error .noOrphan
  | some orphan =>
      if orphan.fromPeer ∈ state.setMisbehaving then .ok state
      else
        match txVerdict env base (policies state.nCalls) state.mempool orphan.tx with
        | .error fault => .error fault
        | .ok (.accepted mempool) => .ok { state with
            mempool
            relayed := state.relayed ++ [orphan.tx]
            vWorkQueue := state.vWorkQueue ++ [orphanHash]
            vEraseQueue := state.vEraseQueue ++ [orphanHash]
            nCalls := state.nCalls + 1 }
        | .ok .missingInputs => .ok { state with nCalls := state.nCalls + 1 }
        | .ok (.rejected rejection) => state.reject orphanHash orphan.fromPeer rejection

/-- The orphans of one set of the index, in its order. -/
def visitAll (orphans : OrphanPool) : List Uint256 → Resolving → Except TxFault Resolving
  | [], state => .ok state
  | orphanHash :: rest, state => do
      let state ← visit env base policies orphans state orphanHash
      visitAll orphans rest state

def resolveLoop (orphans : OrphanPool) : (fuel : Nat) → Resolving → Except TxFault Resolving
  | 0, _ => .error .fuel
  | fuel + 1, state =>
      match state.vWorkQueue with
      | [] => .ok state
      | prev :: vWorkQueue =>
          match orphans.mapOrphanTransactionsByPrev[prev]? with
          | none => resolveLoop orphans fuel { state with vWorkQueue }
          | some owners => do
              let state ← visitAll env base policies orphans owners.toList
                { state with vWorkQueue }
              resolveLoop orphans fuel state

end Resolving

/-- A `reject` message. -/
structure RejectMessage where
  peer : Int
  chRejectCode : Nat
  strRejectReason : String
  hash : Uint256
  deriving DecidableEq, Repr

structure TxNode where
  mempool : CTxMemPool
  orphans : OrphanPool
  recentRejects : CRollingBloomFilter
  hashRecentRejectsChainTip : Uint256
  relayed : List CTransaction
  misbehaving : List (Int × Nat)
  rejects : List RejectMessage

/-- A message from a peer, with the outcomes of the random choices. -/
structure TxMessage where
  tx : CTransaction
  peer : Int
  fWhitelisted : Bool
  policies : Nat → RelayPolicy
  nNewTweak : BitVec 32
  randomHashes : Nat → Uint256

namespace TxNode

variable (env : Environment) (base : FlatView) (nMaxOrphanTx : Nat)

/-- `AlreadyHave` begins the filter anew when the tip has changed. -/
def freshRejects (node : TxNode) (nNewTweak : BitVec 32) : TxNode :=
  if base.hashBlock ≠ node.hashRecentRejectsChainTip then
    { node with
      hashRecentRejectsChainTip := base.hashBlock
      recentRejects := node.recentRejects.reset nNewTweak }
  else node

/-- The answer of `AlreadyHave` for a transaction. -/
def alreadyHave (node : TxNode) (hash : Uint256) : Except TxFault Bool := do
  let rejected ← (node.recentRejects.contains (writeUint256 hash)).mapError .filter
  return rejected || (node.mempool.lookup env.getHash hash).isSome ||
    node.orphans.mapOrphanTransactions.contains hash || base.haveCoins hash

/-- The variables before the loop. -/
def accepted (node : TxNode) (message : TxMessage) (mempool : CTxMemPool) : Resolving where
  mempool := mempool
  vWorkQueue := [env.getHash message.tx]
  vEraseQueue := []
  setMisbehaving := []
  recentRejects := node.recentRejects
  relayed := node.relayed ++ [message.tx]
  misbehaving := node.misbehaving
  nCalls := 0

/-- The transaction was accepted. -/
def resolve (node : TxNode) (message : TxMessage) (mempool : CTxMemPool) :
    Except TxFault TxNode := do
  let state ← Resolving.resolveLoop env base (fun n => message.policies (n + 1)) node.orphans
    (node.orphans.mapOrphanTransactions.size + 2) (node.accepted env message mempool)
  return { node with
    mempool := state.mempool
    orphans := state.vEraseQueue.foldl OrphanPool.eraseOrphanTx node.orphans
    recentRejects := state.recentRejects
    relayed := state.relayed
    misbehaving := state.misbehaving }

/-- An input of the transaction is missing. -/
def keepOrphan (node : TxNode) (message : TxMessage) : Except TxFault TxNode :=
  let orphans := (node.orphans.addOrphanTx env.getHash message.tx message.peer).1
  match orphans.limitOrphanTxSize nMaxOrphanTx message.randomHashes with
  | none => .error .iterator
  | some (orphans, _) => .ok { node with orphans }

/-- The answer to the peer when the state is invalid. -/
def answer (node : TxNode) (message : TxMessage) (rejection : Rejection) : TxNode :=
  { node with
    rejects := node.rejects ++ [⟨message.peer, rejection.chRejectCode,
      String.ofList (rejection.strRejectReason.toList.take maxRejectMessageLength),
      env.getHash message.tx⟩]
    misbehaving :=
      if rejection.nDoS > 0 then node.misbehaving ++ [(message.peer, rejection.nDoS)]
      else node.misbehaving }

/-- The transaction was rejected. -/
def rejectTx (node : TxNode) (message : TxMessage) (state : Option Rejection) :
    Except TxFault TxNode := do
  let recentRejects ← insertReject node.recentRejects (env.getHash message.tx)
  let node := { node with
    recentRejects
    relayed := if message.fWhitelisted then node.relayed ++ [message.tx] else node.relayed }
  match state with
  | none => return node
  | some rejection => return node.answer env message rejection

/-- The handler of the "tx" message. -/
def receiveTx (node : TxNode) (message : TxMessage) : Except TxFault TxNode := do
  let node := node.freshRejects base message.nNewTweak
  if ← node.alreadyHave env base (env.getHash message.tx) then return node
  else
    match ← txVerdict env base (message.policies 0) node.mempool message.tx with
    | .accepted mempool => node.resolve env base message mempool
    | .missingInputs => node.keepOrphan env nMaxOrphanTx message
    | .rejected state => node.rejectTx env message state

/-- The part of `FinalizeNode` that concerns orphans. -/
def finalizeNode (node : TxNode) (peer : Int) : Except TxFault TxNode :=
  match node.orphans.eraseOrphansFor env.getHash peer with
  | none => .error .noOrphan
  | some orphans => .ok { node with orphans }

end TxNode

inductive TxEvent where
  | tx (message : TxMessage)
  | finalizeNode (peer : Int)

def TxEvent.run (env : Environment) (base : FlatView) (nMaxOrphanTx : Nat) (node : TxNode) :
    TxEvent → Except TxFault TxNode
  | tx message => node.receiveTx env base nMaxOrphanTx message
  | finalizeNode peer => node.finalizeNode env peer

def runTxEvents (env : Environment) (base : FlatView) (nMaxOrphanTx : Nat) :
    List TxEvent → TxNode → Except TxFault TxNode
  | [], node => .ok node
  | event :: events, node => do
      let node ← event.run env base nMaxOrphanTx node
      runTxEvents env base nMaxOrphanTx events node

/-! ## Verdicts -/

section Verdict

variable (env : Environment) (base : FlatView) (policy : RelayPolicy) (pool : CTxMemPool)
  (tx : CTransaction)

/-- `AcceptToMemoryPool` refuses where it reports missing inputs. -/
theorem accept_missing (missing : fMissingInputs env base policy pool tx = true) :
    acceptToMemoryPool env policy base pool tx = .error .refused := by
  rw [fMissingInputs] at missing
  split at missing
  · cases missing
  · rename_i done before
    obtain ⟨txin, input, absent⟩ := List.any_eq_true.mp missing
    have lacking : ¬ ∀ txin ∈ tx.vin,
        (memPoolView env.getHash base pool).haveCoins txin.prevout.hash = true := by
      intro all
      rw [all txin input] at absent
      cases absent
    have stops : require (∀ txin ∈ tx.vin,
        (memPoolView env.getHash base pool).haveCoins txin.prevout.hash = true)
          Failure.refused = .error .refused := by rw [require, if_neg lacking]
    simp only [checkBeforeInputs, then_ok] at before
    obtain ⟨passed, regular, standard, final, new, free, vacant⟩ := before
    simp only [acceptToMemoryPool, checkAvailable, passed, regular, standard, final, new, free,
      vacant, stops, bind, Except.bind]

theorem verdict_accepted (mempool : CTxMemPool)
    (given : txVerdict env base policy pool tx = .ok (.accepted mempool)) :
    Accepted env base pool tx mempool := by
  rw [txVerdict] at given
  split at given
  · rename_i mempool' accepted
    cases given
    exact acceptToMemoryPool_ok env policy base pool mempool tx accepted
  · split at given <;> cases given
  · cases given
  · cases given

theorem verdict_error (fault : TxFault)
    (given : txVerdict env base policy pool tx = .error fault) :
    ∃ failure, fault = .acceptance failure := by
  rw [txVerdict] at given
  split at given
  · cases given
  · split at given <;> cases given
  · cases given
  · cases given
    exact ⟨_, rfl⟩

/-- A transaction with missing inputs is not in the pool. -/
theorem verdict_missing (given : txVerdict env base policy pool tx = .ok .missingInputs) :
    pool.lookup env.getHash (env.getHash tx) = none ∧
      ∃ txin ∈ tx.vin,
        (memPoolView env.getHash base pool).haveCoins txin.prevout.hash = false := by
  have missing : fMissingInputs env base policy pool tx = true := by
    rw [txVerdict] at given
    split at given
    · cases given
    · split at given
      · assumption
      · cases given
    · cases given
    · cases given
  rw [fMissingInputs] at missing
  split at missing
  · cases missing
  · rename_i done before
    simp only [checkBeforeInputs, then_ok, require_ok] at before
    obtain ⟨-, -, -, -, new, -, -⟩ := before
    obtain ⟨txin, input, absent⟩ := List.any_eq_true.mp missing
    exact ⟨Option.isNone_iff_eq_none.mp new, txin, input, by simpa using absent⟩

variable {env base pool tx}

theorem Accepted.admitted {mempool : CTxMemPool} (accepted : Accepted env base pool tx mempool) :
    CTxMemPool.Admitted env.getHash pool tx :=
  ⟨accepted.new, accepted.free, accepted.checked.distinct⟩

theorem Accepted.lookup {mempool : CTxMemPool} (accepted : Accepted env base pool tx mempool)
    (hash : Uint256) : mempool.lookup env.getHash hash =
      if env.getHash tx = hash then some tx else pool.lookup env.getHash hash := by
  have others := (CTxMemPool.lookup_none env.getHash pool (env.getHash tx)).mp accepted.new
  have listed : mempool.mapTx = tx :: pool.mapTx := by
    rw [accepted.added, CTxMemPool.addUnchecked, List.filter_eq_self.mpr]
    intro other member
    exact bne_iff_ne.mpr (others other member)
  rw [CTxMemPool.lookup, listed, List.find?_cons, CTxMemPool.lookup]
  by_cases own : env.getHash tx = hash
  · rw [beq_iff_eq.mpr own, if_pos own]
  · rw [beq_eq_false_iff_ne.mpr own, if_neg own]

/-- Only the transaction that was added has coins that were not there before. -/
theorem Accepted.learnt {mempool : CTxMemPool} (accepted : Accepted env base pool tx mempool)
    (hash : Uint256) (present : (memPoolView env.getHash base mempool).haveCoins hash = true) :
    (memPoolView env.getHash base pool).haveCoins hash = true ∨ hash ∈ [env.getHash tx] := by
  by_cases own : env.getHash tx = hash
  · exact .inr (List.mem_singleton.mpr own.symm)
  · left
    have same : (memPoolView env.getHash base mempool).coins hash =
        (memPoolView env.getHash base pool).coins hash := by
      simp only [memPoolView, accepted.lookup, if_neg own]
    rw [FlatView.haveCoins, accessCoins, same] at present
    exact present

end Verdict

/-! ## Looking at the orphans again -/

/-- `Misbehaving` was called for the peer. -/
def Punished (misbehaving : List (Int × Nat)) (peer : Int) : Prop :=
  ∃ nDoS, (peer, nDoS) ∈ misbehaving

theorem punished_grows (misbehaving more : List (Int × Nat)) (peer : Int)
    (punished : Punished misbehaving peer) : Punished (misbehaving ++ more) peer := by
  obtain ⟨nDoS, member⟩ := punished
  exact ⟨nDoS, List.mem_append_left more member⟩

theorem insertReject_windowed (recentRejects : CRollingBloomFilter) (hash : Uint256)
    (windowed : ∃ history,
      CRollingBloomFilter.Windowed recentRejectsSize history recentRejects) :
    ∃ next, insertReject recentRejects hash = .ok next ∧
      ∃ history, CRollingBloomFilter.Windowed recentRejectsSize history next := by
  obtain ⟨history, stands⟩ := windowed
  obtain ⟨next, put, stays⟩ := CRollingBloomFilter.insert_windowed recentRejectsSize history
    recentRejects (writeUint256 hash) stands
  exact ⟨next, by rw [insertReject, put]; rfl, _, stays⟩

namespace Resolving

/-- The orphan stays, and its peer is not punished. -/
def Left (orphans : OrphanPool) (state : Resolving) (hash : Uint256) : Prop :=
  ∃ orphan, orphans.mapOrphanTransactions[hash]? = some orphan ∧ hash ∉ state.vEraseQueue ∧
    ¬ Punished state.misbehaving orphan.fromPeer

/-- The bound on the turns that are left: every accepted orphan gives one. -/
def work (getHash : CTransaction → Uint256) (orphans : OrphanPool) (state : Resolving) : Nat :=
  (orphans.mapOrphanTransactions.keys.countP fun hash =>
    (state.mempool.lookup getHash hash).isNone) + state.vWorkQueue.length

section Loop

variable (env : Environment) (base : FlatView) (policies : Nat → RelayPolicy)
  (orphans : OrphanPool) (called : List (Int × Nat))

/-- What the loop keeps; `again` are the orphans that the present turn has still to look at. -/
structure Keeps (state : Resolving) (again : List Uint256) : Prop where
  indexed : state.mempool.Indexed env.getHash
  windowed : ∃ history, CRollingBloomFilter.Windowed recentRejectsSize history state.recentRejects
  pooled : ∀ hash ∈ orphans.mapOrphanTransactions,
    state.mempool.lookup env.getHash hash ≠ none → hash ∈ state.vEraseQueue
  punished : ∀ peer ∈ state.setMisbehaving, Punished state.misbehaving peer
  grown : ∀ call ∈ called, call ∈ state.misbehaving
  covered : Waking.Covered orphans.Spends (Left orphans state)
    (fun hash => (memPoolView env.getHash base state.mempool).haveCoins hash = true)
    state.vWorkQueue again

theorem keeps_look (state state' : Resolving) (orphanHash : Uint256) (again added : List Uint256)
    (keeps : Keeps env base orphans called state (orphanHash :: again))
    (indexed : state'.mempool.Indexed env.getHash)
    (windowed : ∃ history,
      CRollingBloomFilter.Windowed recentRejectsSize history state'.recentRejects)
    (pooled : ∀ hash ∈ orphans.mapOrphanTransactions,
      state'.mempool.lookup env.getHash hash ≠ none → hash ∈ state'.vEraseQueue)
    (punished : ∀ peer ∈ state'.setMisbehaving, Punished state'.misbehaving peer)
    (erased : ∀ hash ∈ state.vEraseQueue, hash ∈ state'.vEraseQueue)
    (grown : ∀ call ∈ state.misbehaving, call ∈ state'.misbehaving)
    (queued : state'.vWorkQueue = state.vWorkQueue ++ added)
    (looked : Left orphans state' orphanHash → ∃ prev, orphans.Spends orphanHash prev ∧
      ¬ (memPoolView env.getHash base state'.mempool).haveCoins prev = true)
    (learnt : ∀ prev, (memPoolView env.getHash base state'.mempool).haveCoins prev = true →
      (memPoolView env.getHash base state.mempool).haveCoins prev = true ∨ prev ∈ added) :
    Keeps env base orphans called state' again := by
  refine ⟨indexed, windowed, pooled, punished, fun call before => grown call (keeps.grown call before),
    ?_⟩
  rw [queued]
  refine Waking.covered_look orphans.Spends (Left orphans state) (Left orphans state') _ _
    state.vWorkQueue again orphanHash added keeps.covered ?_ looked learnt
  intro hash left
  obtain ⟨orphan, found, stays, innocent⟩ := left
  refine ⟨orphan, found, fun gone => stays (erased hash gone), ?_⟩
  rintro ⟨nDoS, member⟩
  exact innocent ⟨nDoS, grown _ member⟩

/-! ## The outcomes of one visit -/

theorem punish_punished (state : Resolving) (fromPeer : Int) (nDos : Nat)
    (punished : ∀ peer ∈ state.setMisbehaving, Punished state.misbehaving peer) :
    ∀ peer ∈ (state.punish fromPeer nDos).setMisbehaving,
      Punished (state.punish fromPeer nDos).misbehaving peer := by
  intro peer member
  rw [punish] at member ⊢
  split_ifs at member ⊢
  · rcases List.mem_cons.mp member with rfl | before
    · exact ⟨nDos, List.mem_append_right _ (List.mem_singleton_self _)⟩
    · exact punished_grows _ _ peer (punished peer before)
  · exact punished peer member

theorem punish_grown (state : Resolving) (fromPeer : Int) (nDos : Nat) :
    ∀ call ∈ state.misbehaving, call ∈ (state.punish fromPeer nDos).misbehaving := by
  intro call member
  rw [punish]
  split
  · exact List.mem_append_left _ member
  · exact member

@[simp] theorem punish_mempool (state : Resolving) (fromPeer : Int) (nDos : Nat) :
    (state.punish fromPeer nDos).mempool = state.mempool := by
  rw [punish]
  split <;> rfl

@[simp] theorem punish_vWorkQueue (state : Resolving) (fromPeer : Int) (nDos : Nat) :
    (state.punish fromPeer nDos).vWorkQueue = state.vWorkQueue := by
  rw [punish]
  split <;> rfl

theorem reject_keeps (state : Resolving) (orphanHash : Uint256) (again : List Uint256)
    (fromPeer : Int) (rejection : Option Rejection)
    (keeps : Keeps env base orphans called state (orphanHash :: again)) :
    ∃ state', state.reject orphanHash fromPeer rejection = .ok state' ∧
      Keeps env base orphans called state' again ∧
      state'.work env.getHash orphans = state.work env.getHash orphans := by
  obtain ⟨recentRejects, put, windowed⟩ :=
    insertReject_windowed state.recentRejects orphanHash keeps.windowed
  let nDos := (rejection.map Rejection.nDoS).getD 0
  refine ⟨{ state.punish fromPeer nDos with
    recentRejects
    vEraseQueue := state.vEraseQueue ++ [orphanHash]
    nCalls := state.nCalls + 1 }, by simp only [reject, put, bind, Except.bind]; rfl, ?_, ?_⟩
  · apply keeps_look env base orphans called state _ orphanHash again [] keeps
    · rw [punish_mempool]
      exact keeps.indexed
    · exact windowed
    · intro hash member there
      rw [punish_mempool] at there
      exact List.mem_append_left _ (keeps.pooled hash member there)
    · exact punish_punished state fromPeer nDos keeps.punished
    · exact fun hash => List.mem_append_left _
    · exact punish_grown state fromPeer nDos
    · rw [punish_vWorkQueue, List.append_nil]
    · rintro ⟨orphan, found, stays, innocent⟩
      exact absurd (List.mem_append_right _ (List.mem_singleton_self _)) stays
    · intro prev present
      rw [punish_mempool] at present
      exact .inl present
  · rw [work, work, punish_mempool, punish_vWorkQueue]

/-- An accepted orphan. -/
theorem accepted_keeps (state : Resolving) (orphanHash : Uint256) (again : List Uint256)
    (orphan : COrphanTx) (mempool : CTxMemPool)
    (found : orphans.mapOrphanTransactions[orphanHash]? = some orphan)
    (hash_eq : env.getHash orphan.tx = orphanHash)
    (accepted : Accepted env base state.mempool orphan.tx mempool) (state' : Resolving)
    (result : state' = { state with
      mempool
      relayed := state.relayed ++ [orphan.tx]
      vWorkQueue := state.vWorkQueue ++ [orphanHash]
      vEraseQueue := state.vEraseQueue ++ [orphanHash]
      nCalls := state.nCalls + 1 })
    (keeps : Keeps env base orphans called state (orphanHash :: again)) :
    Keeps env base orphans called state' again ∧
      state'.work env.getHash orphans ≤ state.work env.getHash orphans := by
  have found_there : orphanHash ∈ orphans.mapOrphanTransactions :=
    TreeMap.mem_iff_isSome_getElem?.mpr (by rw [found]; rfl)
  have looked_up := accepted.lookup
  rw [hash_eq] at looked_up
  subst result
  constructor
  · apply keeps_look env base orphans called state _ orphanHash again [orphanHash] keeps
    · rw [accepted.added]
      exact CTxMemPool.indexed_add env.getHash state.mempool orphan.tx keeps.indexed
        accepted.admitted
    · exact keeps.windowed
    · intro hash member there
      dsimp only at there
      rw [looked_up] at there
      split at there
      · rename_i own
        rw [← own]
        exact List.mem_append_right _ (List.mem_singleton_self _)
      · exact List.mem_append_left _ (keeps.pooled hash member there)
    · exact keeps.punished
    · exact fun hash => List.mem_append_left _
    · exact fun call member => member
    · rfl
    · rintro ⟨other, _, stays, innocent⟩
      exact absurd (List.mem_append_right _ (List.mem_singleton_self _)) stays
    · intro prev present
      rw [← hash_eq]
      exact accepted.learnt prev present
  · have fewer := Waking.countP_fewer
      (fun hash => (state.mempool.lookup env.getHash hash).isNone)
      (fun hash => (mempool.lookup env.getHash hash).isNone)
      orphans.mapOrphanTransactions.keys orphanHash (TreeMap.mem_keys.mpr found_there) ?_ ?_ ?_
    · simp only [work, List.length_append, List.length_singleton]
      omega
    · intro hash none
      rw [looked_up] at none
      split at none
      · cases none
      · exact none
    · rw [Option.isNone_iff_eq_none, ← hash_eq]
      exact accepted.new
    · rw [looked_up, if_pos rfl]
      rfl

theorem visit_keeps (exact : OrphanPool.Exact env.getHash orphans) (state : Resolving)
    (orphanHash : Uint256) (again : List Uint256)
    (member : orphanHash ∈ orphans.mapOrphanTransactions)
    (keeps : Keeps env base orphans called state (orphanHash :: again)) :
    (∃ failure, visit env base policies orphans state orphanHash = .error (.acceptance failure)) ∨
      ∃ state', visit env base policies orphans state orphanHash = .ok state' ∧
        Keeps env base orphans called state' again ∧
        state'.work env.getHash orphans ≤ state.work env.getHash orphans := by
  obtain ⟨orphan, found⟩ : ∃ orphan, orphans.mapOrphanTransactions[orphanHash]? = some orphan :=
    Option.isSome_iff_exists.mp (TreeMap.mem_iff_isSome_getElem?.mp member)
  rw [visit, found]
  dsimp only
  by_cases misbehaved : orphan.fromPeer ∈ state.setMisbehaving
  · rw [if_pos misbehaved]
    refine .inr ⟨state, rfl, ?_, Nat.le_refl _⟩
    apply keeps_look env base orphans called state state orphanHash again [] keeps keeps.indexed
      keeps.windowed keeps.pooled keeps.punished (fun _ => id) (fun _ => id)
      (List.append_nil _).symm
    · rintro ⟨other, stored, -, innocent⟩
      rw [found] at stored
      cases stored
      exact absurd (keeps.punished _ misbehaved) innocent
    · exact fun prev present => .inl present
  · rw [if_neg misbehaved]
    split
    · rename_i fault given
      obtain ⟨failure, rfl⟩ := verdict_error env base _ _ _ fault given
      exact .inl ⟨failure, rfl⟩
    · rename_i mempool given
      right
      have accepted := verdict_accepted env base _ _ _ mempool given
      exact ⟨_, rfl, accepted_keeps env base orphans called state orphanHash again orphan mempool
        found (exact.keyed orphanHash orphan found) accepted _ rfl keeps⟩
    · rename_i given
      right
      obtain ⟨-, txin, input, absent⟩ := verdict_missing env base _ _ _ given
      refine ⟨_, rfl, ?_, Nat.le_refl _⟩
      apply keeps_look env base orphans called state { state with nCalls := state.nCalls + 1 }
        orphanHash again [] keeps keeps.indexed keeps.windowed keeps.pooled keeps.punished
        (fun _ => id) (fun _ => id) (List.append_nil _).symm
      · rintro -
        refine ⟨txin.prevout.hash, ⟨orphan, found, List.mem_map_of_mem input⟩, ?_⟩
        simpa using absent
      · exact fun prev present => .inl present
    · rename_i rejection given
      right
      obtain ⟨state', ran, kept, same⟩ :=
        reject_keeps env base orphans called state orphanHash again orphan.fromPeer rejection keeps
      exact ⟨state', ran, kept, same.le⟩

theorem visitAll_keeps (exact : OrphanPool.Exact env.getHash orphans) (again : List Uint256)
    (state : Resolving) (members : ∀ hash ∈ again, hash ∈ orphans.mapOrphanTransactions)
    (keeps : Keeps env base orphans called state again) :
    (∃ failure,
      visitAll env base policies orphans again state = .error (.acceptance failure)) ∨
      ∃ state', visitAll env base policies orphans again state = .ok state' ∧
        Keeps env base orphans called state' [] ∧
        state'.work env.getHash orphans ≤ state.work env.getHash orphans := by
  induction again generalizing state with
  | nil => exact .inr ⟨state, rfl, keeps, Nat.le_refl _⟩
  | cons orphanHash again ih =>
      rw [List.forall_mem_cons] at members
      rcases visit_keeps env base policies orphans called exact state orphanHash again members.1
        keeps with ⟨failure, stopped⟩ | ⟨middle, visited, kept, less⟩
      · exact .inl ⟨failure, by rw [visitAll, stopped]; rfl⟩
      · rw [visitAll, visited, ok_then]
        rcases ih middle members.2 kept with stopped | ⟨state', ran, kept', less'⟩
        · exact .inl stopped
        · exact .inr ⟨state', ran, kept', less'.trans less⟩

/-- Take a transaction from the queue, with the orphans that the index has for it. -/
theorem take_keeps (state : Resolving) (prev : Uint256) (vWorkQueue again : List Uint256)
    (queue : state.vWorkQueue = prev :: vWorkQueue)
    (woken : ∀ hash, orphans.Spends hash prev → hash ∈ again)
    (keeps : Keeps env base orphans called state []) :
    Keeps env base orphans called { state with vWorkQueue } again := by
  refine ⟨keeps.indexed, keeps.windowed, keeps.pooled, keeps.punished, keeps.grown, ?_⟩
  have covered := keeps.covered
  rw [queue] at covered
  exact Waking.covered_take orphans.Spends _ _ vWorkQueue again prev covered
    fun hash _ spends => woken hash spends

/-- The loop ends with an empty queue. -/
theorem resolveLoop_keeps (exact : OrphanPool.Exact env.getHash orphans) (fuel : Nat)
    (state : Resolving) (keeps : Keeps env base orphans called state [])
    (enough : state.work env.getHash orphans < fuel) :
    (∃ failure,
      resolveLoop env base policies orphans fuel state = .error (.acceptance failure)) ∨
      ∃ state', resolveLoop env base policies orphans fuel state = .ok state' ∧
        state'.vWorkQueue = [] ∧ Keeps env base orphans called state' [] := by
  induction fuel generalizing state with
  | zero => exact (Nat.not_lt_zero _ enough).elim
  | succ fuel ih =>
      rw [resolveLoop]
      cases queue : state.vWorkQueue with
      | nil => exact .inr ⟨state, rfl, queue, keeps⟩
      | cons prev vWorkQueue =>
          dsimp only
          have taken : Resolving.work env.getHash orphans { state with vWorkQueue } + 1 =
              state.work env.getHash orphans := by
            rw [work, work, queue, List.length_cons]
            rfl
          cases owners_eq : orphans.mapOrphanTransactionsByPrev[prev]? with
          | none =>
              have kept := take_keeps env base orphans called state prev vWorkQueue [] queue
                (fun hash spends => absurd ((exact.index.linked hash prev).mpr spends)
                  (InverseIndex.linked_none _ hash prev owners_eq)) keeps
              exact ih _ kept (by omega)
          | some owners =>
              have linked : ∀ hash, hash ∈ owners.toList ↔ orphans.Spends hash prev := by
                intro hash
                rw [TreeSet.mem_toList, ← InverseIndex.linked_some _ hash prev owners owners_eq]
                exact exact.index.linked hash prev
              have kept := take_keeps env base orphans called state prev vWorkQueue
                owners.toList queue (fun hash spends => (linked hash).mpr spends) keeps
              have members : ∀ hash ∈ owners.toList, hash ∈ orphans.mapOrphanTransactions := by
                intro hash member
                obtain ⟨orphan, found, -⟩ := (linked hash).mp member
                exact TreeMap.mem_iff_isSome_getElem?.mpr (by rw [found]; rfl)
              rcases visitAll_keeps env base policies orphans called exact owners.toList _ members
                kept with ⟨failure, stopped⟩ | ⟨middle, ran, kept', less⟩
              · exact .inl ⟨failure, by dsimp only; rw [stopped]; rfl⟩
              · dsimp only
                rw [ran, ok_then]
                exact ih middle kept' (by omega)

end Loop

end Resolving

/-! ## Orphans that go and orphans that come -/

namespace OrphanPool

theorem eraseAll_found (hashes : List Uint256) (pool : OrphanPool) (other : Uint256) :
    (hashes.foldl eraseOrphanTx pool).mapOrphanTransactions[other]? =
      if other ∈ hashes then none else pool.mapOrphanTransactions[other]? := by
  induction hashes generalizing pool with
  | nil => simp
  | cons hash hashes ih =>
      rw [List.foldl_cons, ih, erase_found]
      by_cases later : other ∈ hashes
      · rw [if_pos later, if_pos (List.mem_cons_of_mem hash later)]
      · rw [if_neg later]
        by_cases here : hash = other
        · rw [if_pos here, if_pos (List.mem_cons.mpr (.inl here.symm))]
        · rw [if_neg here, if_neg]
          rintro (_ | ⟨_, member⟩)
          · exact here rfl
          · exact later member

theorem eraseAll_exact (getHash : CTransaction → Uint256) (hashes : List Uint256)
    (pool : OrphanPool) (exact : Exact getHash pool) :
    Exact getHash (hashes.foldl eraseOrphanTx pool) := by
  induction hashes generalizing pool with
  | nil => exact exact
  | cons hash hashes ih => exact ih _ (exact_erase getHash pool hash exact)

theorem erase_size_le (pool : OrphanPool) (hash : Uint256) :
    (pool.eraseOrphanTx hash).mapOrphanTransactions.size ≤ pool.mapOrphanTransactions.size := by
  rw [eraseOrphanTx]
  split
  · exact Nat.le_refl _
  · exact TreeMap.size_erase_le

theorem eraseAll_size (hashes : List Uint256) (pool : OrphanPool) :
    (hashes.foldl eraseOrphanTx pool).mapOrphanTransactions.size ≤
      pool.mapOrphanTransactions.size := by
  induction hashes generalizing pool with
  | nil => exact Nat.le_refl _
  | cons hash hashes ih => exact (ih _).trans (erase_size_le pool hash)

theorem eraseFrom_size (getHash : CTransaction → Uint256) (peer : Int) (rest : List Uint256)
    (pool pool' : OrphanPool) (ran : eraseFrom getHash peer rest pool = some pool') :
    pool'.mapOrphanTransactions.size ≤ pool.mapOrphanTransactions.size := by
  induction rest generalizing pool with
  | nil =>
      cases ran
      exact Nat.le_refl _
  | cons maybeErase rest ih =>
      rw [eraseFrom] at ran
      split at ran
      · cases ran
      · split at ran
        · exact (ih _ ran).trans (erase_size_le pool _)
        · exact ih pool ran

/-- Eviction only takes orphans away. -/
theorem limitFrom_found (nMaxOrphans : Nat) (random : Nat → Uint256) (fuel nEvicted evicted : Nat)
    (pool pool' : OrphanPool) (ran : limitFrom nMaxOrphans random fuel nEvicted pool =
      some (pool', evicted)) (hash : Uint256) (orphan : COrphanTx)
    (found : pool'.mapOrphanTransactions[hash]? = some orphan) :
    pool.mapOrphanTransactions[hash]? = some orphan := by
  induction fuel generalizing pool nEvicted with
  | zero => cases ran
  | succ fuel ih =>
      rw [limitFrom] at ran
      split at ran
      · split at ran
        · cases ran
        · have before := ih (nEvicted + 1) _ ran
          rw [erase_found] at before
          split at before
          · cases before
          · exact before
      · cases ran
        exact found

theorem add_found (getHash : CTransaction → Uint256) (pool : OrphanPool) (tx : CTransaction)
    (peer : Int) (hash : Uint256) (orphan : COrphanTx)
    (found : (pool.addOrphanTx getHash tx peer).1.mapOrphanTransactions[hash]? = some orphan) :
    pool.mapOrphanTransactions[hash]? = some orphan ∨ getHash tx = hash ∧ orphan = ⟨tx, peer⟩ := by
  rw [addOrphanTx] at found
  dsimp only at found
  split_ifs at found with known large
  · exact .inl found
  · exact .inl found
  · dsimp only at found
    rw [TreeMap.getElem?_insert] at found
    simp only [LawfulEqCmp.compare_eq_iff_eq] at found
    split at found
    · rename_i own
      exact .inr ⟨own, (Option.some.inj found).symm⟩
    · exact .inl found

end OrphanPool

/-! ## Messages -/

namespace TxNode

section Messages

variable (env : Environment) (base : FlatView) (nMaxOrphanTx : Nat)

/-- An orphan is not in the pool, and unless its peer was punished it lacks an input. -/
structure Waits (node : TxNode) : Prop where
  indexed : node.mempool.Indexed env.getHash
  exact : OrphanPool.Exact env.getHash node.orphans
  windowed : ∃ history, CRollingBloomFilter.Windowed recentRejectsSize history node.recentRejects
  few : node.orphans.mapOrphanTransactions.size ≤ nMaxOrphanTx
  apart : ∀ hash ∈ node.orphans.mapOrphanTransactions,
    node.mempool.lookup env.getHash hash = none
  waits : ∀ (hash : Uint256) orphan,
    node.orphans.mapOrphanTransactions[hash]? = some orphan →
      ¬ Punished node.misbehaving orphan.fromPeer →
        ∃ prev ∈ orphan.prevHashes,
          (memPoolView env.getHash base node.mempool).haveCoins prev = false

theorem freshRejects_waits (node : TxNode) (nNewTweak : BitVec 32)
    (waits : Waits env base nMaxOrphanTx node) :
    Waits env base nMaxOrphanTx (node.freshRejects base nNewTweak) := by
  rw [freshRejects]
  split
  · obtain ⟨history, stands⟩ := waits.windowed
    have fresh := CRollingBloomFilter.reset_windowed recentRejectsSize (by decide)
      node.recentRejects nNewTweak stands.nBloomSize stands.clearable1 stands.clearable2
    exact ⟨waits.indexed, waits.exact, ⟨[], fresh⟩, waits.few, waits.apart, waits.waits⟩
  · exact waits

theorem alreadyHave_answers (node : TxNode) (hash : Uint256)
    (waits : Waits env base nMaxOrphanTx node) :
    ∃ have_it, node.alreadyHave env base hash = .ok have_it ∧
      (have_it = false → hash ∉ node.orphans.mapOrphanTransactions) := by
  obtain ⟨history, stands⟩ := waits.windowed
  obtain ⟨found, answers⟩ := CRollingBloomFilter.contains_answers node.recentRejects
    (writeUint256 hash) stands.sound1 stands.sound2
  refine ⟨_, by simp only [alreadyHave, answers, Except.mapError, bind, Except.bind]; rfl, ?_⟩
  intro nothing
  simp only [Bool.or_eq_false_iff] at nothing
  rw [← TreeMap.contains_iff_mem, nothing.1.2]
  exact Bool.false_ne_true

/-- Before the loop every orphan that waits lacks an input or spends from the new transaction. -/
theorem accepted_keeps (node : TxNode) (message : TxMessage) (mempool : CTxMemPool)
    (waits : Waits env base nMaxOrphanTx node)
    (unknown : env.getHash message.tx ∉ node.orphans.mapOrphanTransactions)
    (passed : Accepted env base node.mempool message.tx mempool) :
    Resolving.Keeps env base node.orphans node.misbehaving (node.accepted env message mempool)
      [] where
  indexed := by
    rw [accepted, passed.added]
    exact CTxMemPool.indexed_add env.getHash node.mempool message.tx waits.indexed passed.admitted
  windowed := waits.windowed
  pooled := by
    intro hash member there
    rw [accepted, passed.lookup] at there
    split at there
    · rename_i own
      rw [own] at unknown
      exact absurd member unknown
    · exact absurd (waits.apart hash member) there
  punished := by
    intro peer none
    cases none
  grown := fun _ => id
  covered := by
    refine Waking.covered_start node.orphans.Spends _
      (fun hash => (memPoolView env.getHash base node.mempool).haveCoins hash = true) _ _ ?_
      passed.learnt
    intro hash left
    obtain ⟨orphan, found, -, innocent⟩ := left
    obtain ⟨prev, spent, absent⟩ := waits.waits hash orphan found innocent
    exact ⟨prev, ⟨orphan, found, spent⟩, by simp [absent]⟩

theorem accepted_work (node : TxNode) (message : TxMessage) (mempool : CTxMemPool) :
    (node.accepted env message mempool).work env.getHash node.orphans <
      node.orphans.mapOrphanTransactions.size + 2 := by
  rw [Resolving.work, accepted, List.length_singleton, ← TreeMap.length_keys]
  exact Nat.lt_succ_of_le (Nat.succ_le_succ List.countP_le_length)

theorem resolve_waits (node : TxNode) (message : TxMessage) (mempool : CTxMemPool)
    (waits : Waits env base nMaxOrphanTx node)
    (unknown : env.getHash message.tx ∉ node.orphans.mapOrphanTransactions)
    (passed : Accepted env base node.mempool message.tx mempool) :
    (∃ failure, node.resolve env base message mempool = .error (.acceptance failure)) ∨
      ∃ node', node.resolve env base message mempool = .ok node' ∧
        Waits env base nMaxOrphanTx node' := by
  have keeps := accepted_keeps env base nMaxOrphanTx node message mempool waits unknown passed
  have enough := accepted_work env node message mempool
  rcases Resolving.resolveLoop_keeps env base (fun n => message.policies (n + 1)) node.orphans
    node.misbehaving waits.exact _ _ keeps enough with
    ⟨failure, stopped⟩ | ⟨state, ran, done, kept⟩
  · exact .inl ⟨failure, by rw [resolve, stopped]; rfl⟩
  · refine .inr ⟨_, by rw [resolve, ran]; rfl, ?_⟩
    have covered := kept.covered
    rw [done] at covered
    refine ⟨kept.indexed, OrphanPool.eraseAll_exact _ _ _ waits.exact, kept.windowed,
      (OrphanPool.eraseAll_size _ _).trans waits.few, ?_, ?_⟩
    · intro hash member
      have found : (state.vEraseQueue.foldl OrphanPool.eraseOrphanTx
          node.orphans).mapOrphanTransactions[hash]?.isSome :=
        TreeMap.mem_iff_isSome_getElem?.mp member
      rw [OrphanPool.eraseAll_found] at found
      split at found
      · cases found
      · rename_i stays
        by_contra there
        exact stays (kept.pooled hash (TreeMap.mem_iff_isSome_getElem?.mpr found) there)
    · intro hash orphan found innocent
      rw [OrphanPool.eraseAll_found] at found
      split at found
      · cases found
      · rename_i stays
        obtain ⟨prev, ⟨other, stored, spent⟩, absent⟩ :=
          Waking.covered_end _ _ _ covered hash ⟨orphan, found, stays, innocent⟩
        rw [found] at stored
        cases stored
        exact ⟨prev, spent, by simpa using absent⟩

theorem keepOrphan_waits (node : TxNode) (message : TxMessage)
    (waits : Waits env base nMaxOrphanTx node)
    (new : node.mempool.lookup env.getHash (env.getHash message.tx) = none)
    (lacks : ∃ txin ∈ message.tx.vin,
      (memPoolView env.getHash base node.mempool).haveCoins txin.prevout.hash = false) :
    ∃ node', node.keepOrphan env nMaxOrphanTx message = .ok node' ∧
      Waits env base nMaxOrphanTx node' := by
  obtain ⟨orphans, nEvicted, limited, exact, few, -⟩ := OrphanPool.limitOrphanTxSize_exact
    env.getHash _ nMaxOrphanTx message.randomHashes
      (OrphanPool.exact_add env.getHash node.orphans message.tx message.peer waits.exact)
  refine ⟨{ node with orphans }, by rw [keepOrphan, limited], ?_⟩
  have origin : ∀ (hash : Uint256) orphan, orphans.mapOrphanTransactions[hash]? = some orphan →
      node.orphans.mapOrphanTransactions[hash]? = some orphan ∨
        env.getHash message.tx = hash ∧ orphan = ⟨message.tx, message.peer⟩ := by
    intro hash orphan found
    exact OrphanPool.add_found env.getHash node.orphans message.tx message.peer hash orphan
      (OrphanPool.limitFrom_found nMaxOrphanTx _ _ 0 nEvicted _ orphans limited hash orphan found)
  refine ⟨waits.indexed, exact, waits.windowed, few, ?_, ?_⟩
  · intro hash member
    obtain ⟨orphan, found⟩ : ∃ orphan, orphans.mapOrphanTransactions[hash]? = some orphan :=
      Option.isSome_iff_exists.mp (TreeMap.mem_iff_isSome_getElem?.mp member)
    rcases origin hash orphan found with before | ⟨own, -⟩
    · exact waits.apart hash (TreeMap.mem_iff_isSome_getElem?.mpr (by rw [before]; rfl))
    · rw [← own]
      exact new
  · intro hash orphan found innocent
    rcases origin hash orphan found with before | ⟨-, rfl⟩
    · exact waits.waits hash orphan before innocent
    · obtain ⟨txin, input, absent⟩ := lacks
      exact ⟨txin.prevout.hash, List.mem_map_of_mem input, absent⟩

theorem answer_waits (node : TxNode) (message : TxMessage) (rejection : Rejection)
    (waits : Waits env base nMaxOrphanTx node) :
    Waits env base nMaxOrphanTx (node.answer env message rejection) := by
  refine ⟨waits.indexed, waits.exact, waits.windowed, waits.few, waits.apart, ?_⟩
  intro hash orphan found innocent
  refine waits.waits hash orphan found fun punished => innocent ?_
  rw [answer]
  dsimp only
  split
  · exact punished_grows node.misbehaving _ _ punished
  · exact punished

theorem rejectTx_waits (node : TxNode) (message : TxMessage) (state : Option Rejection)
    (waits : Waits env base nMaxOrphanTx node) :
    ∃ node', node.rejectTx env message state = .ok node' ∧
      Waits env base nMaxOrphanTx node' := by
  obtain ⟨recentRejects, put, windowed⟩ :=
    insertReject_windowed node.recentRejects (env.getHash message.tx) waits.windowed
  have recorded : Waits env base nMaxOrphanTx { node with
      recentRejects
      relayed := if message.fWhitelisted then node.relayed ++ [message.tx] else node.relayed } :=
    ⟨waits.indexed, waits.exact, windowed, waits.few, waits.apart, waits.waits⟩
  rw [rejectTx, put, ok_then]
  cases state with
  | none => exact ⟨_, rfl, recorded⟩
  | some rejection =>
      exact ⟨_, rfl, answer_waits env base nMaxOrphanTx _ message rejection recorded⟩

theorem finalizeNode_waits (node : TxNode) (peer : Int)
    (waits : Waits env base nMaxOrphanTx node) :
    ∃ node', node.finalizeNode env peer = .ok node' ∧ Waits env base nMaxOrphanTx node' := by
  obtain ⟨orphans, erased, exact, left⟩ :=
    OrphanPool.eraseOrphansFor_exact env.getHash node.orphans peer waits.exact
  refine ⟨{ node with orphans }, by rw [finalizeNode, erased], waits.indexed, exact,
    waits.windowed, ?_, ?_, ?_⟩
  · exact (OrphanPool.eraseFrom_size env.getHash peer _ node.orphans orphans erased).trans waits.few
  · intro hash member
    obtain ⟨orphan, found⟩ : ∃ orphan, orphans.mapOrphanTransactions[hash]? = some orphan :=
      Option.isSome_iff_exists.mp (TreeMap.mem_iff_isSome_getElem?.mp member)
    have before := ((left hash orphan).mp found).1
    exact waits.apart hash (TreeMap.mem_iff_isSome_getElem?.mpr (by rw [before]; rfl))
  · intro hash orphan found
    exact waits.waits hash orphan ((left hash orphan).mp found).1

theorem receiveTx_waits (node : TxNode) (message : TxMessage)
    (waits : Waits env base nMaxOrphanTx node) :
    (∃ failure, node.receiveTx env base nMaxOrphanTx message = .error (.acceptance failure)) ∨
      ∃ node', node.receiveTx env base nMaxOrphanTx message = .ok node' ∧
        Waits env base nMaxOrphanTx node' := by
  have fresh := freshRejects_waits env base nMaxOrphanTx node message.nNewTweak waits
  obtain ⟨have_it, answers, unknown⟩ := alreadyHave_answers env base nMaxOrphanTx _
    (env.getHash message.tx) fresh
  rw [receiveTx, answers, ok_then]
  cases have_it with
  | true => exact .inr ⟨_, rfl, fresh⟩
  | false =>
      rw [if_neg Bool.false_ne_true]
      cases given : txVerdict env base (message.policies 0)
          (node.freshRejects base message.nNewTweak).mempool message.tx with
      | error fault =>
          obtain ⟨failure, rfl⟩ := verdict_error env base _ _ _ fault given
          exact .inl ⟨failure, rfl⟩
      | ok verdict =>
          rw [ok_then]
          cases verdict with
          | accepted mempool =>
              exact resolve_waits env base nMaxOrphanTx _ message mempool fresh (unknown rfl)
                (verdict_accepted env base _ _ _ mempool given)
          | missingInputs =>
              obtain ⟨new, lacks⟩ := verdict_missing env base _ _ _ given
              exact .inr (keepOrphan_waits env base nMaxOrphanTx _ message fresh new lacks)
          | rejected state =>
              exact .inr (rejectTx_waits env base nMaxOrphanTx _ message state fresh)

theorem event_waits (node : TxNode) (event : TxEvent)
    (waits : Waits env base nMaxOrphanTx node) :
    (∃ failure, event.run env base nMaxOrphanTx node = .error (.acceptance failure)) ∨
      ∃ node', event.run env base nMaxOrphanTx node = .ok node' ∧
        Waits env base nMaxOrphanTx node' := by
  cases event with
  | tx message => exact receiveTx_waits env base nMaxOrphanTx node message waits
  | finalizeNode peer => exact .inr (finalizeNode_waits env base nMaxOrphanTx node peer waits)

theorem events_wait (events : List TxEvent) (node : TxNode)
    (waits : Waits env base nMaxOrphanTx node) :
    (∃ failure, runTxEvents env base nMaxOrphanTx events node =
      .error (.acceptance failure)) ∨
      ∃ node', runTxEvents env base nMaxOrphanTx events node = .ok node' ∧
        Waits env base nMaxOrphanTx node' := by
  induction events generalizing node with
  | nil => exact .inr ⟨node, rfl, waits⟩
  | cons event events ih =>
      rcases event_waits env base nMaxOrphanTx node event waits with
        ⟨failure, stopped⟩ | ⟨middle, ran, kept⟩
      · exact .inl ⟨failure, by rw [runTxEvents, stopped]; rfl⟩
      · rw [runTxEvents, ran, ok_then]
        exact ih middle kept

end Messages

end TxNode

/-- In every run of the handler on an unchanged tip, from a node without orphans, the loop over the
woken orphans ends, the index names no orphan that is not there, and afterwards there are no more
orphans than allowed, none of them is in the pool, and each lacks an input or comes from a peer
that `Misbehaving` was called for. A run ends early only where `AcceptToMemoryPool` throws or
aborts. -/
theorem orphans_wait (env : Environment) (base : FlatView) (nMaxOrphanTx : Nat) (start : TxNode)
    (indexed : start.mempool.Indexed env.getHash)
    (windowed : ∃ history,
      CRollingBloomFilter.Windowed recentRejectsSize history start.recentRejects)
    (without : start.orphans = OrphanPool.empty) (events : List TxEvent) :
    (∃ failure, runTxEvents env base nMaxOrphanTx events start = .error (.acceptance failure)) ∨
      ∃ node, runTxEvents env base nMaxOrphanTx events start = .ok node ∧
        node.mempool.Indexed env.getHash ∧ OrphanPool.Exact env.getHash node.orphans ∧
        node.orphans.mapOrphanTransactions.size ≤ nMaxOrphanTx ∧
        ∀ (hash : Uint256) orphan, node.orphans.mapOrphanTransactions[hash]? = some orphan →
          node.mempool.lookup env.getHash hash = none ∧
          (¬ Punished node.misbehaving orphan.fromPeer → ∃ prev ∈ orphan.prevHashes,
            (memPoolView env.getHash base node.mempool).haveCoins prev = false) := by
  have nothing : ∀ hash : Uint256, start.orphans.mapOrphanTransactions[hash]? = none := by
    intro hash
    rw [without]
    exact TreeMap.getElem?_emptyc
  have waits : TxNode.Waits env base nMaxOrphanTx start := by
    refine ⟨indexed, ?_, windowed, ?_, ?_, ?_⟩
    · rw [without]
      exact OrphanPool.exact_empty env.getHash
    · rw [without]
      exact Nat.zero_le nMaxOrphanTx
    · intro hash member
      rw [TreeMap.mem_iff_isSome_getElem?, nothing] at member
      cases member
    · intro hash orphan found
      rw [nothing] at found
      cases found
  rcases TxNode.events_wait env base nMaxOrphanTx events start waits with
    stopped | ⟨node, ran, ends⟩
  · exact .inl stopped
  · refine .inr ⟨node, ran, ends.indexed, ends.exact, ends.few, fun hash orphan found => ⟨?_, ?_⟩⟩
    · exact ends.apart hash (TreeMap.mem_iff_isSome_getElem?.mpr (by rw [found]; rfl))
    · exact ends.waits hash orphan found

/-! ## A child before its parent -/

namespace ChildFirst

def environment : Environment := { plainEnvironment with getHash := CTxMemPool.lockTimeHash }

/-- The transaction nine has one output. -/
def coins : FlatView where
  coins hash := if hash = 9 then some ⟨false, [some ⟨100 * coin, []⟩], 0, 1⟩ else none
  hashBlock := mainHashGenesisBlock

def spendOnce (parent : Uint256) (nLockTime : BitVec 32) : CTransaction :=
  ⟨1, [⟨⟨parent, 0⟩, [], 0⟩], [⟨100 * coin, []⟩], nLockTime⟩

def policy : RelayPolicy where
  isStandardTx _ := none
  checkFinalTx _ := true
  areInputsStandard _ _ := true
  checkFees _ _ := .ok ()

/-- The grandchild and the child of the transaction that comes last. -/
def events : List TxEvent :=
  [spendOnce 12 13, spendOnce 11 12, spendOnce 9 11].map fun tx =>
    .tx ⟨tx, 1, false, fun _ => policy, 0, fun _ => 0⟩

def filter : CBloomFilter := ⟨[0], false, true, 1, 0, 0, []⟩

def start : TxNode where
  mempool := .empty
  orphans := .empty
  recentRejects := ⟨240000, 0, filter, filter⟩
  hashRecentRejectsChainTip := 0
  relayed := []
  misbehaving := []
  rejects := []

theorem start_windowed :
    CRollingBloomFilter.Windowed recentRejectsSize [] start.recentRejects := by
  have clearable : filter.Clearable := by decide
  exact CRollingBloomFilter.reset_windowed recentRejectsSize (by decide) ⟨240000, 0, filter, filter⟩
    0 (by decide) clearable clearable

/-- The grandchild waits for the child and the child for its parent, and all three are accepted. -/
theorem orphans_wait_child_first :
    (runTxEvents environment coins 100 events start).toOption.map (fun node =>
      node.mempool.mapTx) = some [spendOnce 12 13, spendOnce 11 12, spendOnce 9 11] ∧
    ∃ node, runTxEvents environment coins 100 events start = .ok node ∧
      node.mempool.Indexed environment.getHash ∧
      OrphanPool.Exact environment.getHash node.orphans ∧
      node.orphans.mapOrphanTransactions.size ≤ 100 ∧
      ∀ (hash : Uint256) orphan, node.orphans.mapOrphanTransactions[hash]? = some orphan →
        node.mempool.lookup environment.getHash hash = none ∧
        (¬ Punished node.misbehaving orphan.fromPeer → ∃ prev ∈ orphan.prevHashes,
          (memPoolView environment.getHash coins node.mempool).haveCoins prev = false) := by
  have accepted : (runTxEvents environment coins 100 events start).toOption.map (fun node =>
      node.mempool.mapTx) = some [spendOnce 12 13, spendOnce 11 12, spendOnce 9 11] := by
    decide +kernel
  refine ⟨accepted, ?_⟩
  rcases orphans_wait environment coins 100 start (CTxMemPool.indexed_empty environment.getHash)
    ⟨[], start_windowed⟩ rfl events with ⟨failure, stopped⟩ | ends
  · rw [stopped] at accepted
    cases accepted
  · exact ends

end ChildFirst

end RoiCoin
