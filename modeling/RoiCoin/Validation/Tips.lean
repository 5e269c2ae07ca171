import RoiCoin.Validation.AcceptToMemoryPool
import RoiCoin.Validation.BlockCoins

/-! The active chain, its coins and the memory pool (`ConnectTip`, `DisconnectTip`).

Blocks and undo data are read back from disk as they were written, the undo data as `storedUndo`.
The environment knows every index entry; its chain height is that of the node. -/

namespace RoiCoin

open Checked FlatView

/-- A block of the active chain with its undo data, if any was written. -/
structure ActiveBlock where
  block : CBlock
  pindex : CBlockIndex
  blockundo : Option CBlockUndo

/-- `below` is the active chain under its tip, the parent of the tip first. -/
structure Node where
  tip : ActiveBlock
  below : List ActiveBlock
  pcoinsTip : FlatView
  mempool : CTxMemPool

/-- The environment once `UpdateTip` has set the height of the chain. -/
def Environment.at (env : Environment) (nHeight : Int) : Environment :=
  { env with chainHeight := nHeight }

namespace Node

def height (node : Node) : Int := node.tip.pindex.nHeight

def environment (env : Environment) (node : Node) : Environment := env.at node.height

/-- The coins that transactions of the pool can spend. -/
def poolCoins (env : Environment) (node : Node) : Ledger.Coins Uint256 Coin :=
  (memPoolView env.getHash node.pcoinsTip node.mempool).utxo

def accept (env : Environment) (policy : RelayPolicy) (tx : CTransaction) (node : Node) :
    Checking Node := do
  let pool ← acceptToMemoryPool (node.environment env) policy node.pcoinsTip node.mempool tx
  return { node with mempool := pool }

def connectTip (env : Environment) (block : CBlock) (pindexNew : CBlockIndex) (node : Node) :
    Checking Node := do
  require (pindexNew.pprev = node.tip.pindex.phashBlock) (.assertion .tip)
  let connected ← connectBlock (node.environment env) block pindexNew node.pcoinsTip false
  return {
    tip := ⟨block, pindexNew, connected.blockundo.map storedUndo⟩
    below := node.tip :: node.below
    pcoinsTip := connected.view
    mempool := node.mempool.removeForBlock env.getHash block.vtx }

end Node

/-- Put a transaction of a disconnected block back into the pool, or remove what spends from it. -/
def resurrect (env : Environment) (policy : RelayPolicy) (view : FlatView) (pool : CTxMemPool)
    (tx : CTransaction) : Checking CTxMemPool :=
  if tx.isCoinBase then .ok (pool.remove env.getHash tx true)
  else
    match acceptToMemoryPool env policy view pool tx with
    | .ok pool => .ok pool
    | .error (.invalid _) => .ok (pool.remove env.getHash tx true)
    | .error .refused => .ok (pool.remove env.getHash tx true)
    | .error failure => .error failure

def resurrectAll (env : Environment) (policy : RelayPolicy) (view : FlatView) (pool : CTxMemPool) :
    List CTransaction → Checking CTxMemPool
  | [] => .ok pool
  | tx :: vtx => do
      let pool ← resurrect env policy view pool tx
      resurrectAll env policy view pool vtx

def readStored (active : ActiveBlock) : Checking CBlockUndo :=
  match active.blockundo with
  | some blockUndo => .ok blockUndo
  | none => .error .refused

namespace Node

/-- The new tip must be there: `UpdateTip` reads it. -/
def disconnectTip (env : Environment) (policy : RelayPolicy) (node : Node) : Checking Node :=
  match node.below with
  | [] => .error .nullPointer
  | tip :: below => do
      let disconnected ← disconnectBlockWith (node.environment env) node.tip.block
        node.tip.pindex node.pcoinsTip (readStored node.tip)
      require (disconnected.fClean = true) .refused
      let pool ← resurrectAll (node.environment env) policy disconnected.view node.mempool
        node.tip.block.vtx
      return {
        tip
        below
        pcoinsTip := disconnected.view
        mempool := pool.removeCoinbaseSpends env.getHash disconnected.view node.height }

end Node

inductive NodeStep where
  | acceptToMemoryPool (policy : RelayPolicy) (tx : CTransaction)
  | connectTip (block : CBlock) (pindexNew : CBlockIndex)
  | disconnectTip (policy : RelayPolicy)

namespace NodeStep

def attempt (env : Environment) (node : Node) : NodeStep → Checking Node
  | acceptToMemoryPool policy tx => node.accept env policy tx
  | connectTip block pindexNew => node.connectTip env block pindexNew
  | disconnectTip policy => node.disconnectTip env policy

/-- A step that fails leaves the node as it is. -/
def run (env : Environment) (node : Node) (step : NodeStep) : Node :=
  match step.attempt env node with
  | .ok node' => node'
  | .error _ => node

/-- A block offered to `ConnectTip` is not the genesis block and has an index entry one above the
entry of its parent. -/
def Offered (env : Environment) : NodeStep → Prop
  | connectTip block pindexNew =>
      env.blockHash block.header ≠ env.params.hashGenesisBlock ∧
        (∃ hash, pindexNew.phashBlock = some hash ∧ env.mapBlockIndex hash = some pindexNew) ∧
        ∀ hash, pindexNew.pprev = some hash → ∃ parent, env.mapBlockIndex hash = some parent ∧
          pindexNew.nHeight = parent.nHeight + 1
  | _ => True

end NodeStep

/-- The node after the steps. -/
def runNode (env : Environment) (node : Node) : List NodeStep → Node
  | [] => node
  | step :: steps => runNode env (step.run env node) steps

/-! ## What holds of every node -/

/-- The entry of a block is in the index under its hash. -/
def ActiveBlock.Indexed (env : Environment) (active : ActiveBlock) : Prop :=
  ∃ hash, active.pindex.phashBlock = some hash ∧ env.mapBlockIndex hash = some active.pindex

/-- The blocks of the chain stand on each other. -/
def Linked : ActiveBlock → List ActiveBlock → Prop
  | _, [] => True
  | tip, parent :: below =>
      (tip.pindex.pprev = parent.pindex.phashBlock ∧
        tip.pindex.nHeight = parent.pindex.nHeight + 1) ∧ Linked parent below

/-- The chain of a node: linked, with the best block of the view at its tip and amounts in range
in the view and in the undo data. -/
structure ChainOk (env : Environment) (node : Node) : Prop where
  best : node.tip.pindex.phashBlock = some node.pcoinsTip.hashBlock
  indexed : ∀ active ∈ node.tip :: node.below, active.Indexed env
  linked : Linked node.tip node.below
  inRange : Ledger.Each Coin.InRange node.pcoinsTip.utxo
  undo : ∀ active ∈ node.tip :: node.below, ∀ blockUndo, active.blockundo = some blockUndo →
    UndoInRange blockUndo

/-- The pool of a node: consistent, and every transaction has passed `CheckTransaction`. -/
structure PoolOk (getHash : CTransaction → Uint256) (pool : CTxMemPool) : Prop where
  consistent : pool.Consistent getHash
  checked : ∀ tx ∈ pool.mapTx, CheckedTransaction tx
  regular : ∀ tx ∈ pool.mapTx, tx.isCoinBase = false

structure NodeOk (env : Environment) (node : Node) : Prop where
  chain : ChainOk env node
  pool : PoolOk env.getHash node.mempool

theorem poolOk_empty (getHash : CTransaction → Uint256) : PoolOk getHash .empty :=
  ⟨CTxMemPool.consistent_empty getHash, by simp [CTxMemPool.empty], by simp [CTxMemPool.empty]⟩

theorem poolOk_evicted (getHash : CTransaction → Uint256) (freed : Uint256 → Prop)
    (pool pool' : CTxMemPool) (ok : PoolOk getHash pool)
    (evicted : CTxMemPool.Evicted getHash freed pool pool') : PoolOk getHash pool' :=
  ⟨evicted.consistent, fun tx member => ok.checked tx (evicted.kept tx member),
    fun tx member => ok.regular tx (evicted.kept tx member)⟩

theorem poolOk_accepted (env : Environment) (view : FlatView) (pool pool' : CTxMemPool)
    (tx : CTransaction) (ok : PoolOk env.getHash pool)
    (accepted : Accepted env view pool tx pool') : PoolOk env.getHash pool' := by
  rw [accepted.added]
  refine ⟨CTxMemPool.consistent_addUnchecked _ pool tx ok.consistent accepted.free, ?_, ?_⟩
  · intro other member
    rw [CTxMemPool.addUnchecked, List.mem_cons, List.mem_filter] at member
    rcases member with rfl | ⟨member, -⟩
    · exact accepted.checked
    · exact ok.checked other member
  · intro other member
    rw [CTxMemPool.addUnchecked, List.mem_cons, List.mem_filter] at member
    rcases member with rfl | ⟨member, -⟩
    · exact accepted.regular
    · exact ok.regular other member

theorem nextHeight_tip (env : Environment) (node : Node) (chain : ChainOk env node) :
    nextHeight (node.environment env) node.pcoinsTip = .ok (node.height + 1) := by
  obtain ⟨hash, own, found⟩ := chain.indexed node.tip List.mem_cons_self
  rw [chain.best, Option.some.injEq] at own
  have here : (node.environment env).mapBlockIndex node.pcoinsTip.hashBlock =
      some node.tip.pindex := by
    rw [own]
    exact found
  rw [nextHeight, here]
  rfl

theorem storedUndo_inRange (blockUndo : CBlockUndo) (inRange : UndoInRange blockUndo) :
    UndoInRange (storedUndo blockUndo) := by
  intro txundo member undo among
  rw [storedUndo, List.mem_map] at member
  obtain ⟨written, before, rfl⟩ := member
  obtain ⟨record, inside, rfl⟩ := List.mem_map.mp among
  exact inRange written before record inside

end RoiCoin
