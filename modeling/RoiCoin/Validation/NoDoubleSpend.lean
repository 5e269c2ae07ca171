import RoiCoin.Validation.History
import RoiCoin.Validation.NoAssertion

/-! Chains of connected blocks: no double spend and no lost coin. -/

namespace RoiCoin

open Checked FlatView

/-- A block with its index entry and what the node knew when it connected it. -/
structure ChainBlock where
  env : Environment
  block : CBlock
  pindex : CBlockIndex

namespace ChainBlock

def connect (next : ChainBlock) (view : FlatView) : Checking Connected :=
  connectBlock next.env next.block next.pindex view false

/-- The transactions a connected block adds; those of the genesis block are skipped. -/
def history (next : ChainBlock) : History :=
  if next.env.blockHash next.block.header = next.env.params.hashGenesisBlock then []
  else atHeight next.pindex.nHeight next.block.vtx.reverse

/-- One transaction hash for the whole chain, without collisions inside the block; the index entry
stands one above its parent; BIP30 is in force. -/
structure Regular (getHash : CTransaction → Uint256) (next : ChainBlock) : Prop where
  getHash_eq : next.env.getHash = getHash
  collisionFree : ∀ first ∈ next.block.vtx, ∀ second ∈ next.block.vtx,
    getHash first = getHash second → first = second
  indexed : ∀ hash, next.pindex.pprev = some hash → ∃ parent,
    next.env.mapBlockIndex hash = some parent ∧ next.pindex.nHeight = parent.nHeight + 1
  bip30 : enforceBIP30 next.pindex = true

end ChainBlock

/-- Connect the blocks in order, each on the view the one before it has left. -/
def connectChain (view : FlatView) : List ChainBlock → Checking FlatView
  | [] => .ok view
  | next :: chain => do
      let connected ← next.connect view
      connectChain connected.view chain

def chainHistory : List ChainBlock → History
  | [] => []
  | next :: chain => chainHistory chain ++ next.history

def emptyView : FlatView := ⟨fun _ => none, 0⟩

/-! ## Accounts of a view -/

abbrev noCoins : Ledger.Coins Uint256 Coin := fun _ _ => none

/-- The view holds what the history has left of an empty one. -/
structure Accounted (getHash : CTransaction → Uint256) (history : History) (view : FlatView) :
    Prop where
  reached : view.utxo = Ledger.state noCoins (entries getHash history)
  valid : Ledger.Valid noCoins (entries getHash history)
  spends : SpendsOk getHash noCoins history

theorem accounted_empty (getHash : CTransaction → Uint256) : Accounted getHash [] emptyView :=
  ⟨rfl, trivial, trivial⟩

theorem connectGenesis_utxo (pindex : CBlockIndex) (view : FlatView) (fJustCheck : Bool)
    (result : Connected) (connected : connectGenesis pindex view fJustCheck = .ok result) :
    result.view.utxo = view.utxo := by
  rw [connectGenesis] at connected
  split at connected
  · cases connected
    rfl
  · split at connected
    · cases connected
      rfl
    · cases connected

theorem connect_accounted (getHash : CTransaction → Uint256) (next : ChainBlock) (history : History)
    (view : FlatView) (result : Connected) (regular : next.Regular getHash)
    (accounted : Accounted getHash history view) (connected : next.connect view = .ok result) :
    Accounted getHash (next.history ++ history) result.view := by
  rw [ChainBlock.history]
  rw [ChainBlock.connect] at connected
  by_cases genesis : next.env.blockHash next.block.header = next.env.params.hashGenesisBlock
  · rw [if_pos genesis, List.nil_append]
    rw [connectBlock, if_pos genesis] at connected
    simp only [then_ok] at connected
    have same := connectGenesis_utxo _ _ _ _ connected.2.2
    exact ⟨same.trans accounted.reached, accounted.valid, accounted.spends⟩
  · rw [if_neg genesis]
    obtain ⟨st, passed⟩ := connectBlock_ok _ _ _ _ _ _ genesis connected
    obtain ⟨parent, hash, previous, -, shape⟩ := finishBlock_view _ _ _ _ passed.finished
    obtain ⟨entry, found, above⟩ := regular.indexed parent previous
    have best : view.hashBlock = parent := by rw [← passed.best, previous, Option.getD_some]
    have height : nextHeight next.env view = .ok next.pindex.nHeight := by
      rw [nextHeight, best, found, above]
    have ids := regular.collisionFree
    rw [← regular.getHash_eq] at ids
    have progress := block_progress _ _ _ _ _ _ _ passed regular.bip30 ids
    have utxo : result.view.utxo = st.view.utxo := by rw [shape, utxo_setBestBlock]
    have reached := progress.reached
    have valid := progress.fresh.valid
    have spends := block_spends _ _ _ _ _ _ _ passed height
    rw [regular.getHash_eq, accounted.reached] at reached valid spends
    have whole : entries getHash (atHeight next.pindex.nHeight next.block.vtx.reverse ++ history) =
        entries getHash (atHeight next.pindex.nHeight next.block.vtx.reverse) ++
          entries getHash history := List.map_append
    constructor
    · rw [utxo, reached, whole, Ledger.state_append]
    · rw [whole]
      exact Ledger.valid_append noCoins _ _ valid accounted.valid
    · exact spendsOk_append getHash noCoins _ _ spends accounted.spends

theorem chain_accounted (getHash : CTransaction → Uint256) (chain : List ChainBlock)
    (history : History) (view result : FlatView) (regular : ∀ next ∈ chain, next.Regular getHash)
    (accounted : Accounted getHash history view) (connected : connectChain view chain = .ok result) :
    Accounted getHash (chainHistory chain ++ history) result := by
  induction chain generalizing history view with
  | nil =>
      cases connected
      exact accounted
  | cons next chain ih =>
      rw [connectChain, bind_ok] at connected
      obtain ⟨middle, first, others⟩ := connected
      rw [List.forall_mem_cons] at regular
      have step := connect_accounted getHash next history view middle regular.1 accounted first
      have final := ih (next.history ++ history) middle.view regular.2 step others
      rwa [← List.append_assoc] at final

/-! ## The books of a chain -/

/-- What the history of a chain says about its view. -/
structure Books (getHash : CTransaction → Uint256) (history : History) (view : FlatView) : Prop where
  /-- The unspent outputs are the spendable outputs created minus those spent. -/
  unspent : ∀ id n coin, view.utxo id n = some coin ↔
    ∃ k, Ledger.Creates (entries getHash history) k id n coin ∧
      (some k, n) ∉ Ledger.spent (entries getHash history)
  /-- Every input spends an output created earlier, a coinbase only when it is mature. -/
  sources : ∀ later past nHeight tx, history = later ++ (nHeight, tx) :: past →
    ∀ txin ∈ tx.spentInputs, ∃ k coin,
      Ledger.source (entries getHash past) txin.prevout.name = some k ∧
      Ledger.Creates (entries getHash past) k txin.prevout.hash txin.prevout.n.toNat coin ∧
      (coin.fCoinBase = true → coinbaseMaturity ≤ nHeight - coin.nHeight)
  /-- No output is spent by two inputs. -/
  once : (Ledger.spent (entries getHash history)).Nodup
  /-- No unspent output is overwritten by a transaction with the same id. -/
  kept : ∀ later past nHeight tx, history = later ++ (nHeight, tx) :: past →
    Ledger.Vacant (Ledger.spendAll (Ledger.state noCoins (entries getHash past))
      (tx.spentInputs.map fun txin => txin.prevout.name)) (getHash tx)

theorem valid_suffix (getHash : CTransaction → Uint256) (later past : History)
    (valid : Ledger.Valid noCoins (entries getHash (later ++ past))) :
    Ledger.Valid noCoins (entries getHash past) := by
  induction later with
  | nil => exact valid
  | cons connected later ih => exact ih valid.2

theorem spendsOk_suffix (getHash : CTransaction → Uint256) (later past : History)
    (spends : SpendsOk getHash noCoins (later ++ past)) : SpendsOk getHash noCoins past := by
  induction later with
  | nil => exact spends
  | cons connected later ih => exact ih spends.2

theorem books_of_accounted (getHash : CTransaction → Uint256) (history : History)
    (view : FlatView) (accounted : Accounted getHash history view) :
    Books getHash history view := by
  constructor
  · intro id n coin
    rw [accounted.reached]
    exact Ledger.unspent_iff _ accounted.valid id n coin
  · intro later past nHeight tx split txin member
    have valid := accounted.valid
    have spends := accounted.spends
    rw [split] at valid spends
    obtain ⟨coin, present, ok⟩ := (spendsOk_suffix getHash later _ spends).1 txin member
    have before := (valid_suffix getHash later _ valid).2
    obtain ⟨k, source, made, -⟩ := (Ledger.unspent_source _ before _ _ coin).mp present
    exact ⟨k, coin, source, made, ok.mature⟩
  · exact Ledger.spent_nodup _ accounted.valid
  · intro later past nHeight tx split
    have valid := accounted.valid
    rw [split] at valid
    exact (valid_suffix getHash later _ valid).1.vacant

/-- Every chain of accepted blocks from an empty view keeps its books, and the assertion of
`UpdateCoins` fails in no block offered to it. -/
theorem chain_keeps_books (getHash : CTransaction → Uint256) (chain : List ChainBlock)
    (view : FlatView) (regular : ∀ next ∈ chain, next.Regular getHash)
    (connected : connectChain emptyView chain = .ok view) :
    Books getHash (chainHistory chain) view ∧
      ∀ next : ChainBlock, next.connect view ≠ .error (.assertion .updateCoins) := by
  have accounted := chain_accounted getHash chain [] emptyView view regular
    (accounted_empty getHash) connected
  rw [List.append_nil] at accounted
  exact ⟨books_of_accounted getHash _ view accounted,
    fun next => connectBlock_asserts_not next.env next.block next.pindex view false⟩

/-- The genesis block and one block on top of it. -/
def firstChain : List ChainBlock :=
  [⟨plainEnvironment, ⟨genesisHeader, [coinbasePaying 0]⟩, genesisIndex⟩,
    ⟨plainEnvironment, ⟨firstHeader 7, [coinbasePaying (77 * coin)]⟩, firstIndex 7⟩]

theorem chain_keeps_books_first : ∃ view, connectChain emptyView firstChain = .ok view ∧
    Books plainEnvironment.getHash (chainHistory firstChain) view := by
  have regular : ∀ next ∈ firstChain, next.Regular plainEnvironment.getHash := by
    rw [firstChain, List.forall_mem_cons, List.forall_mem_singleton]
    constructor
    · refine ⟨rfl, ?_, ?_, by decide⟩
      · simp
      · intro hash previous
        cases previous
    · refine ⟨rfl, ?_, ?_, by decide⟩
      · simp
      · intro hash previous
        cases previous
        exact ⟨genesisIndex, by decide, rfl⟩
  obtain ⟨view, connected⟩ :=
    exists_ok (connectChain emptyView firstChain) (by decide +kernel)
  exact ⟨view, connected, (chain_keeps_books _ firstChain view regular connected).1⟩

end RoiCoin
