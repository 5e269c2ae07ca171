import RoiCoin.Validation.Tips

/-! The value of the pool transactions across connected and disconnected blocks. -/

namespace RoiCoin

open Checked FlatView

/-- The value rule of `CheckInputs` at a height; an input that is not there has no value. -/
def ValueRule (env : Environment) (nHeight : Int) (coins : Ledger.Coins Uint256 Coin)
    (tx : CTransaction) : Prop := tx.outputs ≤ inputsWorth env nHeight coins tx.vin + 100

instance (env : Environment) (nHeight : Int) (coins : Ledger.Coins Uint256 Coin)
    (tx : CTransaction) : Decidable (ValueRule env nHeight coins tx) :=
  inferInstanceAs (Decidable (_ ≤ _))

def CTransaction.names (tx : CTransaction) : List (Uint256 × Nat) :=
  tx.vin.map fun txin => txin.prevout.name

theorem inputsWorth_total (env : Environment) (nHeight : Int) (coins : Ledger.Coins Uint256 Coin)
    (tx : CTransaction) :
    inputsWorth env nHeight coins tx.vin = Ledger.total (Coin.worth env nHeight) coins tx.names := by
  rw [inputsWorth, Ledger.total, CTransaction.names, List.map_map]
  rfl

theorem worth_nonneg (env : Environment) (nHeight : Int) (coin : Coin) (inRange : coin.InRange) :
    0 ≤ coin.worth env nHeight :=
  ((moneyRange_iff _).mp (worth_range env nHeight coin inRange)).1

/-- Coins that appear do not break the rule. -/
theorem valueRule_keeps (env : Environment) (nHeight : Int)
    (coins coins' : Ledger.Coins Uint256 Coin) (tx : CTransaction)
    (inRange : Ledger.Each Coin.InRange coins') (keeps : Ledger.Keeps coins coins' tx.names)
    (rule : ValueRule env nHeight coins tx) : ValueRule env nHeight coins' tx := by
  have more := Ledger.total_mono (Coin.worth env nHeight) coins coins' tx.names
    (fun id n coin present => worth_nonneg env nHeight coin (inRange id n coin present)) keeps
  rw [ValueRule, inputsWorth_total] at rule ⊢
  omega

/-- The rule is the same for every active chain that has reached the block before the height. -/
theorem valueRule_reached (env : Environment) (nHeight first second : Int)
    (coins : Ledger.Coins Uint256 Coin) (tx : CTransaction)
    (inRange : Ledger.Each Coin.InRange coins) (one : nHeight - 1 ≤ first)
    (other : nHeight - 1 ≤ second) (rule : ValueRule (env.at first) nHeight coins tx) :
    ValueRule (env.at second) nHeight coins tx := by
  have worth : ∀ coin : Coin, coin.InRange →
      coin.worth (env.at first) nHeight = coin.worth (env.at second) nHeight := by
    intro coin amount
    have nonneg := ((moneyRange_iff _).mp amount).1
    rw [Coin.worth, Coin.worth, CTxOut.getValueWithInterest, CTxOut.getValueWithInterest]
    cases getTermDepositReleaseBlock coin.txout.scriptPubKey with
    | error fault => rfl
    | ok maturationBlock =>
        exact (getInterest_reached env.pow first _ _ _ _ nonneg one).trans
          (getInterest_reached env.pow second _ _ _ _ nonneg other).symm
  have same := Ledger.total_congr _ _ coins tx.names fun out _ coin seen =>
    worth coin (inRange out.1 out.2 coin seen)
  rw [ValueRule, inputsWorth_total] at rule ⊢
  rwa [← same]

/-! ## The pool as pending entries -/

theorem poolEntries_distinct (getHash : CTransaction → Uint256) (pool : CTxMemPool)
    (consistent : pool.Consistent getHash) : Ledger.Distinct (poolEntries getHash pool) := by
  intro first among second among' same
  obtain ⟨tx, member, rfl⟩ := List.mem_map.mp among
  obtain ⟨tx', member', rfl⟩ := List.mem_map.mp among'
  rw [consistent.distinct tx member tx' member' same]

theorem mem_poolIds (getHash : CTransaction → Uint256) (pool : CTxMemPool) (hash : Uint256) :
    hash ∈ (poolEntries getHash pool).map Ledger.Entry.id ↔ ∃ tx ∈ pool.mapTx, getHash tx = hash := by
  rw [poolEntries, List.map_map, List.mem_map]
  rfl

theorem poolEntries_evicts (getHash : CTransaction → Uint256) (freed : Uint256 → Prop)
    (pool pool' : CTxMemPool) (evicted : CTxMemPool.Evicted getHash freed pool pool') :
    Ledger.Evicts freed (poolEntries getHash pool) (poolEntries getHash pool') := by
  constructor
  · intro entry member
    obtain ⟨tx, remains, rfl⟩ := List.mem_map.mp member
    exact List.mem_map_of_mem (evicted.kept tx remains)
  · intro gone among absent owned entry remains out input spends
    obtain ⟨parent, member, rfl⟩ := List.mem_map.mp among
    obtain ⟨tx, member', rfl⟩ := List.mem_map.mp remains
    obtain ⟨txin, spent, rfl⟩ := List.mem_map.mp input
    have input' : txin ∈ tx.vin := by
      rw [CTransaction.spentInputs] at spent
      split at spent
      · cases spent
      · exact spent
    have missing : parent ∉ pool'.mapTx := fun there =>
      absent ((mem_poolIds getHash pool' _).mpr ⟨parent, there, rfl⟩)
    have beyond := evicted.childless parent member missing owned tx member' txin input' spends
    by_contra created
    obtain ⟨coin, some_coin⟩ := Option.ne_none_iff_exists'.mp created
    have within := createdCoin_within mempoolHeight parent _ coin some_coin
    exact absurd within (Nat.not_lt.mpr beyond)

/-- What a transaction that stays in the pool sees of a coin. -/
theorem pool_sees (getHash : CTransaction → Uint256) (freed : Uint256 → Prop) (pool pool' : CTxMemPool)
    (start start' : Ledger.Coins Uint256 Coin) (ok : PoolOk getHash pool)
    (evicted : CTxMemPool.Evicted getHash freed pool pool') (tx : CTransaction)
    (remains : tx ∈ pool'.mapTx) (out : Uint256 × Nat) (input : out ∈ tx.names) (coin : Coin)
    (owned : ¬ freed out.1)
    (below : out.1 ∉ (poolEntries getHash pool).map Ledger.Entry.id →
      start out.1 out.2 = some coin → start' out.1 out.2 = some coin)
    (seen : Ledger.lookup start (poolEntries getHash pool) out.1 out.2 = some coin) :
    Ledger.lookup start' (poolEntries getHash pool') out.1 out.2 = some coin := by
  have regular := ok.regular tx (evicted.kept tx remains)
  have spends : out ∈ (ledgerEntry getHash mempoolHeight tx).inputs := by
    rw [ledgerEntry, spentInputs_regular tx regular]
    exact input
  exact Ledger.lookup_evicts freed start start' _ _
    (poolEntries_distinct getHash pool ok.consistent)
    (poolEntries_evicts getHash freed pool pool' evicted) _
    (List.mem_map_of_mem remains) out spends coin owned below seen

theorem pool_inRange (getHash : CTransaction → Uint256) (start : Ledger.Coins Uint256 Coin) (pool : CTxMemPool)
    (ok : PoolOk getHash pool) (inRange : Ledger.Each Coin.InRange start) :
    Ledger.Each Coin.InRange (Ledger.lookup start (poolEntries getHash pool)) := by
  apply Ledger.each_lookup _ _ _ inRange
  intro entry member n coin created
  obtain ⟨tx, among, rfl⟩ := List.mem_map.mp member
  exact createdCoin_inRange mempoolHeight tx (ok.checked tx among) n coin created

theorem poolEntries_add (getHash : CTransaction → Uint256) (pool : CTxMemPool) (tx : CTransaction)
    (new : pool.lookup getHash (getHash tx) = none) :
    poolEntries getHash (pool.addUnchecked getHash tx) =
      ledgerEntry getHash mempoolHeight tx :: poolEntries getHash pool := by
  have all : pool.mapTx.filter (fun other => getHash other != getHash tx) = pool.mapTx := by
    rw [List.filter_eq_self]
    intro other member
    have different := (CTxMemPool.lookup_none getHash pool _).mp new other member
    simpa using different
  rw [poolEntries, CTxMemPool.addUnchecked]
  dsimp only
  rw [all, List.map_cons]
  rfl

/-! ## Acceptance -/

/-- The transactions that are there keep their coins. -/
theorem accepted_keeps (env : Environment) (view : FlatView) (pool pool' : CTxMemPool)
    (tx : CTransaction) (accepted : Accepted env view pool tx pool') (inputs : List (Uint256 × Nat)) :
    Ledger.Keeps (Ledger.lookup view.utxo (poolEntries env.getHash pool))
      (Ledger.lookup view.utxo (poolEntries env.getHash pool')) inputs := by
  intro out _ coin seen
  have vacant := accepted.vacant out.2
  rw [utxo_memPoolView] at vacant
  rw [accepted.added, poolEntries_add env.getHash pool tx accepted.new, Ledger.lookup, Ledger.create]
  split
  · rename_i own
    have own : out.1 = env.getHash tx := own
    rw [own, vacant] at seen
    cases seen
  · exact seen

theorem accepted_rule (env : Environment) (view : FlatView) (pool pool' : CTxMemPool)
    (tx : CTransaction) (nHeight : Int) (accepted : Accepted env view pool tx pool')
    (height : nextHeight env view = .ok nHeight) :
    ValueRule env nHeight (Ledger.lookup view.utxo (poolEntries env.getHash pool)) tx := by
  obtain ⟨nSpendHeight, same, inputs⟩ := accepted.spends
  rw [height] at same
  cases same
  rw [utxo_memPoolView] at inputs
  exact inputs.covered

/-- Every transaction of the pool satisfies the rule in the next block. -/
def PoolValued (env : Environment) (node : Node) : Prop :=
  ∀ tx ∈ node.mempool.mapTx,
    ValueRule (node.environment env) (node.height + 1) (node.poolCoins env) tx

theorem poolCoins_lookup (env : Environment) (node : Node) :
    node.poolCoins env =
      Ledger.lookup node.pcoinsTip.utxo (poolEntries env.getHash node.mempool) :=
  utxo_memPoolView env.getHash node.pcoinsTip node.mempool

theorem accept_step (env : Environment) (policy : RelayPolicy) (tx : CTransaction)
    (node node' : Node) (ok : NodeOk env node) (valued : PoolValued env node)
    (accepted : node.accept env policy tx = .ok node') :
    NodeOk env node' ∧ PoolValued env node' := by
  simp only [Node.accept, bind_ok, pure_ok] at accepted
  obtain ⟨pool, added, rfl⟩ := accepted
  have passed := acceptToMemoryPool_ok _ policy node.pcoinsTip node.mempool pool tx added
  have poolOk : PoolOk env.getHash pool :=
    poolOk_accepted (node.environment env) _ _ _ tx ok.pool passed
  have inRange := pool_inRange env.getHash _ pool poolOk ok.chain.inRange
  have keeps := accepted_keeps _ _ _ _ tx passed
  refine ⟨⟨⟨ok.chain.best, ok.chain.indexed, ok.chain.linked, ok.chain.inRange, ok.chain.undo⟩,
    poolOk⟩, ?_⟩
  intro other member
  rw [poolCoins_lookup]
  apply valueRule_keeps _ _ _ _ other inRange (keeps other.names)
  have before : other ∈ tx :: node.mempool.mapTx := by
    rw [passed.added, CTxMemPool.addUnchecked, List.mem_cons, List.mem_filter] at member
    rw [List.mem_cons]
    exact member.imp_right And.left
  rcases List.mem_cons.mp before with rfl | before
  · exact accepted_rule _ _ _ _ other _ passed (nextHeight_tip env node ok.chain)
  · have rule := valued other before
    rwa [poolCoins_lookup] at rule

/-! ## Connection -/

/-- The coins as they were before the block, the outputs of the block included. -/
def connectCoins (env : Environment) (node : Node) (block : CBlock) (pindexNew : CBlockIndex) :
    Ledger.Coins Uint256 Coin :=
  Ledger.lookup (node.poolCoins env)
    (entries env.getHash (atHeight pindexNew.nHeight block.vtx.reverse))

theorem mem_blockIds (getHash : CTransaction → Uint256) (nHeight : Int) (vtx : List CTransaction)
    (hash : Uint256) :
    hash ∈ (entries getHash (atHeight nHeight vtx.reverse)).map Ledger.Entry.id ↔
      hash ∈ vtx.map getHash := by
  rw [entries, atHeight, List.map_map, List.map_map, List.map_reverse, List.mem_reverse]
  rfl

/-- A transaction that stays in the pool sees its coins with the outputs of the block in them. -/
theorem connect_keeps (env : Environment) (node : Node) (block : CBlock) (pindexNew : CBlockIndex)
    (utxo : Ledger.Coins Uint256 Coin) (pool : CTxMemPool) (ok : PoolOk env.getHash node.mempool)
    (reached : utxo = Ledger.state node.pcoinsTip.utxo
      (entries env.getHash (atHeight pindexNew.nHeight block.vtx.reverse)))
    (removed : CTxMemPool.BlockRemoved env.getHash block.vtx node.mempool pool) (tx : CTransaction)
    (remains : tx ∈ pool.mapTx) :
    Ledger.Keeps (connectCoins env node block pindexNew)
      (Ledger.lookup utxo (poolEntries env.getHash pool)) tx.names := by
  intro out input coin seen
  obtain ⟨spender, among, rfl⟩ := List.mem_map.mp input
  rw [connectCoins, poolCoins_lookup] at seen
  have unspent := Ledger.state_unspent node.pcoinsTip.utxo
    (entries env.getHash (atHeight pindexNew.nHeight block.vtx.reverse)) spender.prevout.name ?_
  · rw [← reached] at unspent
    by_cases created : spender.prevout.name.1 ∈
        (entries env.getHash (atHeight pindexNew.nHeight block.vtx.reverse)).map Ledger.Entry.id
    · -- an output of the block, which is not in the pool any more
      have away : spender.prevout.name.1 ∉ (poolEntries env.getHash pool).map Ledger.Entry.id := by
        rw [mem_poolIds]
        rintro ⟨other, member, same⟩
        rw [mem_blockIds, ← same] at created
        exact removed.away other member created
      rw [Ledger.lookup_notMem _ _ _ _ away, unspent, ← seen]
      exact Ledger.lookup_mem _ _ _ _ _ created
    · rw [Ledger.lookup_notMem _ _ _ _ created] at seen
      apply pool_sees env.getHash _ node.mempool pool node.pcoinsTip.utxo utxo ok removed.evicted
        tx remains _ input coin _ _ seen
      · exact fun freed => created ((mem_blockIds env.getHash _ _ _).mpr freed)
      · intro _ below
        rw [unspent, Ledger.lookup_notMem _ _ _ _ created]
        exact below
  · intro entry member spends
    rw [entries, atHeight, List.map_map, List.mem_map] at member
    obtain ⟨connected, inBlock, rfl⟩ := member
    obtain ⟨txin, spent, same⟩ := List.mem_map.mp spends
    have spent' : txin ∈ connected.vin := by
      rw [CTransaction.spentInputs] at spent
      split at spent
      · cases spent
      · exact spent
    exact removed.unspent tx remains spender among connected (List.mem_reverse.mp inBlock) txin
      spent' (name_injective _ _ same).symm

theorem connect_step (env : Environment) (block : CBlock) (pindexNew : CBlockIndex)
    (node node' : Node) (ok : NodeOk env node)
    (offered : (NodeStep.connectTip block pindexNew).Offered env)
    (covered : ∀ tx ∈ node.mempool.mapTx, tx ∈ node'.mempool.mapTx →
      ValueRule (env.at pindexNew.nHeight) (pindexNew.nHeight + 1)
        (connectCoins env node block pindexNew) tx)
    (connected : node.connectTip env block pindexNew = .ok node') :
    NodeOk env node' ∧ PoolValued env node' := by
  simp only [Node.connectTip, bind_ok, require_ok, pure_ok] at connected
  obtain ⟨_, onTip, result, accepted, rfl⟩ := connected
  obtain ⟨regular, ⟨hash, own, indexed⟩, above⟩ := offered
  obtain ⟨st, passed⟩ := connectBlock_ok (node.environment env) block pindexNew node.pcoinsTip false
    result regular accepted
  obtain ⟨parent, hash', previous, own', shape⟩ := finishBlock_view _ _ _ _ passed.finished
  rw [own] at own'
  cases own'
  have coins := connectTxs_coins _ _ 0 block.vtx _ st passed.checked.checked passed.connected
  have utxo : result.view.utxo = st.view.utxo := by rw [shape, utxo_setBestBlock]
  have reached : result.view.utxo = Ledger.state node.pcoinsTip.utxo
      (entries env.getHash (atHeight pindexNew.nHeight block.vtx.reverse)) :=
    utxo.trans coins.reached
  have inRange : Ledger.Each Coin.InRange result.view.utxo := by
    rw [utxo]
    exact coins.inRange ok.chain.inRange
  have removed := CTxMemPool.removeForBlock_removed env.getHash block.vtx node.mempool
    ok.pool.consistent
  have poolOk := poolOk_evicted env.getHash _ _ _ ok.pool removed.evicted
  refine ⟨⟨⟨?_, ?_, ?_, inRange, ?_⟩, poolOk⟩, ?_⟩
  · rw [shape]
    exact own
  · rw [List.forall_mem_cons]
    exact ⟨⟨hash, own, indexed⟩, ok.chain.indexed⟩
  · refine ⟨⟨onTip, ?_⟩, ok.chain.linked⟩
    obtain ⟨best, isTip, inIndex⟩ := ok.chain.indexed node.tip List.mem_cons_self
    obtain ⟨entry, found, height⟩ := above best (onTip.trans isTip)
    rw [inIndex] at found
    cases found
    exact height
  · rw [List.forall_mem_cons]
    refine ⟨?_, ok.chain.undo⟩
    intro blockUndo written
    rw [shape] at written
    cases written
    apply storedUndo_inRange
    exact coins.undo ok.chain.inRange (by simp [UndoInRange])
  · intro tx remains
    have keeps := connect_keeps env node block pindexNew result.view.utxo _ ok.pool reached removed
      tx remains
    rw [poolCoins_lookup]
    exact valueRule_keeps _ _ _ _ tx (pool_inRange env.getHash _ _ poolOk inRange) keeps
      (covered tx (removed.evicted.kept tx remains) remains)

/-! ## Disconnection -/

/-- The coins as they were before the disconnection, the outputs of the block as those of pool
transactions. -/
def disconnectCoins (env : Environment) (node : Node) : Ledger.Coins Uint256 Coin :=
  Ledger.lookup
    (Ledger.lookup node.pcoinsTip.utxo
      (node.tip.block.vtx.map (ledgerEntry env.getHash mempoolHeight)))
    (poolEntries env.getHash node.mempool)

/-- The pool while the transactions of a disconnected block are put back. A transaction that was in
the pool before sees its coins as if the rest of the block were there; a transaction of the block
satisfies the rule. -/
structure Resurrecting (env : Environment) (nHeight : Int) (predicted : Ledger.Coins Uint256 Coin)
    (start : CTxMemPool) (utxo : Ledger.Coins Uint256 Coin) (rest : List CTransaction)
    (pool : CTxMemPool) : Prop where
  ok : PoolOk env.getHash pool
  either : ∀ tx ∈ pool.mapTx,
    (tx ∈ start.mapTx ∧
      Ledger.Keeps predicted
        (Ledger.lookup (Ledger.lookup utxo (rest.map (ledgerEntry env.getHash mempoolHeight)))
          (poolEntries env.getHash pool)) tx.names) ∨
      ValueRule env nHeight (Ledger.lookup utxo (poolEntries env.getHash pool)) tx

theorem resurrecting_accept (env : Environment) (predicted : Ledger.Coins Uint256 Coin)
    (start : CTxMemPool) (view : FlatView) (rest : List CTransaction) (pool pool' : CTxMemPool)
    (tx : CTransaction) (nHeight chainHeight : Int) (reached : nHeight - 1 ≤ env.chainHeight)
    (lower : nHeight - 1 ≤ chainHeight) (inRange : Ledger.Each Coin.InRange view.utxo)
    (height : nextHeight env view = .ok nHeight) (accepted : Accepted env view pool tx pool')
    (state : Resurrecting (env.at chainHeight) nHeight predicted start view.utxo (tx :: rest) pool) :
    Resurrecting (env.at chainHeight) nHeight predicted start view.utxo rest pool' := by
  have ok : PoolOk env.getHash pool' := poolOk_accepted env view pool pool' tx state.ok accepted
  have within := pool_inRange env.getHash view.utxo pool' ok inRange
  have keeps := accepted_keeps env view pool pool' tx accepted
  refine ⟨ok, ?_⟩
  intro other member
  have before : other ∈ tx :: pool.mapTx := by
    rw [accepted.added, CTxMemPool.addUnchecked, List.mem_cons, List.mem_filter] at member
    rw [List.mem_cons]
    exact member.imp_right And.left
  rcases List.mem_cons.mp before with rfl | before
  · right
    have rule := accepted_rule env view pool pool' other nHeight accepted height
    have rule' := valueRule_keeps env nHeight _ _ other within (keeps other.names) rule
    exact valueRule_reached env nHeight env.chainHeight chainHeight _ other within reached lower
      rule'
  · rcases state.either other before with ⟨old, sees⟩ | rule
    · left
      refine ⟨old, ?_⟩
      -- the accepted transaction moves from the rest of the block into the pool
      have new : (ledgerEntry env.getHash mempoolHeight tx).id ∉
          (poolEntries env.getHash pool).map Ledger.Entry.id := by
        rw [mem_poolIds]
        rintro ⟨there, among, same⟩
        exact (CTxMemPool.lookup_none env.getHash pool _).mp accepted.new there among same
      have moved := Ledger.lookup_create
        (Ledger.lookup view.utxo (rest.map (ledgerEntry env.getHash mempoolHeight)))
        (poolEntries env.getHash pool) _ new
      have added := poolEntries_add env.getHash pool tx accepted.new
      rw [← accepted.added] at added
      have same : Ledger.lookup
          (Ledger.lookup view.utxo (rest.map (ledgerEntry env.getHash mempoolHeight)))
          (poolEntries env.getHash pool') =
          Ledger.lookup (Ledger.lookup view.utxo
            ((tx :: rest).map (ledgerEntry env.getHash mempoolHeight)))
            (poolEntries env.getHash pool) := by
        rw [added, Ledger.lookup, List.map_cons, Ledger.lookup, moved]
      exact same ▸ sees
    · right
      exact valueRule_keeps _ nHeight _ _ other within (keeps other.names) rule

theorem evicted_keeps (getHash : CTransaction → Uint256) (start : Ledger.Coins Uint256 Coin)
    (pool pool' : CTxMemPool) (ok : PoolOk getHash pool)
    (evicted : CTxMemPool.Evicted getHash (fun _ => False) pool pool') (tx : CTransaction)
    (remains : tx ∈ pool'.mapTx) :
    Ledger.Keeps (Ledger.lookup start (poolEntries getHash pool))
      (Ledger.lookup start (poolEntries getHash pool')) tx.names := by
  intro out input coin seen
  exact pool_sees getHash _ pool pool' start start ok evicted tx remains out input coin
    (fun impossible => impossible) (fun _ below => below) seen

theorem resurrecting_remove (env : Environment) (predicted : Ledger.Coins Uint256 Coin)
    (start : CTxMemPool) (utxo : Ledger.Coins Uint256 Coin) (rest : List CTransaction)
    (pool : CTxMemPool) (tx : CTransaction) (nHeight : Int)
    (inRange : Ledger.Each Coin.InRange utxo)
    (state : Resurrecting env nHeight predicted start utxo (tx :: rest) pool) :
    Resurrecting env nHeight predicted start utxo rest (pool.remove env.getHash tx true) := by
  obtain ⟨evicted, orphaned⟩ :=
    CTxMemPool.remove_recursive env.getHash pool state.ok.consistent tx
  have ok := poolOk_evicted env.getHash _ _ _ state.ok evicted
  refine ⟨ok, ?_⟩
  intro other remains
  rcases state.either other (evicted.kept other remains) with ⟨old, sees⟩ | rule
  · left
    refine ⟨old, Ledger.keeps_trans _ _ _ _ sees ?_⟩
    intro out input coin seen
    apply pool_sees env.getHash _ pool _ _ _ state.ok evicted other remains out input coin
      (fun impossible => impossible) _ seen
    intro outside below
    rw [List.map_cons, Ledger.lookup, Ledger.create] at below
    split at below
    · -- an output of the transaction itself, whose children have gone
      rename_i own
      have own : out.1 = env.getHash tx := own
      rw [own, mem_poolIds] at outside
      have absent : pool.lookup env.getHash (env.getHash tx) = none := by
        rw [CTxMemPool.lookup_none]
        exact fun there member same => outside ⟨there, member, same⟩
      obtain ⟨txin, spends, rfl⟩ := List.mem_map.mp input
      have beyond := orphaned absent other remains txin spends own
      exact absurd (createdCoin_within mempoolHeight tx _ coin below) (Nat.not_lt.mpr beyond)
    · exact below
  · right
    exact valueRule_keeps env nHeight _ _ other (pool_inRange env.getHash utxo _ ok inRange)
      (evicted_keeps env.getHash utxo pool _ state.ok evicted other remains) rule

theorem resurrecting_all (env : Environment) (policy : RelayPolicy)
    (predicted : Ledger.Coins Uint256 Coin) (start : CTxMemPool) (view : FlatView)
    (vtx : List CTransaction) (pool pool' : CTxMemPool) (nHeight chainHeight : Int)
    (reached : nHeight - 1 ≤ env.chainHeight) (lower : nHeight - 1 ≤ chainHeight)
    (inRange : Ledger.Each Coin.InRange view.utxo) (height : nextHeight env view = .ok nHeight)
    (state : Resurrecting (env.at chainHeight) nHeight predicted start view.utxo vtx pool)
    (resurrected : resurrectAll env policy view pool vtx = .ok pool') :
    Resurrecting (env.at chainHeight) nHeight predicted start view.utxo [] pool' := by
  induction vtx generalizing pool with
  | nil =>
      cases resurrected
      exact state
  | cons tx vtx ih =>
      rw [resurrectAll, bind_ok] at resurrected
      obtain ⟨middle, first, others⟩ := resurrected
      refine ih middle ?_ others
      have removed := resurrecting_remove (env.at chainHeight) predicted start view.utxo vtx pool tx
        nHeight inRange state
      rw [resurrect] at first
      split at first
      · cases first
        exact removed
      · split at first
        · rename_i accepted
          cases first
          exact resurrecting_accept env predicted start view vtx pool middle tx nHeight chainHeight
            reached lower inRange height (acceptToMemoryPool_ok env policy view pool middle tx
              accepted) state
        · cases first
          exact removed
        · cases first
          exact removed
        · cases first

theorem disconnect_step (env : Environment) (policy : RelayPolicy) (node node' : Node)
    (ok : NodeOk env node)
    (covered : ∀ tx ∈ node.mempool.mapTx, tx ∈ node'.mempool.mapTx →
      ValueRule (node'.environment env) (node'.height + 1) (disconnectCoins env node) tx)
    (disconnected : node.disconnectTip env policy = .ok node') :
    NodeOk env node' ∧ PoolValued env node' := by
  obtain ⟨top, below, pcoinsTip, mempool⟩ := node
  rw [Node.disconnectTip] at disconnected
  cases below with
  | nil => cases disconnected
  | cons tip below =>
      simp only [bind_ok, require_ok, pure_ok] at disconnected
      obtain ⟨result, undone, _, clean, pool, resurrected, rfl⟩ := disconnected
      obtain ⟨⟨best, indexed, ⟨⟨previous, above⟩, linked⟩, inRange, undo⟩, poolOk⟩ := ok
      rw [List.forall_mem_cons] at indexed undo
      have amounts : ∀ blockUndo, readStored top = .ok blockUndo → UndoInRange blockUndo := by
        intro blockUndo read
        apply undo.1
        rw [readStored] at read
        split at read
        · cases read
          assumption
        · cases read
      obtain ⟨coins, newBest⟩ := disconnectBlock_disconnected _ _ _ _ _ result amounts undone
      obtain ⟨hash, isTip, inIndex⟩ := indexed.2 tip List.mem_cons_self
      have bestHash : result.view.hashBlock = hash := by
        rw [newBest, previous, isTip, Option.getD_some]
      have inRange' := coins.inRange inRange
      let node : Node := ⟨top, tip :: below, pcoinsTip, mempool⟩
      have height : nextHeight (node.environment env) result.view =
          .ok (tip.pindex.nHeight + 1) := by
        have found : (node.environment env).mapBlockIndex result.view.hashBlock =
            some tip.pindex := by
          rw [bestHash]
          exact inIndex
        rw [nextHeight, found]
      have start : Resurrecting ((node.environment env).at tip.pindex.nHeight)
          (tip.pindex.nHeight + 1) (disconnectCoins env node) mempool result.view.utxo
          top.block.vtx mempool := by
        refine ⟨poolOk, ?_⟩
        intro tx member
        left
        refine ⟨member, ?_⟩
        -- outside the block a clean disconnection keeps every coin
        intro out _ coin seen
        refine Ledger.lookup_below _ _ _ out coin (fun _ => ?_) seen
        refine Ledger.lookup_below _ _ _ out coin (fun outside => ?_)
        apply coins.kept clean
        rw [List.map_map] at outside
        exact outside
      have final := resurrecting_all (node.environment env) policy (disconnectCoins env node) mempool
        result.view top.block.vtx mempool pool (tip.pindex.nHeight + 1) tip.pindex.nHeight
        (by rw [above.symm]; exact Int.sub_le_self _ (by decide)) (by omega) inRange' height start
        resurrected
      have evicted := CTxMemPool.removeCoinbaseSpends_evicted env.getHash result.view node.height
        pool final.ok.consistent
      have poolOk' := poolOk_evicted env.getHash _ _ _ final.ok evicted
      have within := pool_inRange env.getHash result.view.utxo _ poolOk' inRange'
      refine ⟨⟨⟨?_, indexed.2, linked, inRange', undo.2⟩, poolOk'⟩, ?_⟩
      · rw [isTip, ← bestHash]
      · intro tx remains
        have keeps := evicted_keeps env.getHash result.view.utxo pool _ final.ok evicted tx remains
        rw [poolCoins_lookup]
        rcases final.either tx (evicted.kept tx remains) with ⟨old, sees⟩ | rule
        · exact valueRule_keeps _ _ _ _ tx within (Ledger.keeps_trans _ _ _ _ sees keeps)
            (covered tx old remains)
        · exact valueRule_keeps _ _ _ _ tx within keeps rule

/-! ## Runs -/

namespace NodeStep

/-- The step succeeds and leaves a transaction of the pool in it. -/
def Leaves (env : Environment) (node : Node) (step : NodeStep) (tx : CTransaction) : Prop :=
  tx ∈ node.mempool.mapTx ∧
    ∃ node', step.attempt env node = .ok node' ∧ tx ∈ node'.mempool.mapTx

/-- The transactions a step leaves in the pool are worth enough at the height it moves to, by the
coins before the step. -/
def Covered (env : Environment) (node : Node) : NodeStep → Prop
  | acceptToMemoryPool _ _ => True
  | connectTip block pindexNew => ∀ tx, (connectTip block pindexNew).Leaves env node tx →
      ValueRule (env.at pindexNew.nHeight) (pindexNew.nHeight + 1)
        (connectCoins env node block pindexNew) tx
  | disconnectTip policy => ∀ parent ∈ node.below.head?, ∀ tx,
      (disconnectTip policy).Leaves env node tx →
        ValueRule (env.at parent.pindex.nHeight) (parent.pindex.nHeight + 1)
          (disconnectCoins env node) tx

end NodeStep

/-- Every step of a run is covered where it is taken. -/
def RunCovered (env : Environment) (node : Node) : List NodeStep → Prop
  | [] => True
  | step :: steps => step.Covered env node ∧ RunCovered env (step.run env node) steps

theorem disconnectTip_tip (env : Environment) (policy : RelayPolicy) (node node' : Node)
    (disconnected : node.disconnectTip env policy = .ok node') :
    node.below.head? = some node'.tip := by
  rw [Node.disconnectTip] at disconnected
  split at disconnected
  · cases disconnected
  · rename_i tip below shape
    simp only [bind_ok, require_ok, pure_ok] at disconnected
    obtain ⟨_, _, _, _, _, _, rfl⟩ := disconnected
    rw [shape]
    rfl

theorem run_step (env : Environment) (node : Node) (step : NodeStep) (ok : NodeOk env node)
    (valued : PoolValued env node) (offered : step.Offered env) (covered : step.Covered env node) :
    NodeOk env (step.run env node) ∧ PoolValued env (step.run env node) := by
  rw [NodeStep.run]
  cases outcome : step.attempt env node with
  | error failure => exact ⟨ok, valued⟩
  | ok node' =>
      cases step with
      | acceptToMemoryPool policy tx =>
          exact accept_step env policy tx node node' ok valued outcome
      | connectTip block pindexNew =>
          apply connect_step env block pindexNew node node' ok offered _ outcome
          intro tx old remains
          exact covered tx ⟨old, node', outcome, remains⟩
      | disconnectTip policy =>
          apply disconnect_step env policy node node' ok _ outcome
          intro tx old remains
          have tip := disconnectTip_tip env policy node node' outcome
          exact covered node'.tip tip tx ⟨old, node', outcome, remains⟩

theorem run_steps (env : Environment) (node : Node) (steps : List NodeStep) (ok : NodeOk env node)
    (valued : PoolValued env node) (offered : ∀ step ∈ steps, step.Offered env)
    (covered : RunCovered env node steps) : PoolValued env (runNode env node steps) := by
  induction steps generalizing node with
  | nil => exact valued
  | cons step steps ih =>
      rw [List.forall_mem_cons] at offered
      obtain ⟨ok', valued'⟩ := run_step env node step ok valued offered.1 covered.1
      exact ih _ ok' valued' offered.2 covered.2

def tallHeader (hashPrevBlock : Uint256) : CBlockHeader :=
  ⟨1, hashPrevBlock, 7, 0, 0x2000ffff, 0, 0, 0⟩

def tallIndex (hash hashPrev : Uint256) (nHeight : Int) : CBlockIndex :=
  .ofHeader (tallHeader hashPrev) (some hash) (some hashPrev) nHeight

/-- The blocks with hashes four, three and one stand at heights 999, 1000 and 1001. -/
def tallEnvironment : Environment :=
  { plainEnvironment with
    mapBlockIndex hash :=
      if hash = 4 then some (tallIndex 4 5 999)
      else if hash = 3 then some (tallIndex 3 4 1000)
      else if hash = 1 then some (tallIndex 1 3 1001)
      else none }

def hundredCoins : CCoins := ⟨false, [some ⟨100 * coin, []⟩], 1000, 1⟩

def tallNode : Node where
  tip := ⟨⟨tallHeader 4, [coinbasePaying 0]⟩, tallIndex 3 4 1000, some []⟩
  below := [⟨⟨tallHeader 5, [coinbasePaying 0]⟩, tallIndex 4 5 999, some []⟩]
  pcoinsTip := ⟨fun hash => if hash = 9 then some hundredCoins else none, 3⟩
  mempool := .empty

def freePolicy : RelayPolicy where
  isStandardTx _ := none
  checkFinalTx _ := true
  areInputsStandard _ _ := true
  checkFees _ _ := .ok ()

/-- Spend the coin to one output. -/
def spendingTo (nValue : Int) : CTransaction := ⟨1, [⟨⟨9, 0⟩, [], 0⟩], [⟨nValue, []⟩], 0⟩

def nextBlock : CBlock := ⟨tallHeader 3, [coinbasePaying 0]⟩

/-- Connect a block, accept the transaction and disconnect the block. -/
def reorganise (nValue : Int) : List NodeStep :=
  [.connectTip nextBlock (tallIndex 1 3 1001),
    .acceptToMemoryPool freePolicy (spendingTo nValue),
    .disconnectTip freePolicy]

theorem tallNode_chain : ChainOk tallEnvironment tallNode := by
  refine ⟨rfl, ?_, ?_, ?_, ?_⟩
  · rw [tallNode, List.forall_mem_cons, List.forall_mem_singleton]
    exact ⟨⟨3, by decide⟩, ⟨4, by decide⟩⟩
  · exact ⟨by decide, trivial⟩
  · intro id n held present
    rw [FlatView.utxo, tallNode] at present
    dsimp only at present
    split at present
    · rw [Option.bind_some, CCoins.coin, Option.map_eq_some_iff] at present
      obtain ⟨txout, output, rfl⟩ := present
      have first : n = 0 := by
        have inside := Slots.slot_lt _ _ _ output
        simpa [hundredCoins] using inside
      rw [first] at output
      cases output
      show moneyRange (100 * coin) = true
      decide
    · cases present
  · rw [tallNode, List.forall_mem_cons, List.forall_mem_singleton]
    constructor
    · intro blockUndo written
      cases written
      simp [UndoInRange]
    · intro blockUndo written
      cases written
      simp [UndoInRange]

theorem reorganise_offered (nValue : Int) :
    ∀ step ∈ reorganise nValue, step.Offered tallEnvironment := by
  rw [reorganise, List.forall_mem_cons, List.forall_mem_cons, List.forall_mem_singleton]
  refine ⟨⟨by decide, ⟨1, by decide⟩, ?_⟩, trivial, trivial⟩
  intro hash previous
  cases previous
  exact ⟨tallIndex 3 4 1000, by decide, by decide⟩

end RoiCoin
