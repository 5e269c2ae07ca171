import RoiCoin.Validation.UndoTransaction

/-! Disconnecting a block undoes connecting it. -/

namespace RoiCoin

open Checked CCoins FlatView

/-! ## Coins that the undo format can hold -/

theorem createdCoin_ok (nHeight : Int) (tx : CTransaction) (checked : CheckedTransaction tx)
    (mined : 1 ≤ nHeight) (height : nHeight < 2 ^ 31) (version : tx.nVersion < 2 ^ 31) (n : Nat)
    (coin : Coin) (created : createdCoin nHeight tx n = some coin) : CoinOk coin := by
  rw [createdCoin, Option.map_eq_some_iff] at created
  obtain ⟨txout, found, rfl⟩ := created
  have member : txout ∈ tx.vout := by
    rw [spendable, Option.filter_eq_some_iff, Option.bind_eq_some_iff] at found
    obtain ⟨⟨txout', read, unspent⟩, -⟩ := found
    rw [CTxOut.unspent] at unspent
    split at unspent
    · cases unspent
    · cases unspent
      exact List.mem_of_getElem? read
  have size := Nat.le_trans (script_length_le tx txout member) checked.sized
  have bound : maxBlockSize = 1000000 := rfl
  have six : nSpecialScripts = 6 := rfl
  exact ⟨mined, height, version, by dsimp only; omega⟩

theorem coinsOk_apply (coins : Ledger.Coins Uint256 Coin) (entry : Ledger.Entry Uint256 Coin)
    (ok : CoinsOk coins) (created : ∀ n coin, entry.outputs n = some coin → CoinOk coin) :
    CoinsOk (Ledger.apply coins entry) := by
  intro id n coin present
  by_cases own : id = entry.id
  · rw [own, Ledger.apply_id] at present
    exact created n coin present
  · rw [Ledger.apply_other _ _ _ _ own] at present
    exact coinsOk_spendAll coins entry.inputs ok id n coin present

theorem ofSpent_storable (coins : CCoins) (n : Nat) (txout : CTxOut)
    (amount : moneyRange txout.nValue = true)
    (ok : CoinOk ⟨txout, coins.nHeight, coins.fCoinBase, coins.nVersion⟩) :
    (CTxInUndo.ofSpent txout (coins.spend n)).Storable := by
  obtain ⟨sameHeight, -, sameVersion⟩ := spend_fields coins n
  have mined := ok.mined
  have height := ok.height
  have version := ok.version
  rw [CTxInUndo.ofSpent]
  split
  · refine ⟨?_, ?_, amount, ok.script⟩
    · have word : unsigned32 coins.nHeight < 2 ^ 31 := by
        rw [unsigned32]
        dsimp only at height mined
        omega
      rw [sameHeight]
      exact word
    · rw [sameVersion]
      exact version
  · exact ⟨Nat.pow_pos (by decide), Int.pow_pos (by decide), amount, ok.script⟩

theorem spendInputs_storable (vin : List CTxIn) (view view' : FlatView) (txundo : CTxUndo)
    (spent : spendInputs view vin = .ok (txundo, view')) (ok : CoinsOk view.utxo)
    (amount : ∀ txin ∈ vin, ∀ coin,
      view.utxo txin.prevout.hash txin.prevout.n.toNat = some coin →
        moneyRange coin.txout.nValue = true) :
    ∀ undo ∈ txundo, undo.Storable := by
  induction vin generalizing view txundo with
  | nil =>
      cases spent
      simp
  | cons txin vin ih =>
      simp only [spendInputs, bind_ok, pure_ok, Prod.exists, Prod.mk.injEq] at spent
      obtain ⟨undo, middle, first, rest, last, others, rfl, rfl⟩ := spent
      rw [List.forall_mem_cons] at amount
      have utxo := (utxo_spendInput view middle txin undo first).1
      obtain ⟨txout, output, rfl, -⟩ := (spendInput_ok view middle txin undo).mp first
      have present : view.utxo txin.prevout.hash txin.prevout.n.toNat =
          some ⟨txout, (view.record txin.prevout.hash).nHeight,
            (view.record txin.prevout.hash).fCoinBase,
            (view.record txin.prevout.hash).nVersion⟩ := by
        rw [← coin_record, CCoins.coin, output]
        rfl
      rw [List.forall_mem_cons]
      constructor
      · exact ofSpent_storable _ _ txout (amount.1 _ present) (ok _ _ _ present)
      · apply ih middle rest others
        · rw [utxo]
          exact coinsOk_spendAll _ _ ok
        · intro other member coin there
          rw [utxo, Ledger.spendAll] at there
          split at there
          · cases there
          · exact amount.2 other member coin there

/-! ## One transaction -/

/-- What the undo of a transaction needs to know about the view before it. -/
structure Undoable (env : Environment) (nHeight : Int) (view : FlatView) (tx : CTransaction) :
    Prop where
  coins : CoinsOk view.utxo
  amounts : ∀ txin ∈ tx.spentInputs, ∀ coin,
    view.utxo txin.prevout.hash txin.prevout.n.toNat = some coin →
      moneyRange coin.txout.nValue = true
  vacant : Ledger.Vacant
    (Ledger.spendAll view.utxo (tx.spentInputs.map fun txin => txin.prevout.name)) (env.getHash tx)

theorem undo_tx (env : Environment) (nHeight : Int) (view view' : FlatView) (tx : CTransaction)
    (txundo : CTxUndo) (st : Disconnected)
    (updated : updateCoins env nHeight view tx = .ok (txundo, view'))
    (undoable : Undoable env nHeight view tx) (restores : Restores view'.utxo st.view.utxo)
    (clean : st.fClean = true) :
    txundo.length = tx.spentInputs.length ∧ (∀ undo ∈ txundo, undo.Storable) ∧
      let st' := restoreInputs (removeOutputs env nHeight tx st)
        (tx.spentInputs.zip (txundo.map CTxInUndo.stored))
      st'.fClean = true ∧ Restores view.utxo st'.view.utxo := by
  simp only [updateCoins, bind_ok, pure_ok, Prod.exists, Prod.mk.injEq] at updated
  obtain ⟨undo, middle, spent, rfl, rfl⟩ := updated
  have utxo := (utxo_spendInputs tx.spentInputs view middle undo spent).1
  have vacant : Ledger.Vacant middle.utxo (env.getHash tx) := by
    rw [utxo]
    exact undoable.vacant
  obtain ⟨flag, removed⟩ := removeOutputs_back env nHeight middle tx st vacant restores clean
  obtain ⟨length, final⟩ := restoreInputs_back tx.spentInputs view middle undo _ spent
    undoable.coins undoable.amounts removed flag
  exact ⟨length, spendInputs_storable _ view middle undo spent undoable.coins undoable.amounts,
    final⟩

theorem disconnectTx_regular (env : Environment) (nHeight : Int) (tx : CTransaction)
    (txundo : CTxUndo) (st : Disconnected) (regular : tx.isCoinBase = false)
    (length : txundo.length = tx.spentInputs.length) :
    disconnectTx env nHeight st tx (some (txundo.map CTxInUndo.stored)) =
      .ok (restoreInputs (removeOutputs env nHeight tx st)
        (tx.spentInputs.zip (txundo.map CTxInUndo.stored))) := by
  rw [spentInputs_regular tx regular] at length ⊢
  rw [disconnectTx, require_of _ _ (by rw [List.length_map, length])]
  rfl

/-! ## The transactions of a block -/

theorem undoable_of_step (env : Environment) (context : BlockContext) (i : Nat)
    (st st' : Connecting) (start : Ledger.Coins Uint256 Coin) (tx : CTransaction)
    (past : List CTransaction) (txundo : CTxUndo)
    (step : TxConnected env context i st tx txundo st') (coins : CoinsOk st.view.utxo)
    (before : Progress env context.nHeight start past st.view)
    (after : Progress env context.nHeight start (tx :: past) st'.view) :
    Undoable env context.nHeight st.view tx := by
  refine ⟨coins, ?_, ?_⟩
  · intro txin member coin present
    obtain ⟨_, spent, -, here, ok⟩ := spent_coins env context i st st' tx txundo step txin member
    rw [present] at here
    cases here
    exact ok.amount
  · rw [before.reached]
    exact after.fresh.valid.1.vacant

/-- What connecting the rest of a block has left behind for disconnecting it. -/
structure Undone (env : Environment) (nHeight : Int) (vtx : List CTransaction)
    (undos : CBlockUndo) (st st' : Connecting) : Prop where
  count : undos.length = vtx.length
  pushed : st'.vtxundo = st.vtxundo ++ undos
  counts : ∀ txundo ∈ undos, txundo.length ≤ maxSize
  records : ∀ txundo ∈ undos, ∀ undo ∈ txundo, undo.Storable
  undo : ∀ w : Disconnected, Restores st'.view.utxo w.view.utxo → w.fClean = true →
    ∃ w', disconnectTxs env nHeight w (vtx.zip ((storedUndo undos).map some)) = .ok w' ∧
      w'.fClean = true ∧ Restores st.view.utxo w'.view.utxo

theorem undo_cons (env : Environment) (context : BlockContext) (i : Nat) (later : i ≠ 0)
    (st middle st' : Connecting) (tx : CTransaction) (vtx : List CTransaction) (txundo : CTxUndo)
    (undos : CBlockUndo) (checked : CheckedTransaction tx) (regular : tx.isCoinBase = false)
    (step : TxConnected env context i st tx txundo middle)
    (undoable : Undoable env context.nHeight st.view tx)
    (rest : Undone env context.nHeight vtx undos middle st') :
    Undone env context.nHeight (tx :: vtx) (txundo :: undos) st st' := by
  have here := undo_tx env context.nHeight st.view middle.view tx txundo ⟨middle.view, true⟩
    step.updated undoable (restores_refl _) rfl
  obtain ⟨length, records, -⟩ := here
  have size : txundo.length ≤ maxSize := by
    have bound : maxBlockSize = 1000000 := rfl
    have most : maxSize = 33554432 := rfl
    have inputs := Nat.le_trans (vin_length_le tx) checked.sized
    rw [length, spentInputs_regular tx regular]
    omega
  refine ⟨congrArg Nat.succ rest.count, ?_, List.forall_mem_cons.mpr ⟨size, rest.counts⟩,
    List.forall_mem_cons.mpr ⟨records, rest.records⟩, ?_⟩
  · rw [rest.pushed, step.undo, if_neg later, List.append_assoc, List.singleton_append]
  · intro w restores clean
    obtain ⟨w', ran, flag, back⟩ := rest.undo w restores clean
    obtain ⟨-, -, final⟩ := undo_tx env context.nHeight st.view middle.view tx txundo w'
      step.updated undoable back flag
    refine ⟨_, ?_, final⟩
    have one := disconnectTx_regular env context.nHeight tx txundo w' regular length
    rw [storedUndo, List.map_cons, List.map_cons, List.zip_cons_cons, disconnectTxs]
    rw [storedUndo] at ran
    rw [ran]
    exact one

theorem undo_txs (env : Environment) (context : BlockContext) (i : Nat) (later : i ≠ 0)
    (start : Ledger.Coins Uint256 Coin) (vtx past : List CTransaction) (st st' : Connecting)
    (mined : 1 ≤ context.nHeight) (height : context.nHeight < 2 ^ 31)
    (checked : ∀ tx ∈ vtx, CheckedTransaction tx) (versions : ∀ tx ∈ vtx, tx.nVersion < 2 ^ 31)
    (regular : ∀ tx ∈ vtx, tx.isCoinBase = false)
    (ids : BlockIds env.getHash start (past.reverse ++ vtx))
    (progress : Progress env context.nHeight start past st.view) (coins : CoinsOk st.view.utxo)
    (connected : connectTxs env context i st vtx = .ok st') :
    ∃ undos, Undone env context.nHeight vtx undos st st' := by
  induction vtx generalizing past i st with
  | nil =>
      cases connected
      exact ⟨[], rfl, (List.append_nil _).symm, by simp, by simp,
        fun w restores clean => ⟨w, rfl, clean, restores⟩⟩
  | cons tx vtx ih =>
      rw [connectTxs, bind_ok] at connected
      obtain ⟨middle, first, others⟩ := connected
      rw [List.forall_mem_cons] at checked versions regular
      obtain ⟨txundo, step⟩ := connectTx_ok env context i st middle tx checked.1 first
      have whole : past.reverse ++ tx :: vtx = (tx :: past).reverse ++ vtx := by
        rw [List.reverse_cons, List.append_assoc, List.singleton_append]
      have next := connectTx_progress env context i st middle start tx past _ txundo checked.1 ids
        (List.mem_append_right _ List.mem_cons_self)
        (fun other among => List.mem_append_left _ (List.mem_reverse.mpr among))
        (fun _ => regular.1) progress step
      have undoable := undoable_of_step env context i st middle start tx past txundo step coins
        progress next
      have coinsNext : CoinsOk middle.view.utxo := by
        rw [(utxo_updateCoins env _ st.view middle.view tx txundo step.updated).1]
        exact coinsOk_apply _ _ coins
          (createdCoin_ok context.nHeight tx checked.1 mined height versions.1)
      rw [whole] at ids
      obtain ⟨undos, rest⟩ := ih (i + 1) (Nat.succ_ne_zero i) (tx :: past) middle checked.2
        versions.2 regular.2 ids next coinsNext others
      exact ⟨txundo :: undos, undo_cons env context i later st middle st' tx vtx txundo undos
        checked.1 regular.1 step undoable rest⟩

/-! ## The block -/

/-- The block and the view that the undo data of a block can describe. -/
structure Describable (env : Environment) (block : CBlock) (pindex : CBlockIndex)
    (view : FlatView) : Prop where
  mined : 1 ≤ pindex.nHeight
  height : pindex.nHeight < 2 ^ 31
  versions : ∀ tx ∈ block.vtx, tx.nVersion < 2 ^ 31
  coins : CoinsOk view.utxo
  collisionFree : ∀ first ∈ block.vtx, ∀ second ∈ block.vtx,
    env.getHash first = env.getHash second → first = second

theorem undo_coinbase (env : Environment) (context : BlockContext) (st middle st' : Connecting)
    (coinbase : CTransaction) (vtx : List CTransaction) (txundo : CTxUndo) (undos : CBlockUndo)
    (special : coinbase.isCoinBase = true)
    (step : TxConnected env context 0 st coinbase txundo middle)
    (undoable : Undoable env context.nHeight st.view coinbase)
    (rest : Undone env context.nHeight vtx undos middle st') (view : FlatView)
    (related : Restores st'.view.utxo view.utxo) :
    ∃ w, disconnectTxs env context.nHeight ⟨view, true⟩
        ((coinbase :: vtx).zip (none :: (storedUndo undos).map some)) = .ok w ∧
      w.fClean = true ∧ Restores st.view.utxo w.view.utxo := by
  obtain ⟨w', ran, flag, back⟩ := rest.undo ⟨view, true⟩ related rfl
  obtain ⟨-, -, clean, restores⟩ := undo_tx env context.nHeight st.view middle.view coinbase txundo
    w' step.updated undoable back flag
  rw [spentInputs_coinbase coinbase special, List.zip_nil_left] at clean restores
  refine ⟨removeOutputs env context.nHeight coinbase w', ?_, clean, restores⟩
  rw [List.zip_cons_cons, disconnectTxs, ran]
  rfl

theorem undo_block (env : Environment) (block : CBlock) (pindex : CBlockIndex) (view : FlatView)
    (result : Connected) (st : Connecting)
    (passed : BlockConnected env block pindex view false result st)
    (bip30 : enforceBIP30 pindex = true) (describable : Describable env block pindex view)
    (connectedView : FlatView) (related : Restores st.view.utxo connectedView.utxo) :
    StorableUndo st.vtxundo ∧ st.vtxundo.length + 1 = block.vtx.length ∧
      ∃ w, disconnectTxs env pindex.nHeight ⟨connectedView, true⟩
          (block.vtx.zip (none :: (storedUndo st.vtxundo).map some)) = .ok w ∧
        w.fClean = true ∧ Restores view.utxo w.view.utxo := by
  have checked := passed.checked.checked
  have regular := passed.checked.rest
  have special := passed.checked.first
  have count := passed.checked.count
  have ids : BlockIds env.getHash view.utxo block.vtx :=
    ⟨passed.bip30 bip30, describable.collisionFree⟩
  have versions := describable.versions
  have connected := passed.connected
  cases shape : block.vtx with
  | nil => exact absurd shape passed.checked.nonempty
  | cons coinbase vtx =>
      rw [shape] at checked regular special count ids versions connected
      rw [connectTxs, bind_ok] at connected
      obtain ⟨middle, first, others⟩ := connected
      rw [List.forall_mem_cons] at checked versions
      obtain ⟨txundo, step⟩ := connectTx_ok env _ 0 _ middle coinbase checked.1 first
      have start : Progress env pindex.nHeight view.utxo [] view :=
        ⟨rfl, Ledger.fresh_nil view.utxo⟩
      have next := connectTx_progress env (blockContext env block pindex) 0 ⟨view, 0, 0, [], []⟩
        middle view.utxo coinbase [] _ txundo checked.1 ids List.mem_cons_self (by simp)
        (fun nonempty => absurd rfl nonempty) start step
      have undoable := undoable_of_step env (blockContext env block pindex) 0 _ middle view.utxo
        coinbase [] txundo step describable.coins start next
      have coins : CoinsOk middle.view.utxo := by
        rw [(utxo_updateCoins env _ view middle.view coinbase txundo step.updated).1]
        exact coinsOk_apply _ _ describable.coins (createdCoin_ok pindex.nHeight coinbase checked.1
          describable.mined describable.height versions.1)
      obtain ⟨undos, rest⟩ := undo_txs env (blockContext env block pindex) 1 Nat.one_ne_zero
        view.utxo vtx [coinbase] middle st describable.mined describable.height checked.2
        versions.2 regular ids next coins others
      have pushed : st.vtxundo = undos := by
        rw [rest.pushed, step.undo, if_pos rfl, List.nil_append]
      have isCoinBase : coinbase.isCoinBase = true := by simpa using special
      have final := undo_coinbase env (blockContext env block pindex) _ middle st coinbase vtx
        txundo undos isCoinBase step undoable rest connectedView related
      rw [pushed]
      refine ⟨⟨?_, rest.counts, rest.records⟩, congrArg Nat.succ rest.count, final⟩
      have bound : maxBlockSize = 1000000 := rfl
      have most : maxSize = 33554432 := rfl
      rw [List.length_cons] at count
      rw [rest.count]
      omega

/-- Disconnecting a block with the undo data of its connection is clean and restores every
outpoint and the best block. -/
theorem disconnect_undoes_connect (env : Environment) (file : UndoFile) (block : CBlock)
    (pindex : CBlockIndex) (view : FlatView) (result : Connected) (after : Bytes)
    (curveOk : file.curve.Decompresses)
    (regular : env.blockHash block.header ≠ env.params.hashGenesisBlock)
    (bip30 : enforceBIP30 pindex = true) (describable : Describable env block pindex view)
    (accepted : connectBlock env block pindex view false = .ok result) :
    ∃ blockundo hashPrev w, result.blockundo = some blockundo ∧ pindex.pprev = some hashPrev ∧
      disconnectBlock env file block pindex result.view
        (some (undoWriteToDisk file blockundo hashPrev ++ after)) = .ok w ∧
      w.fClean = true ∧ Restores view.utxo w.view.utxo ∧ w.view.hashBlock = view.hashBlock := by
  obtain ⟨st, passed⟩ := connectBlock_ok env block pindex view false result regular accepted
  obtain ⟨hashPrev, hash, previous, own, shape⟩ :=
    finishBlock_view pindex st result.blockReward result passed.finished
  have utxo : result.view.utxo = st.view.utxo := by rw [shape, utxo_setBestBlock]
  obtain ⟨storable, count, w, ran, clean, restores⟩ :=
    undo_block env block pindex view result st passed bip30 describable result.view
      (utxo ▸ restores_refl _)
  have best : hash = result.view.hashBlock := by rw [shape]; rfl
  have undone : readUndo file pindex (some (undoWriteToDisk file st.vtxundo hashPrev ++ after)) =
      .ok (storedUndo st.vtxundo) := by
    have read := undoRead_write file curveOk st.vtxundo hashPrev after storable
    simp only [readUndo, previous, read]
  have sizes : (storedUndo st.vtxundo).length + 1 = block.vtx.length := by
    rw [storedUndo, List.length_map]
    exact count
  refine ⟨st.vtxundo, hashPrev, { w with view := w.view.setBestBlock hashPrev }, ?_, previous, ?_,
    clean, restores, ?_⟩
  · rw [shape]
  · rw [disconnectBlock, disconnectBlockWith, own]
    simp only [bind_ok, require_ok, pure_ok]
    exact ⟨(), best, storedUndo st.vtxundo, undone, (), sizes, w, ran,
      by rw [previous, Option.getD_some]⟩
  · have before := passed.best
    rw [previous, Option.getD_some] at before
    exact before

/-- One coin of a transaction with id nine, mined at a height. -/
def oneCoin (nHeight : Int) : CCoins := ⟨false, [some ⟨5 * coin, []⟩], nHeight, 1⟩

def oneCoinView (nHeight : Int) : FlatView :=
  ⟨fun hash => if hash = 9 then some (oneCoin nHeight) else none, mainHashGenesisBlock⟩

/-- A block that spends this coin. -/
def spendingBlock : CBlock :=
  ⟨firstHeader 15, [coinbasePaying 0, ⟨1, [⟨⟨9, 0⟩, [], 0⟩], [⟨5 * coin, []⟩], 0⟩]⟩

def plainFile : UndoFile where
  curve := ⟨fun _ => false, fun _ => none⟩
  checksum _ _ := 0

theorem oneCoinView_coins : CoinsOk (oneCoinView 1).utxo := by
  intro id n held present
  rw [FlatView.utxo, oneCoinView] at present
  dsimp only at present
  split at present
  · rw [Option.bind_some, CCoins.coin, Option.map_eq_some_iff] at present
    obtain ⟨txout, output, rfl⟩ := present
    have first : n = 0 := by
      have inside := Slots.slot_lt _ _ _ output
      simpa [oneCoin] using inside
    rw [first] at output
    cases output
    exact ⟨by decide, by decide, by decide, by decide⟩
  · cases present

theorem disconnect_undoes_connect_spending : ∃ blockundo hashPrev result w,
    connectBlock plainEnvironment spendingBlock (firstIndex 15) (oneCoinView 1) false =
      .ok result ∧
    disconnectBlock plainEnvironment plainFile spendingBlock (firstIndex 15) result.view
      (some (undoWriteToDisk plainFile blockundo hashPrev ++ [])) = .ok w ∧
    w.fClean = true ∧ Restores (oneCoinView 1).utxo w.view.utxo := by
  obtain ⟨result, accepted⟩ := exists_ok (connectBlock plainEnvironment spendingBlock
    (firstIndex 15) (oneCoinView 1) false) (by decide +kernel)
  have describable : Describable plainEnvironment spendingBlock (firstIndex 15) (oneCoinView 1) :=
    ⟨by decide, by decide, by decide, oneCoinView_coins, by decide⟩
  obtain ⟨blockundo, hashPrev, w, -, -, ran, clean, restores, -⟩ :=
    disconnect_undoes_connect plainEnvironment plainFile spendingBlock (firstIndex 15)
      (oneCoinView 1) result [] (by simp [Curve.Decompresses, plainFile]) (by decide +kernel)
      (by decide) describable accepted
  exact ⟨blockundo, hashPrev, result, w, accepted, ran, clean, restores⟩

/-- Connect a block and disconnect it with the undo data written. -/
def connectAndDisconnect (env : Environment) (file : UndoFile) (block : CBlock)
    (pindex : CBlockIndex) (view : FlatView) : Checking Disconnected := do
  let connected ← connectBlock env block pindex view false
  disconnectBlock env file block pindex connected.view
    (connected.blockundo.map fun blockundo =>
      undoWriteToDisk file blockundo (pindex.pprev.getD 0))

/-- A coin recorded at height zero is taken for one that is not the last of its record. -/
theorem height_zero_not_restored :
    (connectAndDisconnect plainEnvironment plainFile spendingBlock (firstIndex 15)
      (oneCoinView 0)).toOption.map Disconnected.fClean = some false := by
  decide +kernel

end RoiCoin
