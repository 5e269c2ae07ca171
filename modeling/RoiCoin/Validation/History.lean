import RoiCoin.Validation.ConnectBlock

/-! The transactions of a block as a batch of ledger entries.

Histories have the newest transaction first. -/

namespace RoiCoin

open Checked FlatView

/-- Connected transactions with the height of their block, the newest first. -/
abbrev History := List (Int × CTransaction)

def entries (getHash : CTransaction → Uint256) (history : History) :
    List (Ledger.Entry Uint256 Coin) :=
  history.map fun connected => ledgerEntry getHash connected.1 connected.2

def atHeight (nHeight : Int) (txs : List CTransaction) : History := txs.map fun tx => (nHeight, tx)

/-- Every input spends a coin that is there, is in range and is mature. -/
def SpendsOk (getHash : CTransaction → Uint256) (start : Ledger.Coins Uint256 Coin) :
    History → Prop
  | [] => True
  | (nHeight, tx) :: past =>
      (∀ txin ∈ tx.spentInputs, ∃ coin,
        Ledger.state start (entries getHash past) txin.prevout.hash txin.prevout.n.toNat =
          some coin ∧ InputOk nHeight coin) ∧
      SpendsOk getHash start past

theorem spendsOk_append (getHash : CTransaction → Uint256) (start : Ledger.Coins Uint256 Coin)
    (batch past : History)
    (later : SpendsOk getHash (Ledger.state start (entries getHash past)) batch)
    (before : SpendsOk getHash start past) : SpendsOk getHash start (batch ++ past) := by
  induction batch with
  | nil => exact before
  | cons connected batch ih =>
      refine ⟨?_, ih later.2⟩
      intro txin member
      obtain ⟨coin, present, ok⟩ := later.1 txin member
      refine ⟨coin, ?_, ok⟩
      rw [List.append_eq, entries, List.map_append, Ledger.state_append]
      exact present

/-- What the transaction ids of a block must satisfy: no record of the view is overwritten, and
different transactions have different ids. -/
structure BlockIds (getHash : CTransaction → Uint256) (start : Ledger.Coins Uint256 Coin)
    (vtx : List CTransaction) : Prop where
  vacant : ∀ tx ∈ vtx, Ledger.Vacant start (getHash tx)
  collisionFree : ∀ first ∈ vtx, ∀ second ∈ vtx, getHash first = getHash second → first = second

/-- The state of the transaction loop after the transactions `past`. -/
structure Progress (env : Environment) (nHeight : Int) (start : Ledger.Coins Uint256 Coin)
    (past : List CTransaction) (view : FlatView) : Prop where
  reached : view.utxo = Ledger.state start (entries env.getHash (atHeight nHeight past))
  fresh : Ledger.Fresh start (entries env.getHash (atHeight nHeight past))

theorem spentInputs_regular (tx : CTransaction) (regular : tx.isCoinBase = false) :
    tx.spentInputs = tx.vin := by
  rw [CTransaction.spentInputs, regular, if_neg Bool.false_ne_true]

theorem spentInputs_coinbase (tx : CTransaction) (special : tx.isCoinBase = true) :
    tx.spentInputs = [] := by
  rw [CTransaction.spentInputs, special, if_pos rfl]

/-- The inputs a connected transaction spends are there. -/
theorem spent_coins (env : Environment) (context : BlockContext) (i : Nat) (st st' : Connecting)
    (tx : CTransaction) (txundo : CTxUndo) (step : TxConnected env context i st tx txundo st') :
    ∀ txin ∈ tx.spentInputs, ∃ nSpendHeight coin, nextHeight env st.view = .ok nSpendHeight ∧
      st.view.utxo txin.prevout.hash txin.prevout.n.toNat = some coin ∧
        InputOk nSpendHeight coin := by
  intro txin member
  cases special : tx.isCoinBase with
  | true =>
      rw [spentInputs_coinbase tx special] at member
      cases member
  | false =>
      rw [spentInputs_regular tx special] at member
      obtain ⟨nSpendHeight, height, inputs⟩ := step.spends special
      obtain ⟨coin, present, ok⟩ := inputs.spends txin member
      exact ⟨nSpendHeight, coin, height, present, ok⟩

theorem spentNames_nodup (tx : CTransaction) (checked : CheckedTransaction tx) :
    (tx.spentInputs.map fun txin => txin.prevout.name).Nodup := by
  rw [CTransaction.spentInputs]
  split
  · exact List.nodup_nil
  · exact names_nodup tx.vin checked.distinct

theorem connectTx_progress (env : Environment) (context : BlockContext) (i : Nat)
    (st st' : Connecting) (start : Ledger.Coins Uint256 Coin) (tx : CTransaction)
    (past all : List CTransaction) (txundo : CTxUndo) (checked : CheckedTransaction tx)
    (ids : BlockIds env.getHash start all) (member : tx ∈ all) (earlier : ∀ other ∈ past, other ∈ all)
    (regular : past ≠ [] → tx.isCoinBase = false)
    (progress : Progress env context.nHeight start past st.view)
    (step : TxConnected env context i st tx txundo st') :
    Progress env context.nHeight start (tx :: past) st'.view := by
  have utxo := (utxo_updateCoins env _ st.view st'.view tx txundo step.updated).1
  have spent := spent_coins env context i st st' tx txundo step
  rw [progress.reached] at utxo spent
  constructor
  · exact utxo
  · apply Ledger.fresh_cons start _ _ progress.fresh
    · constructor
      · exact spentNames_nodup tx checked
      · intro out input
        obtain ⟨txin, among, rfl⟩ := List.mem_map.mp input
        obtain ⟨-, coin, -, present, -⟩ := spent txin among
        exact Option.isSome_iff_exists.mpr ⟨coin, present⟩
    · exact ids.vacant tx member
    · intro other among same
      rw [entries, atHeight, List.map_map, List.mem_map] at among
      obtain ⟨before, inPast, rfl⟩ := among
      have equal := ids.collisionFree before (earlier before inPast) tx member same
      rw [equal]
      rfl
    · intro later
      have nonempty : past ≠ [] := by
        intro empty
        rw [empty] at later
        exact later rfl
      have inputs : tx.spentInputs ≠ [] := by
        rw [spentInputs_regular tx (regular nonempty)]
        exact checked.inputs
      exact fun empty => inputs (List.map_eq_nil_iff.mp empty)

theorem connectTxs_progress (env : Environment) (context : BlockContext) (i : Nat)
    (start : Ledger.Coins Uint256 Coin) (vtx past : List CTransaction) (st st' : Connecting)
    (checked : ∀ tx ∈ vtx, CheckedTransaction tx)
    (ids : BlockIds env.getHash start (past.reverse ++ vtx))
    (regular : ∀ tx ∈ (past.reverse ++ vtx).tail, tx.isCoinBase = false)
    (progress : Progress env context.nHeight start past st.view)
    (connected : connectTxs env context i st vtx = .ok st') :
    Progress env context.nHeight start (vtx.reverse ++ past) st'.view := by
  induction vtx generalizing past i st with
  | nil =>
      cases connected
      exact progress
  | cons tx vtx ih =>
      rw [connectTxs, bind_ok] at connected
      obtain ⟨middle, first, others⟩ := connected
      rw [List.forall_mem_cons] at checked
      obtain ⟨txundo, step⟩ := connectTx_ok env context i st middle tx checked.1 first
      have whole : past.reverse ++ tx :: vtx = (tx :: past).reverse ++ vtx := by
        rw [List.reverse_cons, List.append_assoc, List.singleton_append]
      have member : tx ∈ past.reverse ++ tx :: vtx :=
        List.mem_append_right _ List.mem_cons_self
      have earlier : ∀ other ∈ past, other ∈ past.reverse ++ tx :: vtx :=
        fun other among => List.mem_append_left _ (List.mem_reverse.mpr among)
      have special : past ≠ [] → tx.isCoinBase = false := by
        intro nonempty
        apply regular tx
        rw [List.tail_append_of_ne_nil (mt List.reverse_eq_nil_iff.mp nonempty)]
        exact List.mem_append_right _ List.mem_cons_self
      have next := connectTx_progress env context i st middle start tx past _ txundo checked.1 ids
        member earlier special progress step
      rw [whole] at ids regular
      have final := ih (i + 1) (tx :: past) middle checked.2 ids regular next others
      rwa [List.reverse_cons, List.append_assoc, List.singleton_append]

theorem nextHeight_connectTx (env : Environment) (context : BlockContext) (i : Nat)
    (st st' : Connecting) (tx : CTransaction) (txundo : CTxUndo)
    (step : TxConnected env context i st tx txundo st') :
    nextHeight env st'.view = nextHeight env st.view := by
  rw [nextHeight, nextHeight,
    (utxo_updateCoins env _ st.view st'.view tx txundo step.updated).2]

/-- With the best block one below the block, every input is checked at the height of the block. -/
theorem connectTxs_spends (env : Environment) (context : BlockContext) (i : Nat)
    (start : Ledger.Coins Uint256 Coin) (vtx past : List CTransaction) (st st' : Connecting)
    (checked : ∀ tx ∈ vtx, CheckedTransaction tx)
    (height : nextHeight env st.view = .ok context.nHeight)
    (reached : st.view.utxo =
      Ledger.state start (entries env.getHash (atHeight context.nHeight past)))
    (before : SpendsOk env.getHash start (atHeight context.nHeight past))
    (connected : connectTxs env context i st vtx = .ok st') :
    SpendsOk env.getHash start (atHeight context.nHeight (vtx.reverse ++ past)) := by
  induction vtx generalizing past i st with
  | nil => exact before
  | cons tx vtx ih =>
      rw [connectTxs, bind_ok] at connected
      obtain ⟨middle, first, others⟩ := connected
      rw [List.forall_mem_cons] at checked
      obtain ⟨txundo, step⟩ := connectTx_ok env context i st middle tx checked.1 first
      have utxo := (utxo_updateCoins env _ st.view middle.view tx txundo step.updated).1
      have next := nextHeight_connectTx env context i st middle tx txundo step
      have spends : SpendsOk env.getHash start (atHeight context.nHeight (tx :: past)) := by
        refine ⟨?_, before⟩
        intro txin member
        obtain ⟨nSpendHeight, coin, same, present, ok⟩ :=
          spent_coins env context i st middle tx txundo step txin member
        rw [height] at same
        cases same
        exact ⟨coin, reached ▸ present, ok⟩
      rw [reached] at utxo
      have final := ih (i + 1) (tx :: past) middle checked.2 (next.trans height) utxo spends others
      rwa [List.reverse_cons, List.append_assoc, List.singleton_append]

/-- After the transaction loop the whole block stands on the view before it. -/
theorem block_progress (env : Environment) (block : CBlock) (pindex : CBlockIndex)
    (view : FlatView) (fJustCheck : Bool) (result : Connected) (st : Connecting)
    (passed : BlockConnected env block pindex view fJustCheck result st)
    (bip30 : enforceBIP30 pindex = true)
    (collisionFree : ∀ first ∈ block.vtx, ∀ second ∈ block.vtx,
      env.getHash first = env.getHash second → first = second) :
    Progress env pindex.nHeight view.utxo block.vtx.reverse st.view := by
  have start : Progress env pindex.nHeight view.utxo [] view :=
    ⟨rfl, Ledger.fresh_nil view.utxo⟩
  have final := connectTxs_progress env (blockContext env block pindex) 0 view.utxo block.vtx []
    ⟨view, 0, 0, [], []⟩ st passed.checked.checked ⟨passed.bip30 bip30, collisionFree⟩
    passed.checked.rest start passed.connected
  rwa [List.append_nil] at final

theorem block_spends (env : Environment) (block : CBlock) (pindex : CBlockIndex)
    (view : FlatView) (fJustCheck : Bool) (result : Connected) (st : Connecting)
    (passed : BlockConnected env block pindex view fJustCheck result st)
    (height : nextHeight env view = .ok pindex.nHeight) :
    SpendsOk env.getHash view.utxo (atHeight pindex.nHeight block.vtx.reverse) := by
  have final := connectTxs_spends env (blockContext env block pindex) 0 view.utxo block.vtx []
    ⟨view, 0, 0, [], []⟩ st passed.checked.checked height rfl trivial passed.connected
  rwa [List.append_nil] at final

end RoiCoin
