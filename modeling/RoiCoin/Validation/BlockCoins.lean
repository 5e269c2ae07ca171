import RoiCoin.Lib.Pending
import RoiCoin.Validation.DisconnectBlock
import RoiCoin.Validation.History

/-! What connecting and disconnecting a block do to the coins, coin by coin. -/

namespace RoiCoin

open Checked CCoins FlatView

def Coin.InRange (coin : Coin) : Prop := moneyRange coin.txout.nValue = true

/-- The amounts of the undo data are in range. -/
def UndoInRange (blockUndo : CBlockUndo) : Prop :=
  ∀ txundo ∈ blockUndo, ∀ undo ∈ txundo, moneyRange undo.txout.nValue = true

theorem spendable_some (tx : CTransaction) (n : Nat) (txout : CTxOut)
    (found : spendable tx n = some txout) : tx.vout[n]? = some txout := by
  rw [spendable, Option.filter_eq_some_iff, Option.bind_eq_some_iff] at found
  obtain ⟨⟨txout', read, unspent⟩, -⟩ := found
  rw [CTxOut.unspent] at unspent
  split at unspent
  · cases unspent
  · cases unspent
    exact read

theorem createdCoin_within (nHeight : Int) (tx : CTransaction) (n : Nat) (coin : Coin)
    (created : createdCoin nHeight tx n = some coin) : n < tx.vout.length := by
  rw [createdCoin, Option.map_eq_some_iff] at created
  obtain ⟨txout, found, -⟩ := created
  exact (List.getElem?_eq_some_iff.mp (spendable_some tx n txout found)).1

theorem createdCoin_inRange (nHeight : Int) (tx : CTransaction) (checked : CheckedTransaction tx)
    (n : Nat) (coin : Coin) (created : createdCoin nHeight tx n = some coin) : coin.InRange := by
  rw [createdCoin, Option.map_eq_some_iff] at created
  obtain ⟨txout, found, rfl⟩ := created
  have member := List.mem_of_getElem? (spendable_some tx n txout found)
  exact (moneyRange_iff _).mpr (checked.amounts txout member)

/-! ## Connecting -/

theorem spendInputs_inRange (vin : List CTxIn) (view view' : FlatView) (txundo : CTxUndo)
    (spent : spendInputs view vin = .ok (txundo, view'))
    (inRange : Ledger.Each Coin.InRange view.utxo) :
    ∀ undo ∈ txundo, moneyRange undo.txout.nValue = true := by
  induction vin generalizing view txundo with
  | nil =>
      cases spent
      simp
  | cons txin vin ih =>
      simp only [spendInputs, bind_ok, pure_ok, Prod.exists, Prod.mk.injEq] at spent
      obtain ⟨undo, middle, first, rest, last, others, rfl, rfl⟩ := spent
      have utxo := (utxo_spendInput view middle txin undo first).1
      obtain ⟨txout, output, rfl, -⟩ := (spendInput_ok view middle txin undo).mp first
      have present : view.utxo txin.prevout.hash txin.prevout.n.toNat =
          some ⟨txout, (view.record txin.prevout.hash).nHeight,
            (view.record txin.prevout.hash).fCoinBase,
            (view.record txin.prevout.hash).nVersion⟩ := by
        rw [← coin_record, CCoins.coin, output]
        rfl
      have inRangeMiddle : Ledger.Each Coin.InRange middle.utxo := by
        rw [utxo]
        exact Ledger.each_spendAll _ _ _ inRange
      rw [List.forall_mem_cons]
      refine ⟨?_, ih middle rest others inRangeMiddle⟩
      have amount := inRange _ _ _ present
      rw [CTxInUndo.ofSpent]
      split <;> exact amount

/-- What connecting some transactions of a block does to the coins. -/
structure TxsConnected (env : Environment) (nHeight : Int) (vtx : List CTransaction)
    (st st' : Connecting) : Prop where
  reached : st'.view.utxo =
    Ledger.state st.view.utxo (entries env.getHash (atHeight nHeight vtx.reverse))
  inRange : Ledger.Each Coin.InRange st.view.utxo → Ledger.Each Coin.InRange st'.view.utxo
  undo : Ledger.Each Coin.InRange st.view.utxo → UndoInRange st.vtxundo → UndoInRange st'.vtxundo

theorem connectTx_coins (env : Environment) (context : BlockContext) (i : Nat)
    (st st' : Connecting) (tx : CTransaction) (checked : CheckedTransaction tx)
    (connected : connectTx env context i st tx = .ok st') :
    TxsConnected env context.nHeight [tx] st st' := by
  obtain ⟨txundo, step⟩ := connectTx_ok env context i st st' tx checked connected
  have utxo := (utxo_updateCoins env _ st.view st'.view tx txundo step.updated).1
  refine ⟨utxo, ?_, ?_⟩
  · intro inRange
    rw [utxo]
    exact Ledger.each_apply _ _ _ inRange (createdCoin_inRange context.nHeight tx checked)
  · intro inRange before
    have updated := step.updated
    simp only [updateCoins, bind_ok, pure_ok, Prod.exists, Prod.mk.injEq] at updated
    obtain ⟨undo, middle, spent, rfl, -⟩ := updated
    have here := spendInputs_inRange _ _ _ _ spent inRange
    rw [step.undo]
    split
    · exact before
    · intro txundo member
      rcases List.mem_append.mp member with earlier | now
      · exact before txundo earlier
      · rw [List.mem_singleton.mp now]
        exact here

theorem connectTxs_coins (env : Environment) (context : BlockContext) (i : Nat)
    (vtx : List CTransaction) (st st' : Connecting) (checked : ∀ tx ∈ vtx, CheckedTransaction tx)
    (connected : connectTxs env context i st vtx = .ok st') :
    TxsConnected env context.nHeight vtx st st' := by
  induction vtx generalizing i st with
  | nil =>
      cases connected
      exact ⟨rfl, fun inRange => inRange, fun _ undo => undo⟩
  | cons tx vtx ih =>
      rw [connectTxs, bind_ok] at connected
      obtain ⟨middle, first, others⟩ := connected
      rw [List.forall_mem_cons] at checked
      have here := connectTx_coins env context i st middle tx checked.1 first
      have rest := ih (i + 1) middle checked.2 others
      refine ⟨?_, fun inRange => rest.inRange (here.inRange inRange),
        fun inRange undo => rest.undo (here.inRange inRange) (here.undo inRange undo)⟩
      have split_history : entries env.getHash (atHeight context.nHeight (tx :: vtx).reverse) =
          entries env.getHash (atHeight context.nHeight vtx.reverse) ++
            entries env.getHash (atHeight context.nHeight [tx]) := by
        rw [List.reverse_cons, atHeight, List.map_append, entries, List.map_append]
        rfl
      rw [rest.reached, here.reached, split_history, Ledger.state_append]
      rfl

/-! ## Disconnecting -/

theorem output_restoreOutput (undo : CTxInUndo) (n m : Nat) (coins : CCoins) :
    (restoreOutput undo n coins).output m =
      if m = n then undo.txout.unspent else (undoRecord undo coins).output m := by
  rw [restoreOutput, output, Slots.slot_fill]
  rfl

/-- What disconnecting some transactions does to the coins of the other ids. -/
structure TxsDisconnected (ids : List Uint256) (st st' : Disconnected) : Prop where
  clean : st'.fClean = true → st.fClean = true
  kept : st'.fClean = true → ∀ id n coin, id ∉ ids → st.view.utxo id n = some coin →
    st'.view.utxo id n = some coin
  inRange : Ledger.Each Coin.InRange st.view.utxo → Ledger.Each Coin.InRange st'.view.utxo

theorem disconnected_refl (ids : List Uint256) (st : Disconnected) : TxsDisconnected ids st st :=
  ⟨fun clean => clean, fun _ _ _ _ _ present => present, fun inRange => inRange⟩

theorem disconnected_trans (ids ids' : List Uint256) (first second third : Disconnected)
    (one : TxsDisconnected ids first second) (other : TxsDisconnected ids' second third) :
    TxsDisconnected (ids' ++ ids) first third := by
  refine ⟨fun clean => one.clean (other.clean clean), ?_,
    fun inRange => other.inRange (one.inRange inRange)⟩
  intro clean id n coin away present
  rw [List.mem_append, not_or] at away
  exact other.kept clean id n coin away.1
    (one.kept (other.clean clean) id n coin away.2 present)

theorem output_undoRecord (undo : CTxInUndo) (coins : CCoins) (n : Nat) (txout : CTxOut)
    (output : (undoRecord undo coins).output n = some txout) : undoRecord undo coins = coins := by
  rw [undoRecord] at output ⊢
  split
  · rename_i marked
    rw [if_pos marked] at output
    cases output
  · rfl

/-- A restored record shows the restored output and the coins it had. -/
theorem coin_restored (undo : CTxInUndo) (pos n : Nat) (coins : CCoins) (coin : Coin)
    (restored : (restoreOutput undo pos coins).coin n = some coin) :
    coin.txout = undo.txout ∨ coins.coin n = some coin := by
  rw [CCoins.coin, output_restoreOutput, Option.map_eq_some_iff] at restored
  obtain ⟨txout, output, rfl⟩ := restored
  split at output
  · left
    rw [CTxOut.unspent] at output
    split at output
    · cases output
    · exact (Option.some.inj output).symm
  · right
    have same := output_undoRecord undo coins n txout output
    rw [same] at output
    rw [CCoins.coin, output, Option.map_some, restoreOutput, same]

/-- A clean restoration overwrites nothing. -/
theorem applyTxInUndo_disconnected (undo : CTxInUndo) (out : COutPoint) (st : Disconnected)
    (amount : moneyRange undo.txout.nValue = true) :
    TxsDisconnected [] st (applyTxInUndo undo out st) := by
  refine ⟨?_, ?_, ?_⟩
  · intro clean
    rw [applyTxInUndo, Bool.and_eq_true] at clean
    exact clean.1
  · intro clean id n coin _ present
    rw [applyTxInUndo, Bool.and_eq_true, Bool.and_eq_true, Bool.not_eq_true'] at clean
    obtain ⟨-, fresh, free⟩ := clean
    rw [applyTxInUndo]
    by_cases own : id = out.hash
    · subst own
      rw [utxo_modify_self]
      rw [← coin_record] at present
      have record : undoRecord undo (st.view.record out.hash) = st.view.record out.hash := by
        rw [undoRecord]
        split
        · -- the fields are only given back to a record without coins
          rename_i marked
          rw [if_pos marked] at fresh
          rw [CCoins.coin, (isPruned_iff _).mp fresh n] at present
          cases present
        · rfl
      rw [record, isAvailable] at free
      have other : n ≠ out.n.toNat := by
        intro here
        rw [CCoins.coin, here, Option.map_eq_some_iff] at present
        obtain ⟨txout, output, -⟩ := present
        rw [output] at free
        cases free
      rw [CCoins.coin, output_restoreOutput, if_neg other, restoreOutput, record]
      exact present
    · rw [utxo_modify_other _ _ _ _ _ own]
      exact present
  · intro inRange id n coin present
    rw [applyTxInUndo] at present
    by_cases own : id = out.hash
    · subst own
      rw [utxo_modify_self] at present
      rcases coin_restored undo _ n _ coin present with restored | before
      · rw [Coin.InRange, restored]
        exact amount
      · rw [coin_record] at before
        exact inRange _ n coin before
    · rw [utxo_modify_other _ _ _ _ _ own] at present
      exact inRange id n coin present

theorem restoreInputs_disconnected (inputs : List (CTxIn × CTxInUndo)) (st : Disconnected)
    (amounts : ∀ input ∈ inputs, moneyRange input.2.txout.nValue = true) :
    TxsDisconnected [] st (restoreInputs st inputs) := by
  induction inputs with
  | nil => exact disconnected_refl [] st
  | cons input inputs ih =>
      obtain ⟨txin, undo⟩ := input
      rw [List.forall_mem_cons] at amounts
      exact disconnected_trans [] [] _ _ _ (ih amounts.2)
        (applyTxInUndo_disconnected undo txin.prevout _ amounts.1)

theorem removeOutputs_disconnected (env : Environment) (nHeight : Int) (tx : CTransaction)
    (st : Disconnected) :
    TxsDisconnected [env.getHash tx] st (removeOutputs env nHeight tx st) := by
  refine ⟨?_, ?_, ?_⟩
  · intro clean
    rw [removeOutputs, Bool.and_eq_true] at clean
    exact clean.1
  · intro _ id n coin away present
    rw [List.mem_singleton] at away
    rw [removeOutputs, utxo_modify_other _ _ _ _ _ away]
    exact present
  · intro inRange id n coin present
    rw [removeOutputs] at present
    by_cases own : id = env.getHash tx
    · rw [own, utxo_modify_self] at present
      cases present
    · rw [utxo_modify_other _ _ _ _ _ own] at present
      exact inRange id n coin present

theorem disconnectTx_disconnected (env : Environment) (nHeight : Int) (tx : CTransaction)
    (txundo : Option CTxUndo) (st st' : Disconnected)
    (amounts : ∀ undos, txundo = some undos → ∀ undo ∈ undos, moneyRange undo.txout.nValue = true)
    (disconnected : disconnectTx env nHeight st tx txundo = .ok st') :
    TxsDisconnected [env.getHash tx] st st' := by
  have removed := removeOutputs_disconnected env nHeight tx st
  cases txundo with
  | none =>
      cases disconnected
      exact removed
  | some undos =>
      simp only [disconnectTx, then_ok, pure_ok] at disconnected
      obtain ⟨-, rfl⟩ := disconnected
      apply disconnected_trans _ [] _ _ _ removed
      apply restoreInputs_disconnected
      intro input member
      exact amounts undos rfl input.2 (List.of_mem_zip member).2

theorem disconnectTxs_disconnected (env : Environment) (nHeight : Int)
    (vtx : List (CTransaction × Option CTxUndo)) (st st' : Disconnected)
    (amounts : ∀ item ∈ vtx, ∀ undos, item.2 = some undos → ∀ undo ∈ undos,
      moneyRange undo.txout.nValue = true)
    (disconnected : disconnectTxs env nHeight st vtx = .ok st') :
    TxsDisconnected (vtx.map fun item => env.getHash item.1) st st' := by
  induction vtx generalizing st' with
  | nil =>
      cases disconnected
      exact disconnected_refl [] st
  | cons item vtx ih =>
      obtain ⟨tx, txundo⟩ := item
      rw [disconnectTxs, bind_ok] at disconnected
      obtain ⟨middle, later, first⟩ := disconnected
      rw [List.forall_mem_cons] at amounts
      exact disconnected_trans _ [env.getHash tx] _ _ _ (ih middle amounts.2 later)
        (disconnectTx_disconnected env nHeight tx txundo middle st' amounts.1 first)

/-- A clean disconnection of a block keeps the coins of all other ids. -/
theorem disconnectBlock_disconnected (env : Environment) (block : CBlock) (pindex : CBlockIndex)
    (view : FlatView) (undoRead : Checking CBlockUndo) (result : Disconnected)
    (amounts : ∀ blockUndo, undoRead = .ok blockUndo → UndoInRange blockUndo)
    (disconnected : disconnectBlockWith env block pindex view undoRead = .ok result) :
    TxsDisconnected (block.vtx.map env.getHash) ⟨view, true⟩ result ∧
      result.view.hashBlock = pindex.pprev.getD 0 := by
  rw [disconnectBlockWith] at disconnected
  split at disconnected
  · cases disconnected
  · simp only [bind_ok, require_ok, pure_ok] at disconnected
    obtain ⟨_, -, blockUndo, undone, _, sizes, st, ran, rfl⟩ := disconnected
    have inRange := amounts blockUndo undone
    have each := disconnectTxs_disconnected env pindex.nHeight _ _ st ?_ ran
    · have ids : (block.vtx.zip (none :: blockUndo.map some)).map
          (fun item => env.getHash item.1) = block.vtx.map env.getHash := by
        have first : (block.vtx.zip (none :: blockUndo.map some)).map Prod.fst = block.vtx := by
          rw [List.map_fst_zip]
          rw [List.length_cons, List.length_map]
          omega
        calc
          _ = ((block.vtx.zip (none :: blockUndo.map some)).map Prod.fst).map env.getHash :=
            (List.map_map).symm
          _ = block.vtx.map env.getHash := by rw [first]
      rw [ids] at each
      exact ⟨⟨each.clean, each.kept, each.inRange⟩, rfl⟩
    · intro item member undos own undo among
      have found := (List.of_mem_zip member).2
      rw [own, List.mem_cons] at found
      rcases found with impossible | found
      · cases impossible
      · obtain ⟨txundo, among', same⟩ := List.mem_map.mp found
        cases same
        exact inRange undos among' undo among

end RoiCoin
