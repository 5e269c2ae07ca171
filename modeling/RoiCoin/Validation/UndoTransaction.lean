import RoiCoin.Validation.DisconnectBlock
import RoiCoin.Validation.History

/-! Disconnecting a transaction undoes connecting it.

The comparison is coin by coin: a negative version is not restored. -/

namespace RoiCoin

open Checked CCoins FlatView

/-- A coin that is given back. -/
structure CoinBack (coin back : Coin) : Prop where
  txout : back.txout = coin.txout
  nHeight : back.nHeight = coin.nHeight
  fCoinBase : back.fCoinBase = coin.fCoinBase
  nVersion : 0 ≤ coin.nVersion → back.nVersion = coin.nVersion

/-- The same outpoints are unspent, with the coins given back. -/
def Restores (coins back : Ledger.Coins Uint256 Coin) : Prop :=
  ∀ id n, Option.Rel CoinBack (coins id n) (back id n)

theorem restores_refl (coins : Ledger.Coins Uint256 Coin) : Restores coins coins := by
  intro id n
  cases coins id n with
  | none => exact .none
  | some coin => exact .some ⟨rfl, rfl, rfl, fun _ => rfl⟩

/-! ## Records -/

theorem coin_none_iff (coins : CCoins) (n : Nat) : coins.coin n = none ↔ coins.output n = none := by
  rw [CCoins.coin, Option.map_eq_none_iff]

theorem pruned_iff_coins (coins : CCoins) : coins.isPruned = true ↔ ∀ n, coins.coin n = none := by
  rw [isPruned_iff]
  simp only [coin_none_iff]

theorem rel_none {r : Coin → Coin → Prop} (first second : Option Coin)
    (related : Option.Rel r first second) : first = none ↔ second = none := by
  cases related <;> simp

theorem spend_pruned (coins : CCoins) (n : Nat) (txout : CTxOut)
    (output : coins.output n = some txout) :
    (coins.spend n).vout = [] ↔ (coins.spend n).isPruned = true := by
  have available : coins.isAvailable n = true := by rw [isAvailable, output]; rfl
  rw [spend, if_pos available, isPruned_cleanup]
  constructor
  · intro empty
    rw [isPruned, ← Slots.vacant_trim]
    exact congrArg Slots.vacant empty
  · exact Slots.trim_vacant _

theorem spend_fields (coins : CCoins) (n : Nat) :
    (coins.spend n).nHeight = coins.nHeight ∧ (coins.spend n).fCoinBase = coins.fCoinBase ∧
      (coins.spend n).nVersion = coins.nVersion := by
  rw [spend]
  split <;> exact ⟨rfl, rfl, rfl⟩

theorem coin_restoreOutput (undo : CTxInUndo) (n m : Nat) (coins : CCoins)
    (real : undo.txout.nValue ≠ -1) :
    (restoreOutput undo n coins).coin m =
      if m = n then some ⟨undo.txout, (undoRecord undo coins).nHeight,
        (undoRecord undo coins).fCoinBase, (undoRecord undo coins).nVersion⟩
      else (undoRecord undo coins).coin m := by
  have unspent : undo.txout.unspent = some undo.txout := by
    rw [CTxOut.unspent, if_neg]
    simpa [CTxOut.isNull] using real
  rw [CCoins.coin, restoreOutput, output, Slots.slot_fill]
  split
  · rw [unspent]
    rfl
  · rfl

theorem undo_txout (txout : CTxOut) (spent : CCoins) :
    (CTxInUndo.ofSpent txout spent).stored.txout = txout := by
  rw [CTxInUndo.ofSpent]
  split <;> rfl

/-- The undo record of the last output carries the fields. -/
theorem undo_fields (txout : CTxOut) (spent : CCoins) (last : spent.vout = [])
    (mined : 1 ≤ spent.nHeight) (height : spent.nHeight < 2 ^ 31) :
    let undo := (CTxInUndo.ofSpent txout spent).stored
    undo.nHeight = spent.nHeight.toNat ∧ undo.fCoinBase = spent.fCoinBase ∧
      (0 ≤ spent.nVersion → undo.nVersion = spent.nVersion) := by
  have word : unsigned32 spent.nHeight = spent.nHeight.toNat := by
    rw [unsigned32]
    omega
  rw [CTxInUndo.ofSpent, if_pos last]
  refine ⟨word, rfl, fun nonneg => ?_⟩
  rw [CTxInUndo.stored, word]
  simp only
  rw [if_pos (by omega), if_neg (by omega)]

/-- An output that remains holds the fields of both records. -/
theorem remaining_fields (coins back : CCoins) (m : Nat) (remains : coins.coin m ≠ none)
    (same : Option.Rel CoinBack (coins.coin m) (back.coin m)) (txout : CTxOut) :
    CoinBack ⟨txout, coins.nHeight, coins.fCoinBase, coins.nVersion⟩
      ⟨txout, back.nHeight, back.fCoinBase, back.nVersion⟩ := by
  rw [CCoins.coin, CCoins.coin] at same
  rw [CCoins.coin] at remains
  revert same remains
  cases coins.output m with
  | none => simp
  | some first =>
      cases back.output m with
      | none => intro _ related; cases related
      | some second =>
          intro _ related
          cases related with
          | some agree => exact ⟨rfl, agree.nHeight, agree.fCoinBase, agree.nVersion⟩

/-- Undoing a spend gives the record back, coin by coin, without a complaint. -/
theorem restoreOutput_back (coins back : CCoins) (n : Nat) (txout : CTxOut) (undo : CTxInUndo)
    (output : coins.output n = some txout) (real : txout.nValue ≠ -1)
    (mined : 1 ≤ coins.nHeight) (height : coins.nHeight < 2 ^ 31)
    (kept : undo = (CTxInUndo.ofSpent txout (coins.spend n)).stored)
    (same : ∀ m, Option.Rel CoinBack ((coins.spend n).coin m) (back.coin m)) :
    (if undo.nHeight ≠ 0 then back.isPruned else !back.isPruned) = true ∧
      (undoRecord undo back).isAvailable n = false ∧
      ∀ m, Option.Rel CoinBack (coins.coin m) ((restoreOutput undo n back).coin m) := by
  obtain ⟨sameHeight, sameCoinBase, sameVersion⟩ := spend_fields coins n
  have here : coins.coin n = some ⟨txout, coins.nHeight, coins.fCoinBase, coins.nVersion⟩ := by
    rw [CCoins.coin, output]
    rfl
  have gone : (coins.spend n).coin n = none := by rw [coin_spend, if_pos rfl]
  have others : ∀ m, m ≠ n → (coins.spend n).coin m = coins.coin m := by
    intro m other
    rw [coin_spend, if_neg other]
  have kept_txout : undo.txout = txout := by rw [kept, undo_txout]
  have real_undo : undo.txout.nValue ≠ -1 := by rwa [kept_txout]
  by_cases last : (coins.spend n).vout = []
  · -- the last output: the undo record carries the fields and the record is vacant
    have pruned := (spend_pruned coins n txout output).mp last
    have vacant : back.isPruned = true := by
      rw [pruned_iff_coins] at pruned ⊢
      exact fun m => (rel_none _ _ (same m)).mp (pruned m)
    have fields := undo_fields txout (coins.spend n) last (by omega) (by omega)
    rw [← kept, sameHeight, sameCoinBase, sameVersion] at fields
    have marked : undo.nHeight ≠ 0 := by omega
    have record : undoRecord undo back =
        ⟨coins.fCoinBase, [], coins.nHeight, undo.nVersion⟩ := by
      have word : signed32 undo.nHeight = coins.nHeight := by
        rw [signed32, fields.1]
        omega
      rw [undoRecord, if_pos marked, word, fields.2.1]
    refine ⟨by rw [if_pos marked, vacant], by rw [record]; rfl, fun m => ?_⟩
    rw [coin_restoreOutput undo n m back real_undo, record, kept_txout]
    by_cases position : m = n
    · rw [if_pos position, position, here]
      exact .some ⟨rfl, rfl, rfl, fields.2.2⟩
    · rw [if_neg position, ← others m position, (pruned_iff_coins _).mp pruned m]
      exact .none
  · -- an output remains: it holds the fields, and so does the record that is given back
    have unmarked : undo.nHeight = 0 := by rw [kept, CTxInUndo.ofSpent, if_neg last]; rfl
    have record : undoRecord undo back = back := by
      rw [undoRecord, if_neg (by simpa using unmarked)]
    obtain ⟨m, remains⟩ : ∃ m, (coins.spend n).coin m ≠ none := by
      by_contra nothing
      apply last
      rw [spend_pruned coins n txout output, pruned_iff_coins]
      exact fun m => by_contra fun remains => nothing ⟨m, remains⟩
    have occupied : back.isPruned = false := by
      rw [Bool.eq_false_iff]
      intro vacant
      exact remains ((rel_none _ _ (same m)).mpr ((pruned_iff_coins back).mp vacant m))
    have fields := remaining_fields (coins.spend n) back m remains (same m) txout
    rw [sameHeight, sameCoinBase, sameVersion] at fields
    refine ⟨?_, ?_, fun position => ?_⟩
    · rw [if_neg (by simpa using unmarked), occupied]
      rfl
    · rw [record, isAvailable, (coin_none_iff back n).mp ((rel_none _ _ (same n)).mp gone)]
      rfl
    · rw [coin_restoreOutput undo n position back real_undo, record, kept_txout]
      by_cases own : position = n
      · rw [if_pos own, own, here]
        exact .some fields
      · rw [if_neg own, ← others position own]
        exact same position

/-! ## Inputs -/

/-- What the undo format can hold of a coin: a height above zero, and sizes within its types. -/
structure CoinOk (coin : Coin) : Prop where
  mined : 1 ≤ coin.nHeight
  height : coin.nHeight < 2 ^ 31
  version : coin.nVersion < 2 ^ 31
  script : coin.txout.scriptPubKey.length + nSpecialScripts < 2 ^ 32

def CoinsOk (coins : Ledger.Coins Uint256 Coin) : Prop :=
  ∀ id n coin, coins id n = some coin → CoinOk coin

theorem coinsOk_spendAll (coins : Ledger.Coins Uint256 Coin) (inputs : List (Uint256 × Nat))
    (ok : CoinsOk coins) : CoinsOk (Ledger.spendAll coins inputs) := by
  intro id n coin present
  rw [Ledger.spendAll] at present
  split at present
  · cases present
  · exact ok id n coin present

theorem applyTxInUndo_back (view view' : FlatView) (txin : CTxIn) (undo : CTxInUndo)
    (st : Disconnected) (spent : spendInput view txin = .ok (undo, view')) (ok : CoinsOk view.utxo)
    (amount : ∀ coin, view.utxo txin.prevout.hash txin.prevout.n.toNat = some coin →
      moneyRange coin.txout.nValue = true)
    (restores : Restores view'.utxo st.view.utxo) (clean : st.fClean = true) :
    (applyTxInUndo undo.stored txin.prevout st).fClean = true ∧
      Restores view.utxo (applyTxInUndo undo.stored txin.prevout st).view.utxo := by
  obtain ⟨txout, output, undone, rfl⟩ := (spendInput_ok view view' txin undo).mp spent
  have present : view.utxo txin.prevout.hash txin.prevout.n.toNat =
      some ⟨txout, (view.record txin.prevout.hash).nHeight,
        (view.record txin.prevout.hash).fCoinBase, (view.record txin.prevout.hash).nVersion⟩ := by
    rw [← coin_record, CCoins.coin, output]
    rfl
  have coinOk := ok _ _ _ present
  have nonneg : 0 ≤ txout.nValue := ((moneyRange_iff _).mp (amount _ present)).1
  have same : ∀ m, Option.Rel CoinBack
      (((view.record txin.prevout.hash).spend txin.prevout.n.toNat).coin m)
      ((st.view.record txin.prevout.hash).coin m) := by
    intro m
    have here := restores txin.prevout.hash m
    rwa [utxo_modify_self, ← coin_record] at here
  obtain ⟨flag, free, back⟩ := restoreOutput_back (view.record txin.prevout.hash)
    (st.view.record txin.prevout.hash) txin.prevout.n.toNat txout undo.stored output (by omega)
    coinOk.mined coinOk.height (by rw [undone]) same
  constructor
  · simp only [applyTxInUndo, clean, flag, free, Bool.not_false, Bool.and_self]
  · intro id m
    rw [applyTxInUndo]
    by_cases own : id = txin.prevout.hash
    · rw [own, utxo_modify_self, ← coin_record]
      exact back m
    · have there := restores id m
      rw [utxo_modify_other _ _ _ _ _ own] at there ⊢
      exact there

theorem restoreInputs_back (vin : List CTxIn) (view view' : FlatView) (txundo : CTxUndo)
    (st : Disconnected) (spent : spendInputs view vin = .ok (txundo, view'))
    (ok : CoinsOk view.utxo)
    (amount : ∀ txin ∈ vin, ∀ coin,
      view.utxo txin.prevout.hash txin.prevout.n.toNat = some coin →
        moneyRange coin.txout.nValue = true)
    (restores : Restores view'.utxo st.view.utxo) (clean : st.fClean = true) :
    txundo.length = vin.length ∧
      (restoreInputs st (vin.zip (txundo.map CTxInUndo.stored))).fClean = true ∧
      Restores view.utxo (restoreInputs st (vin.zip (txundo.map CTxInUndo.stored))).view.utxo := by
  induction vin generalizing view txundo with
  | nil =>
      cases spent
      exact ⟨rfl, clean, restores⟩
  | cons txin vin ih =>
      simp only [spendInputs, bind_ok, pure_ok, Prod.exists, Prod.mk.injEq] at spent
      obtain ⟨undo, middle, first, rest, last, others, rfl, rfl⟩ := spent
      rw [List.forall_mem_cons] at amount
      have utxo := (utxo_spendInput view middle txin undo first).1
      have okMiddle : CoinsOk middle.utxo := by
        rw [utxo]
        exact coinsOk_spendAll _ _ ok
      have amountMiddle : ∀ other ∈ vin, ∀ coin,
          middle.utxo other.prevout.hash other.prevout.n.toNat = some coin →
            moneyRange coin.txout.nValue = true := by
        intro other member coin present
        rw [utxo, Ledger.spendAll] at present
        split at present
        · cases present
        · exact amount.2 other member coin present
      obtain ⟨length, flag, back⟩ := ih middle rest others okMiddle amountMiddle
      have final := applyTxInUndo_back view middle txin undo _ first ok amount.1 back flag
      exact ⟨congrArg Nat.succ length, final⟩

/-! ## Outputs -/

theorem withVersion_fields (nVersion : Int) (outs : CCoins) :
    (withVersion nVersion outs).vout = outs.vout ∧
      (withVersion nVersion outs).nHeight = outs.nHeight ∧
      (withVersion nVersion outs).fCoinBase = outs.fCoinBase := by
  rw [withVersion]
  split <;> exact ⟨rfl, rfl, rfl⟩

/-- The record of a transaction whose coins are all given back compares equal to the block. -/
theorem same_fromTx (nHeight : Int) (tx : CTransaction) (back : CCoins)
    (related : ∀ m, Option.Rel CoinBack (createdCoin nHeight tx m) (back.coin m)) :
    (withVersion tx.nVersion back.clearUnspendable).same (.fromTx tx nHeight) = true := by
  have outputs : ∀ m, back.output m = spendable tx m := by
    intro m
    have here := related m
    rw [createdCoin, CCoins.coin] at here
    revert here
    cases spendable tx m with
    | none =>
        cases back.output m with
        | none => exact fun _ => rfl
        | some txout => intro here; cases here
    | some txout =>
        cases back.output m with
        | none => intro here; cases here
        | some txout' =>
            intro here
            cases here with
            | some agree => exact congrArg some agree.txout
  have kept : ∀ m, (spendable tx m).filter (fun txout => !isUnspendable txout.scriptPubKey) =
      spendable tx m := by
    intro m
    rw [spendable, Option.filter_filter]
    simp
  have slots : ∀ m, Slots.slot
      (back.vout.map fun txout => txout.filter fun txout => !isUnspendable txout.scriptPubKey) m =
      Slots.slot ((tx.vout.map CTxOut.unspent).map fun txout =>
        txout.filter fun txout => !isUnspendable txout.scriptPubKey) m := by
    intro m
    have left := output_unspendable back m
    have right := output_fromTx tx nHeight m
    rw [outputs, kept, clearUnspendable, output_cleanup] at left
    rw [fromTx, clearUnspendable, output_cleanup] at right
    exact left.trans right.symm
  have vout : (withVersion tx.nVersion back.clearUnspendable).vout = (fromTx tx nHeight).vout := by
    rw [(withVersion_fields tx.nVersion _).1]
    exact Slots.trim_ext _ _ slots
  cases pruned : (fromTx tx nHeight).isPruned with
  | true =>
      have both : (withVersion tx.nVersion back.clearUnspendable).isPruned = true := by
        rw [isPruned, vout]
        exact pruned
      rw [same, both, pruned]
      rfl
  | false =>
      obtain ⟨m, remains⟩ : ∃ m, createdCoin nHeight tx m ≠ none := by
        by_contra nothing
        rw [Bool.eq_false_iff] at pruned
        apply pruned
        rw [pruned_iff_coins]
        intro m
        rw [coin_fromTx]
        exact by_contra fun remains => nothing ⟨m, remains⟩
      have fields : back.nHeight = nHeight ∧ back.fCoinBase = tx.isCoinBase ∧
          (0 ≤ tx.nVersion → back.nVersion = tx.nVersion) := by
        have here := related m
        rw [createdCoin, CCoins.coin, outputs] at here
        rw [createdCoin] at remains
        revert here remains
        cases spendable tx m with
        | none => simp
        | some txout =>
            intro _ here
            cases here with
            | some agree => exact ⟨agree.nHeight, agree.fCoinBase, agree.nVersion⟩
      have version : (withVersion tx.nVersion back.clearUnspendable).nVersion = tx.nVersion := by
        rw [withVersion]
        split
        · rfl
        · exact fields.2.2 (by omega)
      have coinBase : (withVersion tx.nVersion back.clearUnspendable).fCoinBase = tx.isCoinBase :=
        (withVersion_fields tx.nVersion _).2.2.trans fields.2.1
      have height : (withVersion tx.nVersion back.clearUnspendable).nHeight = nHeight :=
        (withVersion_fields tx.nVersion _).2.1.trans fields.1
      have own : (fromTx tx nHeight).nHeight = nHeight ∧
          (fromTx tx nHeight).fCoinBase = tx.isCoinBase ∧
          (fromTx tx nHeight).nVersion = tx.nVersion := ⟨rfl, rfl, rfl⟩
      rw [same, vout, version, coinBase, height, own.1, own.2.1, own.2.2]
      simp

theorem removeOutputs_back (env : Environment) (nHeight : Int) (view : FlatView) (tx : CTransaction)
    (st : Disconnected) (vacant : Ledger.Vacant view.utxo (env.getHash tx))
    (restores : Restores (addOutputs env nHeight view tx).utxo st.view.utxo)
    (clean : st.fClean = true) :
    (removeOutputs env nHeight tx st).fClean = true ∧
      Restores view.utxo (removeOutputs env nHeight tx st).view.utxo := by
  rw [removeOutputs]
  constructor
  · have related : ∀ m, Option.Rel CoinBack (createdCoin nHeight tx m)
        ((st.view.record (env.getHash tx)).coin m) := by
      intro m
      have here := restores (env.getHash tx) m
      rwa [addOutputs, utxo_modify_self, coin_fromTx, ← coin_record] at here
    simp only [clean, same_fromTx nHeight tx _ related, Bool.and_self]
  · intro id m
    by_cases own : id = env.getHash tx
    · rw [own, utxo_modify_self, vacant]
      exact .none
    · have there := restores id m
      rw [addOutputs, utxo_modify_other _ _ _ _ _ own] at there
      rw [utxo_modify_other _ _ _ _ _ own]
      exact there

end RoiCoin
