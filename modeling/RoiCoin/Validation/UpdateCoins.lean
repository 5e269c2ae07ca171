import RoiCoin.FlatView
import RoiCoin.Undo
import RoiCoin.Validation.CheckBlock

/-! Spending the inputs and adding the outputs of a transaction (`UpdateCoins`). -/

namespace RoiCoin

open Checked FlatView

/-- One turn of the input loop of `UpdateCoins`. -/
def spendInput (view : FlatView) (txin : CTxIn) : Checking (CTxInUndo × FlatView) :=
  let coins := view.record txin.prevout.hash
  let nPos := txin.prevout.n.toNat
  match coins.output nPos with
  | none => .error (.assertion .updateCoins)
  | some txout =>
      .ok (.ofSpent txout (coins.spend nPos),
        view.modify txin.prevout.hash fun coins => coins.spend nPos)

def spendInputs (view : FlatView) : List CTxIn → Checking (CTxUndo × FlatView)
  | [] => .ok ([], view)
  | txin :: vin => do
      let (undo, view) ← spendInput view txin
      let (vprevout, view) ← spendInputs view vin
      return (undo :: vprevout, view)

def addOutputs (env : Environment) (nHeight : Int) (view : FlatView) (tx : CTransaction) :
    FlatView :=
  view.modify (env.getHash tx) fun _ => .fromTx tx nHeight

/-- The inputs that `UpdateCoins` spends. -/
def CTransaction.spentInputs (tx : CTransaction) : List CTxIn :=
  if tx.isCoinBase then [] else tx.vin

def updateCoins (env : Environment) (nHeight : Int) (view : FlatView) (tx : CTransaction) :
    Checking (CTxUndo × FlatView) := do
  let (txundo, view) ← spendInputs view tx.spentInputs
  return (txundo, addOutputs env nHeight view tx)

/-! ## A transaction as an entry of the ledger -/

/-- The coins a transaction creates. -/
def createdCoin (nHeight : Int) (tx : CTransaction) (n : Nat) : Option Coin :=
  (CCoins.spendable tx n).map fun txout => ⟨txout, nHeight, tx.isCoinBase, tx.nVersion⟩

def ledgerEntry (getHash : CTransaction → Uint256) (nHeight : Int) (tx : CTransaction) :
    Ledger.Entry Uint256 Coin where
  id := getHash tx
  inputs := tx.spentInputs.map fun txin => txin.prevout.name
  outputs := createdCoin nHeight tx

theorem name_injective (first second : COutPoint) (same : first.name = second.name) :
    first = second := by
  rcases first with ⟨hash, n⟩
  rcases second with ⟨hash', n'⟩
  obtain ⟨hashes, positions⟩ := Prod.mk.inj same
  have hashes : hash = hash' := hashes
  have positions : n = n' := BitVec.eq_of_toNat_eq positions
  rw [hashes, positions]

theorem names_nodup (vin : List CTxIn) (distinct : (vin.map CTxIn.prevout).Nodup) :
    (vin.map fun txin => txin.prevout.name).Nodup := by
  have names := distinct.map fun first second => name_injective first second
  rwa [List.map_map] at names

theorem spendInput_ok (view view' : FlatView) (txin : CTxIn) (undo : CTxInUndo) :
    spendInput view txin = .ok (undo, view') ↔
      ∃ txout, (view.record txin.prevout.hash).output txin.prevout.n.toNat = some txout ∧
        undo = .ofSpent txout ((view.record txin.prevout.hash).spend txin.prevout.n.toNat) ∧
        view' = view.modify txin.prevout.hash fun coins => coins.spend txin.prevout.n.toNat := by
  rw [spendInput]
  cases (view.record txin.prevout.hash).output txin.prevout.n.toNat with
  | none => simp
  | some txout =>
      simp only [Except.ok.injEq, Prod.mk.injEq, Option.some.injEq, exists_eq_left']
      exact ⟨fun ⟨first, second⟩ => ⟨first.symm, second.symm⟩,
        fun ⟨first, second⟩ => ⟨first.symm, second.symm⟩⟩

theorem utxo_spendInput (view view' : FlatView) (txin : CTxIn) (undo : CTxInUndo)
    (spent : spendInput view txin = .ok (undo, view')) :
    view'.utxo = Ledger.spendAll view.utxo [txin.prevout.name] ∧
      view'.hashBlock = view.hashBlock := by
  obtain ⟨txout, -, -, rfl⟩ := (spendInput_ok view view' txin undo).mp spent
  exact ⟨utxo_spend view txin.prevout.hash txin.prevout.n.toNat, rfl⟩

theorem utxo_spendInputs (vin : List CTxIn) (view view' : FlatView) (txundo : CTxUndo)
    (spent : spendInputs view vin = .ok (txundo, view')) :
    view'.utxo = Ledger.spendAll view.utxo (vin.map fun txin => txin.prevout.name) ∧
      view'.hashBlock = view.hashBlock := by
  induction vin generalizing view txundo with
  | nil =>
      obtain ⟨-, rfl⟩ := Prod.mk.inj (Except.ok.inj spent)
      exact ⟨(Ledger.spendAll_nil view.utxo).symm, rfl⟩
  | cons txin vin ih =>
      simp only [spendInputs, bind_ok, pure_ok, Prod.exists, Prod.mk.injEq] at spent
      obtain ⟨undo, middle, first, rest, view'', others, -, rfl⟩ := spent
      obtain ⟨utxoFirst, bestFirst⟩ := utxo_spendInput view middle txin undo first
      obtain ⟨utxoRest, bestRest⟩ := ih middle rest others
      constructor
      · rw [utxoRest, utxoFirst, Ledger.spendAll_cons, List.map_cons]
      · rw [bestRest, bestFirst]

/-- The assertion of `UpdateCoins` does not fail on distinct inputs that are there. -/
theorem spendInputs_total (vin : List CTxIn) (view : FlatView)
    (distinct : (vin.map fun txin => txin.prevout.name).Nodup)
    (present : ∀ txin ∈ vin, view.haveInput txin = true) :
    ∃ result, spendInputs view vin = .ok result := by
  induction vin generalizing view with
  | nil => exact ⟨_, rfl⟩
  | cons txin vin ih =>
      rw [List.map_cons, List.nodup_cons] at distinct
      have here := (haveInput_iff view txin).mp (present txin List.mem_cons_self)
      rw [← coin_record, CCoins.coin, Option.isSome_map] at here
      obtain ⟨txout, output⟩ := Option.isSome_iff_exists.mp here
      have first := (spendInput_ok view _ txin _).mpr ⟨txout, output, rfl, rfl⟩
      have later : ∀ other ∈ vin, (view.modify txin.prevout.hash fun coins =>
          coins.spend txin.prevout.n.toNat).haveInput other = true := by
        intro other member
        have there := (haveInput_iff view other).mp (present other (List.mem_cons_of_mem _ member))
        rw [haveInput_iff, utxo_spend, Ledger.spendAll_of_notMem]
        · exact there
        · intro same
          rw [List.mem_singleton] at same
          exact distinct.1 (List.mem_map.mpr ⟨other, member, same⟩)
      obtain ⟨⟨rest, view'⟩, others⟩ := ih _ distinct.2 later
      rw [spendInputs, first]
      simp only [others, bind, Except.bind, pure, Except.pure]
      exact ⟨_, rfl⟩

theorem coin_fromTx (nHeight : Int) (tx : CTransaction) (n : Nat) :
    (CCoins.fromTx tx nHeight).coin n = createdCoin nHeight tx n := by
  rw [CCoins.coin, CCoins.output_fromTx]
  rfl

theorem utxo_addOutputs (env : Environment) (nHeight : Int) (view : FlatView) (tx : CTransaction) :
    (addOutputs env nHeight view tx).utxo =
      Ledger.create view.utxo (ledgerEntry env.getHash nHeight tx) := by
  funext id n
  rw [Ledger.create, addOutputs]
  split
  · rename_i own
    rw [own, ledgerEntry, utxo_modify_self, coin_fromTx]
  · rename_i other
    exact utxo_modify_other view _ id _ n other

theorem utxo_updateCoins (env : Environment) (nHeight : Int) (view view' : FlatView)
    (tx : CTransaction) (txundo : CTxUndo)
    (updated : updateCoins env nHeight view tx = .ok (txundo, view')) :
    view'.utxo = Ledger.apply view.utxo (ledgerEntry env.getHash nHeight tx) ∧
      view'.hashBlock = view.hashBlock := by
  simp only [updateCoins, bind_ok, pure_ok, Prod.exists, Prod.mk.injEq] at updated
  obtain ⟨undo, spentView, spent, -, rfl⟩ := updated
  obtain ⟨utxo, best⟩ := utxo_spendInputs tx.spentInputs view spentView undo spent
  constructor
  · rw [utxo_addOutputs, utxo, Ledger.apply]
    rfl
  · exact best

end RoiCoin
