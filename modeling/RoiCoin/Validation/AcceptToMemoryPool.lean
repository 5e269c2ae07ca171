import RoiCoin.Lib.Pending
import RoiCoin.Mempool
import RoiCoin.Validation.ConnectBlock
import RoiCoin.Validation.History

/-! Acceptance of a loose transaction (`AcceptToMemoryPool`).

What depends on the relay policy of the node is a parameter. -/

namespace RoiCoin

open Checked FlatView

def mempoolHeight : Int := 0x7FFFFFFF

def maxStandardTxSigOps : Nat := maxBlockSigOps / 5

/-- `HaveCoins`: a record with no output left in it does not count. -/
def FlatView.haveCoins (view : FlatView) (hash : Uint256) : Bool :=
  ((view.accessCoins hash).map fun coins => !coins.vout.isEmpty).getD false

/-- `CCoinsViewMemPool`: the records of the pool transactions come before the base view. -/
def memPoolView (getHash : CTransaction → Uint256) (base : FlatView) (pool : CTxMemPool) :
    FlatView where
  coins hash :=
    match pool.lookup getHash hash with
    | some tx => (CCoins.fromTx tx mempoolHeight).live
    | none => (base.coins hash).bind CCoins.live
  hashBlock := base.hashBlock

/-- `isStandardTx` returns the reason against a transaction; `checkFees` covers minimum fee,
priority, rate limit and absurd fees. -/
structure RelayPolicy where
  isStandardTx : CTransaction → Option String
  checkFinalTx : CTransaction → Bool
  areInputsStandard : FlatView → CTransaction → Bool
  checkFees : (nFees : Int) → CTransaction → Checking Unit

def checkStandard (policy : RelayPolicy) (tx : CTransaction) : Checking Unit :=
  match policy.isStandardTx tx with
  | none => .ok ()
  | some reason => .error (.invalid ⟨0, rejectNonstandard, reason, false⟩)

/-- `state.DoS(0, .., chRejectCode, strRejectReason)` on a state that is invalid already. -/
def relabel (chRejectCode : Nat) (strRejectReason : String) : Failure → Failure
  | .invalid rejection =>
      .invalid { rejection with chRejectCode, strRejectReason, corruptionPossible := false }
  | failure => failure

/-- The checks against the transactions and the coins there are. -/
def checkAvailable (env : Environment) (base : FlatView) (pool : CTxMemPool) (tx : CTransaction) :
    Checking Unit := do
  let view := memPoolView env.getHash base pool
  require ((pool.lookup env.getHash (env.getHash tx)).isNone = true) .refused
  require (∀ txin ∈ tx.vin, (pool.mapNextTx txin.prevout).isNone = true) .refused
  require (view.haveCoins (env.getHash tx) = false) .refused
  require (∀ txin ∈ tx.vin, view.haveCoins txin.prevout.hash = true) .refused
  require (view.haveInputs tx = true)
    (.invalid ⟨0, rejectDuplicate, "bad-txns-inputs-spent", false⟩)

/-- The checks of policy that look at the inputs. -/
def checkRelay (env : Environment) (policy : RelayPolicy) (view : FlatView) (tx : CTransaction) :
    Checking Unit := do
  let nValueIn ← getValueIn env view (env.chainHeight + 1) 0 tx.vin
  require (policy.areInputsStandard view tx = true)
    (.invalid ⟨0, rejectNonstandard, "bad-txns-nonstandard-inputs", false⟩)
  let nP2SH ← getP2SHSigOpCount view tx
  require (getLegacySigOpCount tx + nP2SH ≤ maxStandardTxSigOps)
    (.invalid ⟨0, rejectNonstandard, "bad-txns-too-many-sigops", false⟩)
  let nValueOut ← tx.getValueOut
  policy.checkFees (wrap64 (nValueIn - nValueOut)) tx

def acceptToMemoryPool (env : Environment) (policy : RelayPolicy) (base : FlatView)
    (pool : CTxMemPool) (tx : CTransaction) : Checking CTxMemPool := do
  let view := memPoolView env.getHash base pool
  checkTransaction tx
  require (tx.isCoinBase = false) (dos 100 "coinbase")
  checkStandard policy tx
  require (policy.checkFinalTx tx = true) (.invalid ⟨0, rejectNonstandard, "non-final", false⟩)
  checkAvailable env base pool tx
  checkRelay env policy view tx
  let _ ← (checkInputs env view tx true standardScriptVerifyFlags false).mapError
    (relabel rejectInvalid "ConnectInputs failed")
  let _ ← (checkInputs env view tx true mandatoryScriptVerifyFlags false).mapError
    (relabel rejectNonstandard
      "ConnectInputs failed against MANDATORY but not STANDARD flags")
  return pool.addUnchecked env.getHash tx

/-! ## The coins of the pool -/

def poolEntries (getHash : CTransaction → Uint256) (pool : CTxMemPool) :
    List (Ledger.Entry Uint256 Coin) :=
  pool.mapTx.map (ledgerEntry getHash mempoolHeight)

theorem haveCoins_false (view : FlatView) (hash : Uint256) (absent : view.haveCoins hash = false) :
    Ledger.Vacant view.utxo hash := by
  intro n
  rw [FlatView.haveCoins, accessCoins] at absent
  rw [utxo]
  cases found : view.coins hash with
  | none => rfl
  | some coins =>
      rw [found, Option.map_some, Option.getD_some, Bool.not_eq_false', List.isEmpty_iff] at absent
      rw [Option.bind_some, CCoins.coin, CCoins.output, absent]
      rfl

/-- The pool view shows the pool transactions on top of the coins. -/
theorem utxo_memPoolView (getHash : CTransaction → Uint256) (base : FlatView) (pool : CTxMemPool) :
    (memPoolView getHash base pool).utxo = Ledger.lookup base.utxo (poolEntries getHash pool) := by
  funext hash n
  rw [utxo, memPoolView, poolEntries]
  dsimp only [CTxMemPool.lookup]
  induction pool.mapTx with
  | nil =>
      rw [List.find?_nil, List.map_nil, Ledger.lookup, utxo]
      cases base.coins hash with
      | none => rfl
      | some coins => exact coin_live coins n
  | cons tx mapTx ih =>
      have id_eq : (ledgerEntry getHash mempoolHeight tx).id = getHash tx := rfl
      rw [List.map_cons, Ledger.lookup, Ledger.create, List.find?_cons, id_eq]
      by_cases own : getHash tx = hash
      · rw [own, beq_self_eq_true, if_pos rfl]
        exact (coin_live _ n).trans (coin_fromTx mempoolHeight tx n)
      · rw [beq_eq_false_iff_ne.mpr own, if_neg (Ne.symm own)]
        exact ih

theorem mapError_ok {ε α : Type} (f : ε → ε) (first : Except ε α) (result : α) :
    first.mapError f = .ok result ↔ first = .ok result := by
  cases first <;> simp [Except.mapError]

/-- What an accepted transaction satisfies. -/
structure Accepted (env : Environment) (base : FlatView) (pool : CTxMemPool) (tx : CTransaction)
    (pool' : CTxMemPool) : Prop where
  checked : CheckedTransaction tx
  regular : tx.isCoinBase = false
  new : pool.lookup env.getHash (env.getHash tx) = none
  free : ∀ txin ∈ tx.vin, pool.mapNextTx txin.prevout = none
  vacant : Ledger.Vacant (memPoolView env.getHash base pool).utxo (env.getHash tx)
  spends : ∃ nSpendHeight, nextHeight env base = .ok nSpendHeight ∧
    InputsOk env nSpendHeight (memPoolView env.getHash base pool).utxo tx
  added : pool' = pool.addUnchecked env.getHash tx

theorem acceptToMemoryPool_ok (env : Environment) (policy : RelayPolicy) (base : FlatView)
    (pool pool' : CTxMemPool) (tx : CTransaction)
    (accepted : acceptToMemoryPool env policy base pool tx = .ok pool') :
    Accepted env base pool tx pool' := by
  simp only [acceptToMemoryPool, checkAvailable, bind_ok, require_ok, mapError_ok, pure_ok]
    at accepted
  obtain ⟨_, passed, _, regular, _, _, _, _, _, ⟨_, new, _, free, _, vacant, _, _, _⟩, _, _, checks,
    inputs, _, _, added⟩ := accepted
  have checked := checkTransaction_ok tx passed
  rw [checkInputs, if_neg (by simp [regular])] at inputs
  obtain ⟨_, values, _⟩ := (bind_ok _ _ _).mp inputs
  refine ⟨checked, regular, Option.isNone_iff_eq_none.mp new, ?_, haveCoins_false _ _ vacant,
    checkTxInputs_ok env _ tx checked regular values, added.symm⟩
  intro txin input
  exact Option.isNone_iff_eq_none.mp (free txin input)

end RoiCoin
