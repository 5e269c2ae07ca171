import RoiCoin.Script.Flags
import RoiCoin.Validation.UpdateCoins

/-! The checks of a transaction against a coins view (`CheckInputs`). -/

namespace RoiCoin

open Checked FlatView

def rejectNonstandard : Nat := 0x40

structure CScriptCheck where
  scriptPubKey : CScript
  ptxTo : CTransaction
  nIn : Nat
  nFlags : BitVec 32
  deriving DecidableEq, Repr

/-- The script error of a check that fails. -/
def CScriptCheck.failed (env : Environment) (check : CScriptCheck) : Option String :=
  env.verifyScript check.ptxTo check.nIn check.scriptPubKey check.nFlags

/-- `coins->vout[prevout.n]` of the record an input refers to. -/
def FlatView.prevOutput (view : FlatView) (txin : CTxIn) : CTxOut :=
  ((view.record txin.prevout.hash).output txin.prevout.n.toNat).getD .null

/-- The height a transaction on top of the best block is valued at. -/
def nextHeight (env : Environment) (view : FlatView) : Checking Int :=
  match env.mapBlockIndex view.hashBlock with
  | some pindexPrev => .ok (pindexPrev.nHeight + 1)
  | none => .error .nullPointer

/-- One turn of the value loop, from the sum so far. -/
def addInputValue (env : Environment) (view : FlatView) (nSpendHeight nValueIn : Int)
    (txin : CTxIn) : Checking Int :=
  match view.accessCoins txin.prevout.hash with
  | none => .error (.assertion .coins)
  | some coins => do
      require (coins.fCoinBase = true → coinbaseMaturity ≤ nSpendHeight - coins.nHeight)
        (.invalid ⟨0, rejectInvalid, "bad-txns-premature-spend-of-coinbase", false⟩)
      let txout := view.prevOutput txin
      let nValue ← liftScript
        (txout.getValueWithInterest env.pow env.chainHeight coins.nHeight nSpendHeight)
      require (moneyRange txout.nValue ∧ moneyRange (wrap64 (nValueIn + nValue)))
        (dos 100 "bad-txns-inputvalues-outofrange")
      return wrap64 (nValueIn + nValue)

def addInputValues (env : Environment) (view : FlatView) (nSpendHeight nValueIn : Int) :
    List CTxIn → Checking Int
  | [] => .ok nValueIn
  | txin :: vin => do
      let nValueIn ← addInputValue env view nSpendHeight nValueIn txin
      addInputValues env view nSpendHeight nValueIn vin

/-- The value rule; a hundred base units are allowed for rounding. -/
def checkValues (nValueIn nValueOut : Int) : Checking Unit := do
  require (nValueOut ≤ wrap64 (nValueIn + 100)) (dos 100 "bad-txns-in-belowout")
  require (moneyRange (max 0 (wrap64 (nValueIn - nValueOut)))) (dos 100 "bad-txns-fee-outofrange")

def scriptChecks (view : FlatView) (tx : CTransaction) (flags : BitVec 32) : List CScriptCheck :=
  tx.vin.zipIdx.map fun (txin, nIn) => ⟨(view.prevOutput txin).scriptPubKey, tx, nIn, flags⟩

/-- A check that is made at once. -/
def runScriptCheck (env : Environment) (check : CScriptCheck) : Checking Unit :=
  match check.failed env with
  | none => .ok ()
  | some scriptError =>
      let mandatory := { check with nFlags := check.nFlags &&& ~~~standardNotMandatoryVerifyFlags }
      if check.nFlags &&& standardNotMandatoryVerifyFlags ≠ 0 ∧ mandatory.failed env = none then
        .error (.invalid
          ⟨0, rejectNonstandard, "non-mandatory-script-verify-flag (No error)", false⟩)
      else .error (dos 100 ("mandatory-script-verify-flag-failed (" ++ scriptError ++ ")"))

/-- The script part; deferred checks are handed back in place of being run. -/
def checkInputScripts (env : Environment) (view : FlatView) (tx : CTransaction)
    (fScriptChecks : Bool) (flags : BitVec 32) (defer : Bool) : Checking (List CScriptCheck) :=
  if !fScriptChecks then .ok []
  else if defer then .ok (scriptChecks view tx flags)
  else (fun _ => []) <$> each (runScriptCheck env) (scriptChecks view tx flags)

def checkTxInputs (env : Environment) (view : FlatView) (tx : CTransaction) : Checking Unit := do
  require (view.haveInputs tx = true) (.invalid ⟨0, 0, "", false⟩)
  let nSpendHeight ← nextHeight env view
  let nValueIn ← addInputValues env view nSpendHeight 0 tx.vin
  let nValueOut ← tx.getValueOut
  checkValues nValueIn nValueOut

def checkInputs (env : Environment) (view : FlatView) (tx : CTransaction) (fScriptChecks : Bool)
    (flags : BitVec 32) (defer : Bool) : Checking (List CScriptCheck) :=
  if tx.isCoinBase then .ok []
  else do
    checkTxInputs env view tx
    checkInputScripts env view tx fScriptChecks flags defer

def getP2SHSigOpCount (view : FlatView) (tx : CTransaction) : Checking Nat :=
  if tx.isCoinBase then .ok 0
  else
    List.sum <$> tx.vin.mapM fun txin => do
      let prevout ← view.getOutputFor txin
      return if isPayToScriptHash prevout.scriptPubKey then
        getP2SHScriptSigOpCount prevout.scriptPubKey txin.scriptSig else 0

/-! ## What a transaction with checked inputs satisfies -/

/-- The value of a coin with interest, where its script can be read. -/
def Coin.worth (env : Environment) (nHeight : Int) (coin : Coin) : Int :=
  match coin.txout.getValueWithInterest env.pow env.chainHeight coin.nHeight nHeight with
  | .ok nValue => nValue
  | .error _ => 0

/-- The value of one input among the coins. -/
def inputWorth (env : Environment) (nHeight : Int) (coins : Ledger.Coins Uint256 Coin)
    (txin : CTxIn) : Int :=
  ((coins txin.prevout.hash txin.prevout.n.toNat).map (Coin.worth env nHeight)).getD 0

def inputsWorth (env : Environment) (nHeight : Int) (coins : Ledger.Coins Uint256 Coin)
    (vin : List CTxIn) : Int :=
  (vin.map (inputWorth env nHeight coins)).sum

/-- What one input must refer to. -/
structure InputOk (nSpendHeight : Int) (coin : Coin) : Prop where
  amount : moneyRange coin.txout.nValue = true
  mature : coin.fCoinBase = true → coinbaseMaturity ≤ nSpendHeight - coin.nHeight

structure InputsOk (env : Environment) (nSpendHeight : Int) (coins : Ledger.Coins Uint256 Coin)
    (tx : CTransaction) : Prop where
  spends : ∀ txin ∈ tx.vin, ∃ coin,
    coins txin.prevout.hash txin.prevout.n.toNat = some coin ∧ InputOk nSpendHeight coin
  total : moneyRange (inputsWorth env nSpendHeight coins tx.vin) = true
  covered : tx.outputs ≤ inputsWorth env nSpendHeight coins tx.vin + 100

theorem worth_range (env : Environment) (nHeight : Int) (coin : Coin)
    (amount : moneyRange coin.txout.nValue = true) :
    moneyRange (coin.worth env nHeight) = true := by
  rw [Coin.worth, CTxOut.getValueWithInterest]
  cases getTermDepositReleaseBlock coin.txout.scriptPubKey with
  | error fault => rfl
  | ok maturationBlock => exact getInterest_range _ _ _ _ _ _ amount

theorem wrap64_add_money (first second : Int) (one : moneyRange first = true)
    (other : moneyRange second = true) : wrap64 (first + second) = first + second := by
  have most : maxMoney = 600000000000000000 := rfl
  rw [moneyRange_iff] at one other
  apply wrap64_of_fits
  · omega
  · omega

/-- The coin behind an available input. -/
theorem coin_of_haveInput (view : FlatView) (txin : CTxIn) (have_it : view.haveInput txin = true) :
    ∃ coins, view.accessCoins txin.prevout.hash = some coins ∧
      view.utxo txin.prevout.hash txin.prevout.n.toNat =
        some ⟨view.prevOutput txin, coins.nHeight, coins.fCoinBase, coins.nVersion⟩ := by
  rw [haveInput_iff, utxo] at have_it
  rw [accessCoins, utxo, prevOutput, record]
  cases found : view.coins txin.prevout.hash with
  | none =>
      rw [found] at have_it
      cases have_it
  | some coins =>
      rw [found, Option.bind_some, CCoins.coin, Option.isSome_map] at have_it
      obtain ⟨txout, output⟩ := Option.isSome_iff_exists.mp have_it
      refine ⟨coins, rfl, ?_⟩
      rw [Option.bind_some, CCoins.coin, Option.getD_some, output]
      rfl

theorem addInputValue_ok (env : Environment) (view : FlatView) (nSpendHeight nValueIn result : Int)
    (txin : CTxIn) (have_it : view.haveInput txin = true) (start : moneyRange nValueIn = true)
    (added : addInputValue env view nSpendHeight nValueIn txin = .ok result) :
    (∃ coin, view.utxo txin.prevout.hash txin.prevout.n.toNat = some coin ∧
        InputOk nSpendHeight coin) ∧
      result = nValueIn + inputWorth env nSpendHeight view.utxo txin ∧
      moneyRange result = true := by
  obtain ⟨coins, access, found⟩ := coin_of_haveInput view txin have_it
  rw [addInputValue, access] at added
  simp only [bind_ok, require_ok, liftScript_ok, pure_ok] at added
  obtain ⟨-, mature, nValue, valued, -, ⟨amount, total⟩, rfl⟩ := added
  have worth : inputWorth env nSpendHeight view.utxo txin = nValue := by
    rw [inputWorth, found, Option.map_some, Option.getD_some, Coin.worth, valued]
  have inside : moneyRange nValue = true := by
    rw [← worth, inputWorth, found]
    exact worth_range env nSpendHeight _ amount
  have exact_sum := wrap64_add_money nValueIn nValue start inside
  refine ⟨⟨_, found, amount, mature⟩, ?_, total⟩
  rw [worth, exact_sum]

theorem addInputValues_ok (env : Environment) (view : FlatView) (nSpendHeight : Int)
    (vin : List CTxIn) (nValueIn result : Int) (have_all : ∀ txin ∈ vin, view.haveInput txin = true)
    (start : moneyRange nValueIn = true)
    (added : addInputValues env view nSpendHeight nValueIn vin = .ok result) :
    (∀ txin ∈ vin, ∃ coin, view.utxo txin.prevout.hash txin.prevout.n.toNat = some coin ∧
        InputOk nSpendHeight coin) ∧
      result = nValueIn + inputsWorth env nSpendHeight view.utxo vin ∧
      moneyRange result = true := by
  induction vin generalizing nValueIn with
  | nil =>
      cases added
      exact ⟨by simp, (Int.add_zero _).symm, start⟩
  | cons txin vin ih =>
      rw [addInputValues, bind_ok] at added
      obtain ⟨middle, first, others⟩ := added
      rw [List.forall_mem_cons] at have_all
      obtain ⟨here, sum, inside⟩ :=
        addInputValue_ok env view nSpendHeight nValueIn middle txin have_all.1 start first
      obtain ⟨later, rest, total⟩ := ih middle have_all.2 inside others
      refine ⟨List.forall_mem_cons.mpr ⟨here, later⟩, ?_, total⟩
      calc
        result = middle + inputsWorth env nSpendHeight view.utxo vin := rest
        _ = nValueIn + inputsWorth env nSpendHeight view.utxo (txin :: vin) := by
          rw [sum, Int.add_assoc, inputsWorth, inputsWorth, List.map_cons, List.sum_cons]

theorem checkTxInputs_ok (env : Environment) (view : FlatView) (tx : CTransaction)
    (checked : CheckedTransaction tx) (regular : tx.isCoinBase = false)
    (passed : checkTxInputs env view tx = .ok ()) :
    ∃ nSpendHeight, nextHeight env view = .ok nSpendHeight ∧
      InputsOk env nSpendHeight view.utxo tx := by
  simp only [checkTxInputs, bind_ok, require_ok, checkValues, checked.valued] at passed
  obtain ⟨-, available, nSpendHeight, height, nValueIn, added, nValueOut, valued, -, covered, -⟩ :=
    passed
  rw [haveInputs, regular, Bool.false_or, List.all_eq_true] at available
  obtain ⟨spends, sum, total⟩ :=
    addInputValues_ok env view nSpendHeight tx.vin 0 nValueIn available (by decide) added
  rw [Int.zero_add] at sum
  cases valued
  have fits : wrap64 (nValueIn + 100) = nValueIn + 100 :=
    wrap64_add_money nValueIn 100 total (by decide)
  refine ⟨nSpendHeight, height, spends, ?_, ?_⟩
  · rw [← sum]
    exact total
  · rw [← sum, ← fits]
    exact covered

end RoiCoin
