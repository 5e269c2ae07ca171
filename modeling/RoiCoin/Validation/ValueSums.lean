import RoiCoin.Lib.Logged
import RoiCoin.Validation.BlockCoins
import RoiCoin.Validation.CoinbaseBound

/-! The signed additions of `ConnectBlock`, `CheckInputs` and `CCoinsViewCache::GetValueIn`, with
their results as integers. -/

namespace RoiCoin

open Checked FlatView

/-- The range of `int64_t`. -/
def fits64 (n : Int) : Prop := -2 ^ 63 ≤ n ∧ n < 2 ^ 63

abbrev Adding := Logged Failure Int

def add64 (first second : Int) : Adding Int := ⟨[first + second], .ok (wrap64 (first + second))⟩

/-! ## The functions with their additions -/

def valueOutSums (nValueOut : Int) : List CTxOut → Adding Int
  | [] => pure nValueOut
  | txout :: vout => do
      let nValueOut ← add64 nValueOut txout.nValue
      Logged.silent (require (moneyRange txout.nValue ∧ moneyRange nValueOut) .valueOutOfRange)
      valueOutSums nValueOut vout

def getValueInSums (env : Environment) (view : FlatView) (nHeight nValueIn : Int) :
    List CTxIn → Adding Int
  | [] => pure nValueIn
  | txin :: vin => do
      let outTX ← Logged.silent (view.getOutputFor txin)
      let nValue ← Logged.silent (liftScript (outTX.getValueWithInterest env.pow env.chainHeight
        (view.record txin.prevout.hash).nHeight nHeight))
      let nValueIn ← add64 nValueIn nValue
      getValueInSums env view nHeight nValueIn vin

/-- `CCoinsViewCache::GetValueIn` -/
def viewGetValueIn (env : Environment) (view : FlatView) (tx : CTransaction)
    (valuationHeight : Int) : Adding Int :=
  if tx.isCoinBase then pure 0 else getValueInSums env view valuationHeight 0 tx.vin

def addInputValueSums (env : Environment) (view : FlatView) (nSpendHeight nValueIn : Int)
    (txin : CTxIn) : Adding Int :=
  match view.accessCoins txin.prevout.hash with
  | none => Logged.silent (.error (.assertion .coins))
  | some coins => do
      Logged.silent (require (coins.fCoinBase = true → coinbaseMaturity ≤ nSpendHeight - coins.nHeight)
        (.invalid ⟨0, rejectInvalid, "bad-txns-premature-spend-of-coinbase", false⟩))
      let txout := view.prevOutput txin
      let nValue ← Logged.silent (liftScript
        (txout.getValueWithInterest env.pow env.chainHeight coins.nHeight nSpendHeight))
      let nValueIn ← add64 nValueIn nValue
      Logged.silent (require (moneyRange txout.nValue ∧ moneyRange nValueIn)
        (dos 100 "bad-txns-inputvalues-outofrange"))
      return nValueIn

def addInputValuesSums (env : Environment) (view : FlatView) (nSpendHeight nValueIn : Int) :
    List CTxIn → Adding Int
  | [] => pure nValueIn
  | txin :: vin => do
      let nValueIn ← addInputValueSums env view nSpendHeight nValueIn txin
      addInputValuesSums env view nSpendHeight nValueIn vin

def checkValuesSums (nValueIn nValueOut : Int) : Adding Unit := do
  let tolerated ← add64 nValueIn 100
  Logged.silent (require (nValueOut ≤ tolerated) (dos 100 "bad-txns-in-belowout"))
  let nFees ← add64 0 (max 0 (wrap64 (nValueIn - nValueOut)))
  Logged.silent (require (moneyRange nFees) (dos 100 "bad-txns-fee-outofrange"))

def checkTxInputsSums (env : Environment) (view : FlatView) (tx : CTransaction) : Adding Unit := do
  Logged.silent (require (view.haveInputs tx = true) (.invalid ⟨0, 0, "", false⟩))
  let nSpendHeight ← Logged.silent (nextHeight env view)
  let nValueIn ← addInputValuesSums env view nSpendHeight 0 tx.vin
  let nValueOut ← valueOutSums 0 tx.vout
  checkValuesSums nValueIn nValueOut

def checkInputsSums (env : Environment) (view : FlatView) (tx : CTransaction)
    (fScriptChecks : Bool) (flags : BitVec 32) (defer : Bool) : Adding (List CScriptCheck) :=
  if tx.isCoinBase then pure []
  else do
    checkTxInputsSums env view tx
    Logged.silent (checkInputScripts env view tx fScriptChecks flags defer)

def connectInputsSums (env : Environment) (context : BlockContext) (st : Connecting)
    (tx : CTransaction) : Adding Connecting :=
  if tx.isCoinBase then pure st
  else do
    Logged.silent (require (st.view.haveInputs tx = true)
      (dos 100 "bad-txns-inputs-missingorspent"))
    let nP2SH ← Logged.silent (p2shSigOps context st.view tx)
    Logged.silent (require (st.nSigOps + nP2SH ≤ maxBlockSigOps) (dos 100 "bad-blk-sigops"))
    let nValueIn ← getValueInSums env st.view context.nHeight 0 tx.vin
    let nValueOut ← valueOutSums 0 tx.vout
    let nFees ← add64 st.nFees (nValueIn - nValueOut)
    let vChecks ← checkInputsSums env st.view tx context.fScriptChecks context.flags
      (env.nScriptCheckThreads != 0)
    return { st with
      nFees
      nSigOps := st.nSigOps + nP2SH
      control := st.control ++ vChecks }

def connectTxSums (env : Environment) (context : BlockContext) (i : Nat) (st : Connecting)
    (tx : CTransaction) : Adding Connecting := do
  let nSigOps := st.nSigOps + getLegacySigOpCount tx
  Logged.silent (require (nSigOps ≤ maxBlockSigOps) (dos 100 "bad-blk-sigops"))
  let st ← connectInputsSums env context { st with nSigOps } tx
  let (txundo, view) ← Logged.silent (updateCoins env context.nHeight st.view tx)
  return { st with view, vtxundo := if i = 0 then st.vtxundo else st.vtxundo ++ [txundo] }

def connectTxsSums (env : Environment) (context : BlockContext) (i : Nat) (st : Connecting) :
    List CTransaction → Adding Connecting
  | [] => pure st
  | tx :: vtx => do
      let st ← connectTxSums env context i st tx
      connectTxsSums env context (i + 1) st vtx

def connectTransactionsSums (env : Environment) (block : CBlock) (pindex : CBlockIndex)
    (view : FlatView) (fJustCheck : Bool) : Adding Connected := do
  Logged.silent (checkBIP30 env pindex view block.vtx)
  let st ← connectTxsSums env (blockContext env block pindex) 0 ⟨view, 0, 0, [], []⟩ block.vtx
  let withSubsidy ← add64 st.nFees (getBlockSubsidy pindex.nHeight)
  let blockReward ← add64 withSubsidy 1000
  Logged.silent (require (∀ check ∈ st.control, check.failed env = none)
    (.invalid ⟨100, 0, "", false⟩))
  Logged.silent (finishBlock pindex st blockReward fJustCheck)

def connectBlockSums (env : Environment) (block : CBlock) (pindex : CBlockIndex)
    (view : FlatView) (fJustCheck : Bool) : Adding Connected := do
  Logged.silent (checkBlock env block (!fJustCheck) (!fJustCheck))
  Logged.silent (require (pindex.pprev.getD 0 = view.hashBlock) (.assertion .bestBlock))
  if env.blockHash block.header = env.params.hashGenesisBlock then
    Logged.silent (connectGenesis pindex view fJustCheck)
  else connectTransactionsSums env block pindex view fJustCheck

/-! ## They are the functions of the other modules -/

@[simp] theorem add64_result (first second : Int) :
    (add64 first second).result = .ok (wrap64 (first + second)) := rfl

theorem valueOutSums_result (vout : List CTxOut) (nValueOut : Int)
    (start : moneyRange nValueOut = true) :
    (valueOutSums nValueOut vout).result = valueOutFrom nValueOut vout := by
  induction vout generalizing nValueOut with
  | nil => rfl
  | cons txout vout ih =>
      simp only [valueOutSums, Logged.result_bind, add64_result, Logged.result_silent, ok_then,
        valueOutFrom]
      by_cases amount : moneyRange txout.nValue = true
      · have sum := wrap64_add_money nValueOut txout.nValue start amount
        rw [sum]
        by_cases total : moneyRange (nValueOut + txout.nValue) = true
        · rw [require_of _ _ ⟨amount, total⟩, ok_then, ok_then, ih _ total]
        · rw [require, if_neg (fun both => total both.2)]
          rfl
      · rw [require, require, if_neg (fun both => amount both.1),
          if_neg (fun both => amount both.1)]
        rfl

theorem getValueInSums_result (env : Environment) (view : FlatView) (nHeight : Int)
    (vin : List CTxIn) (nValueIn : Int) :
    (getValueInSums env view nHeight nValueIn vin).result =
      getValueIn env view nHeight nValueIn vin := by
  induction vin generalizing nValueIn with
  | nil => rfl
  | cons txin vin ih =>
      simp only [getValueInSums, Logged.result_bind, add64_result, Logged.result_silent, ok_then,
        getValueIn, ih]

theorem addInputValueSums_result (env : Environment) (view : FlatView)
    (nSpendHeight nValueIn : Int) (txin : CTxIn) :
    (addInputValueSums env view nSpendHeight nValueIn txin).result =
      addInputValue env view nSpendHeight nValueIn txin := by
  rw [addInputValueSums, addInputValue]
  cases view.accessCoins txin.prevout.hash with
  | none => rfl
  | some coins =>
      simp only [Logged.result_bind, add64_result, Logged.result_silent, ok_then,
        Logged.result_pure]
      rfl

theorem addInputValuesSums_result (env : Environment) (view : FlatView) (nSpendHeight : Int)
    (vin : List CTxIn) (nValueIn : Int) :
    (addInputValuesSums env view nSpendHeight nValueIn vin).result =
      addInputValues env view nSpendHeight nValueIn vin := by
  induction vin generalizing nValueIn with
  | nil => rfl
  | cons txin vin ih =>
      simp only [addInputValuesSums, Logged.result_bind, addInputValueSums_result, addInputValues,
        ih]

theorem wrap64_fits (n : Int) : fits64 (wrap64 n) := by
  rw [fits64, wrap64]
  omega

theorem checkValuesSums_result (nValueIn nValueOut : Int) :
    (checkValuesSums nValueIn nValueOut).result = checkValues nValueIn nValueOut := by
  have fee := wrap64_fits (nValueIn - nValueOut)
  rw [fits64] at fee
  have same : wrap64 (0 + max 0 (wrap64 (nValueIn - nValueOut))) =
      max 0 (wrap64 (nValueIn - nValueOut)) := by
    rw [Int.zero_add]
    apply wrap64_of_fits
    · omega
    · omega
  simp only [checkValuesSums, Logged.result_bind, add64_result, Logged.result_silent, ok_then,
    same, checkValues]

theorem checkTxInputsSums_result (env : Environment) (view : FlatView) (tx : CTransaction) :
    (checkTxInputsSums env view tx).result = checkTxInputs env view tx := by
  have valueOut := valueOutSums_result tx.vout 0 (by decide)
  simp only [checkTxInputsSums, Logged.result_bind, Logged.result_silent,
    addInputValuesSums_result, valueOut, checkValuesSums_result, checkTxInputs,
    CTransaction.getValueOut]

theorem checkInputsSums_result (env : Environment) (view : FlatView) (tx : CTransaction)
    (fScriptChecks : Bool) (flags : BitVec 32) (defer : Bool) :
    (checkInputsSums env view tx fScriptChecks flags defer).result =
      checkInputs env view tx fScriptChecks flags defer := by
  rw [checkInputsSums, checkInputs]
  split
  · rfl
  · simp only [Logged.result_bind, Logged.result_silent, checkTxInputsSums_result]

theorem connectInputsSums_result (env : Environment) (context : BlockContext) (st : Connecting)
    (tx : CTransaction) :
    (connectInputsSums env context st tx).result = connectInputs env context st tx := by
  have valueOut := valueOutSums_result tx.vout 0 (by decide)
  rw [connectInputsSums, connectInputs]
  split
  · rfl
  · simp only [Logged.result_bind, Logged.result_silent, getValueInSums_result, valueOut,
      add64_result, ok_then, checkInputsSums_result, CTransaction.getValueOut]
    rfl

theorem connectTxSums_result (env : Environment) (context : BlockContext) (i : Nat)
    (st : Connecting) (tx : CTransaction) :
    (connectTxSums env context i st tx).result = connectTx env context i st tx := by
  simp only [connectTxSums, Logged.result_bind, Logged.result_silent, connectInputsSums_result,
    connectTx]
  rfl

theorem connectTxsSums_result (env : Environment) (context : BlockContext) (i : Nat)
    (st : Connecting) (vtx : List CTransaction) :
    (connectTxsSums env context i st vtx).result = connectTxs env context i st vtx := by
  induction vtx generalizing i st with
  | nil => rfl
  | cons tx vtx ih =>
      simp only [connectTxsSums, Logged.result_bind, connectTxSums_result, connectTxs, ih]

theorem connectBlockSums_result (env : Environment) (block : CBlock) (pindex : CBlockIndex)
    (view : FlatView) (fJustCheck : Bool) :
    (connectBlockSums env block pindex view fJustCheck).result =
      connectBlock env block pindex view fJustCheck := by
  have reward : ∀ nFees : Int, wrap64 (wrap64 (nFees + getBlockSubsidy pindex.nHeight) + 1000) =
      wrap64 (nFees + getBlockSubsidy pindex.nHeight + 1000) := fun nFees =>
    wrap64_add_congr _ _ _ (wrap64_wrap64 _)
  have transactions : (connectTransactionsSums env block pindex view fJustCheck).result =
      connectTransactions env block pindex view fJustCheck := by
    simp only [connectTransactionsSums, Logged.result_bind, Logged.result_silent,
      connectTxsSums_result, add64_result, ok_then, reward, connectTransactions]
  simp only [connectBlockSums, Logged.result_bind, Logged.result_silent, connectBlock]
  split
  · rfl
  · rw [transactions]

/-! ## Sums that are guarded after each addition -/

theorem add64_fits (first second : Int) :
    (add64 first second).All fits64 ↔ fits64 (first + second) := List.forall_mem_singleton

theorem fits64_add_money (first second : Int) (one : moneyRange first = true)
    (other : moneyRange second = true) : fits64 (first + second) := by
  have most : maxMoney = 600000000000000000 := rfl
  rw [moneyRange_iff] at one other
  rw [fits64]
  omega

theorem valueOutSums_fit (vout : List CTxOut) (nValueOut : Int)
    (start : moneyRange nValueOut = true)
    (amounts : ∀ txout ∈ vout, 0 ≤ txout.nValue ∧ txout.nValue ≤ maxMoney) :
    (valueOutSums nValueOut vout).All fits64 := by
  induction vout generalizing nValueOut with
  | nil => exact Logged.all_pure _ _
  | cons txout vout ih =>
      rw [List.forall_mem_cons] at amounts
      have amount := (moneyRange_iff txout.nValue).mpr amounts.1
      rw [valueOutSums, Logged.all_bind, add64_fits]
      refine ⟨fits64_add_money _ _ start amount, ?_⟩
      intro sum added
      rw [Logged.all_silent_bind]
      intro _ guarded
      exact ih sum ((require_ok _ _ _).mp guarded).2 amounts.2

theorem inputValue_inRange (env : Environment) (nSpendHeight nHeight nValue : Int) (txout : CTxOut)
    (amount : moneyRange txout.nValue = true)
    (valued : txout.getValueWithInterest env.pow env.chainHeight nHeight nSpendHeight = .ok nValue) :
    moneyRange nValue = true := by
  have worth := worth_range env nSpendHeight ⟨txout, nHeight, false, 0⟩ amount
  rwa [Coin.worth, valued] at worth

theorem prevOutput_inRange (view : FlatView) (inRange : Ledger.Each Coin.InRange view.utxo)
    (txin : CTxIn) (have_it : view.haveInput txin = true) :
    moneyRange (view.prevOutput txin).nValue = true := by
  obtain ⟨coins, -, found⟩ := coin_of_haveInput view txin have_it
  exact inRange _ _ _ found

theorem addInputValueSums_fit (env : Environment) (view : FlatView) (nSpendHeight nValueIn : Int)
    (txin : CTxIn) (inRange : Ledger.Each Coin.InRange view.utxo)
    (have_it : view.haveInput txin = true) (start : moneyRange nValueIn = true) :
    (addInputValueSums env view nSpendHeight nValueIn txin).All fits64 := by
  rw [addInputValueSums]
  cases view.accessCoins txin.prevout.hash with
  | none => exact Logged.all_silent _ _
  | some coins =>
      dsimp only
      rw [Logged.all_silent_bind]
      intro _ _
      rw [Logged.all_silent_bind]
      intro nValue valued
      rw [liftScript_ok] at valued
      rw [Logged.all_bind, add64_fits]
      refine ⟨fits64_add_money _ _ start (inputValue_inRange env nSpendHeight coins.nHeight nValue _
        (prevOutput_inRange view inRange txin have_it) valued), ?_⟩
      intro sum _
      rw [Logged.all_silent_bind]
      intro _ _
      exact Logged.all_pure _ _

theorem addInputValuesSums_fit (env : Environment) (view : FlatView) (nSpendHeight : Int)
    (inRange : Ledger.Each Coin.InRange view.utxo) (vin : List CTxIn) (nValueIn : Int)
    (have_all : ∀ txin ∈ vin, view.haveInput txin = true) (start : moneyRange nValueIn = true) :
    (addInputValuesSums env view nSpendHeight nValueIn vin).All fits64 := by
  induction vin generalizing nValueIn with
  | nil => exact Logged.all_pure _ _
  | cons txin vin ih =>
      rw [List.forall_mem_cons] at have_all
      rw [addInputValuesSums, Logged.all_bind]
      refine ⟨addInputValueSums_fit env view nSpendHeight nValueIn txin inRange have_all.1 start, ?_⟩
      intro sum added
      rw [addInputValueSums_result] at added
      exact ih sum have_all.2
        (addInputValue_ok env view nSpendHeight nValueIn sum txin have_all.1 start added).2.2

theorem checkValuesSums_fit (nValueIn nValueOut : Int) (total : moneyRange nValueIn = true) :
    (checkValuesSums nValueIn nValueOut).All fits64 := by
  have fee := wrap64_fits (nValueIn - nValueOut)
  rw [fits64] at fee
  rw [checkValuesSums, Logged.all_bind, add64_fits]
  refine ⟨fits64_add_money _ _ total (by decide), ?_⟩
  intro tolerated _
  rw [Logged.all_silent_bind]
  intro _ _
  rw [Logged.all_bind, add64_fits]
  refine ⟨?_, fun _ _ => Logged.all_silent _ _⟩
  rw [fits64]
  omega

/-- The additions of `CheckInputs` fit whatever the transaction spends. -/
theorem checkInputsSums_fit (env : Environment) (view : FlatView) (tx : CTransaction)
    (fScriptChecks : Bool) (flags : BitVec 32) (defer : Bool) (checked : CheckedTransaction tx)
    (inRange : Ledger.Each Coin.InRange view.utxo) :
    (checkInputsSums env view tx fScriptChecks flags defer).All fits64 := by
  rw [checkInputsSums]
  split
  · exact Logged.all_pure _ _
  · rename_i special
    rw [Logged.all_bind]
    refine ⟨?_, fun _ _ => Logged.all_silent _ _⟩
    rw [checkTxInputsSums, Logged.all_silent_bind]
    intro _ available
    rw [require_ok, haveInputs, Bool.eq_false_iff.mpr special, Bool.false_or,
      List.all_eq_true] at available
    rw [Logged.all_silent_bind]
    intro nSpendHeight _
    rw [Logged.all_bind]
    refine ⟨addInputValuesSums_fit env view nSpendHeight inRange tx.vin 0 available (by decide), ?_⟩
    intro nValueIn added
    rw [addInputValuesSums_result] at added
    have total := (addInputValues_ok env view nSpendHeight tx.vin 0 nValueIn available (by decide)
      added).2.2
    rw [Logged.all_bind]
    refine ⟨valueOutSums_fit tx.vout 0 (by decide) checked.amounts, ?_⟩
    intro nValueOut _
    exact checkValuesSums_fit nValueIn nValueOut total

/-! ## The sums over all inputs -/

/-- The inputs up to the first without a coin or with a script that the recogniser throws on. -/
def valuedInputs (coins : Ledger.Coins Uint256 Coin) (vin : List CTxIn) : List CTxIn :=
  vin.takeWhile fun txin =>
    match coins txin.prevout.hash txin.prevout.n.toNat with
    | none => false
    | some coin => (getTermDepositReleaseBlock coin.txout.scriptPubKey).toBool

theorem inputsWorth_nonneg (env : Environment) (nHeight : Int)
    (coins : Ledger.Coins Uint256 Coin) (inRange : Ledger.Each Coin.InRange coins)
    (vin : List CTxIn) : 0 ≤ inputsWorth env nHeight coins vin := by
  rw [inputsWorth]
  apply List.sum_nonneg
  intro worth member
  obtain ⟨txin, -, rfl⟩ := List.mem_map.mp member
  rw [inputWorth]
  cases found : coins txin.prevout.hash txin.prevout.n.toNat with
  | none => exact le_rfl
  | some coin => exact ((moneyRange_iff _).mp (worth_range env nHeight coin (inRange _ _ _ found))).1

theorem inputsWorth_cons (env : Environment) (nHeight : Int) (coins : Ledger.Coins Uint256 Coin)
    (txin : CTxIn) (vin : List CTxIn) : inputsWorth env nHeight coins (txin :: vin) =
      inputWorth env nHeight coins txin + inputsWorth env nHeight coins vin := by
  rw [inputsWorth, List.map_cons, List.sum_cons, inputsWorth]

theorem getOutputFor_some (view : FlatView) (txin : CTxIn) (coin : Coin)
    (found : view.utxo txin.prevout.hash txin.prevout.n.toNat = some coin) :
    view.getOutputFor txin = .ok coin.txout ∧
      (view.record txin.prevout.hash).nHeight = coin.nHeight := by
  rw [← coin_record, CCoins.coin, Option.map_eq_some_iff] at found
  obtain ⟨txout, output, rfl⟩ := found
  exact ⟨(getOutputFor_ok view txin txout).mpr output, rfl⟩

theorem getOutputFor_none (view : FlatView) (txin : CTxIn) (txout : CTxOut)
    (found : view.utxo txin.prevout.hash txin.prevout.n.toNat = none) :
    view.getOutputFor txin ≠ .ok txout := by
  rw [← coin_record, CCoins.coin, Option.map_eq_none_iff] at found
  rw [ne_eq, getOutputFor_ok, found]
  simp

/-- The unguarded loop fits exactly if the values of all its inputs together do. -/
theorem getValueInSums_fit (env : Environment) (view : FlatView) (nHeight : Int)
    (inRange : Ledger.Each Coin.InRange view.utxo) (vin : List CTxIn) (nValueIn : Int)
    (start : 0 ≤ nValueIn ∧ nValueIn < 2 ^ 63) :
    (getValueInSums env view nHeight nValueIn vin).All fits64 ↔
      nValueIn + inputsWorth env nHeight view.utxo (valuedInputs view.utxo vin) < 2 ^ 63 := by
  induction vin generalizing nValueIn with
  | nil =>
      rw [valuedInputs, List.takeWhile_nil, inputsWorth, List.map_nil, List.sum_nil, Int.add_zero]
      exact iff_of_true (Logged.all_pure _ _) start.2
  | cons txin vin ih =>
      have stops : valuedInputs view.utxo (txin :: vin) = [] →
          (nValueIn + inputsWorth env nHeight view.utxo (valuedInputs view.utxo (txin :: vin)) <
            2 ^ 63) := by
        intro none_valued
        rw [none_valued, inputsWorth, List.map_nil, List.sum_nil, Int.add_zero]
        exact start.2
      rw [getValueInSums, Logged.all_silent_bind]
      cases found : view.utxo txin.prevout.hash txin.prevout.n.toNat with
      | none =>
          apply iff_of_true
          · intro outTX output
            exact absurd output (getOutputFor_none view txin outTX found)
          · apply stops
            rw [valuedInputs, List.takeWhile_cons_of_neg (by simp [found])]
      | some coin =>
          obtain ⟨output, height⟩ := getOutputFor_some view txin coin found
          rw [output, height]
          cases recognised : getTermDepositReleaseBlock coin.txout.scriptPubKey with
          | error fault =>
              apply iff_of_true
              · rintro _ ⟨⟩
                rw [Logged.all_silent_bind]
                intro nValue valued
                rw [liftScript_ok, CTxOut.getValueWithInterest, recognised] at valued
                cases valued
              · apply stops
                rw [valuedInputs,
                  List.takeWhile_cons_of_neg (by simp [found, recognised, Except.toBool])]
          | ok maturationBlock =>
              have worth : inputWorth env nHeight view.utxo txin = coin.worth env nHeight := by
                rw [inputWorth, found, Option.map_some, Option.getD_some]
              have valued : coin.txout.getValueWithInterest env.pow env.chainHeight coin.nHeight
                  nHeight = .ok (coin.worth env nHeight) := by
                rw [Coin.worth, CTxOut.getValueWithInterest, recognised]
                rfl
              have first : valuedInputs view.utxo (txin :: vin) =
                  txin :: valuedInputs view.utxo vin := by
                rw [valuedInputs,
                  List.takeWhile_cons_of_pos (by simp [found, recognised, Except.toBool]),
                  valuedInputs]
              have inside := (moneyRange_iff _).mp
                (worth_range env nHeight coin (inRange _ _ _ found))
              have rest := inputsWorth_nonneg env nHeight view.utxo inRange
                (valuedInputs view.utxo vin)
              rw [first, inputsWorth_cons, worth]
              constructor
              · intro all
                have turn := (Logged.all_silent_bind _ _ _).mp (all _ rfl) _
                  ((liftScript_ok _ _).mpr valued)
                rw [Logged.all_bind, add64_fits, fits64] at turn
                obtain ⟨sum, later⟩ := turn
                have exact_sum := wrap64_of_fits _ sum.1 sum.2
                have fits := later _ rfl
                rw [exact_sum, ih _ ⟨by omega, sum.2⟩] at fits
                omega
              · rintro total _ ⟨⟩
                rw [Logged.all_silent_bind, valued]
                rintro _ ⟨⟩
                have sum : fits64 (nValueIn + coin.worth env nHeight) := by
                  rw [fits64]
                  omega
                rw [Logged.all_bind, add64_fits]
                refine ⟨sum, ?_⟩
                rintro _ ⟨⟩
                rw [wrap64_of_fits _ sum.1 sum.2, ih _ ⟨by omega, sum.2⟩]
                omega

theorem viewGetValueIn_fit (env : Environment) (view : FlatView) (tx : CTransaction)
    (valuationHeight : Int) (inRange : Ledger.Each Coin.InRange view.utxo) :
    (viewGetValueIn env view tx valuationHeight).All fits64 ↔ (tx.isCoinBase = false →
      inputsWorth env valuationHeight view.utxo (valuedInputs view.utxo tx.vin) < 2 ^ 63) := by
  rw [viewGetValueIn]
  cases tx.isCoinBase with
  | true => exact iff_of_true (Logged.all_pure _ _) (by simp)
  | false =>
      rw [if_neg Bool.false_ne_true, getValueInSums_fit env view valuationHeight inRange tx.vin 0
        (by decide), Int.zero_add, forall_prop_of_true rfl]

/-! ## One transaction of the block -/

/-- The transaction is not refused before its inputs are valued. -/
structure ComesToSums (context : BlockContext) (st : Connecting) (tx : CTransaction) : Prop where
  regular : tx.isCoinBase = false
  sigOps : st.nSigOps + getLegacySigOpCount tx ≤ maxBlockSigOps
  available : st.view.haveInputs tx = true
  p2sh : ∃ nP2SH, p2shSigOps context st.view tx = .ok nP2SH ∧
    st.nSigOps + getLegacySigOpCount tx + nP2SH ≤ maxBlockSigOps

/-- The values of the inputs together and the fees after the transaction fit, where they are
computed at all. -/
def TxSumsFit (env : Environment) (context : BlockContext) (nFees : Int) (st : Connecting)
    (tx : CTransaction) : Prop :=
  ComesToSums context st tx →
    inputsWorth env context.nHeight st.view.utxo (valuedInputs st.view.utxo tx.vin) < 2 ^ 63 ∧
    (valuedInputs st.view.utxo tx.vin = tx.vin →
      nFees + txFee env context.nHeight st.view.utxo tx < 2 ^ 63)

theorem getValueIn_all (env : Environment) (view : FlatView) (nHeight : Int) (vin : List CTxIn)
    (nValueIn : Int) (all : valuedInputs view.utxo vin = vin) :
    ∃ result, getValueIn env view nHeight nValueIn vin = .ok result := by
  induction vin generalizing nValueIn with
  | nil => exact ⟨nValueIn, rfl⟩
  | cons txin vin ih =>
      rw [valuedInputs] at all
      cases found : view.utxo txin.prevout.hash txin.prevout.n.toNat with
      | none =>
          rw [List.takeWhile_cons_of_neg (by simp [found])] at all
          cases all
      | some coin =>
          cases recognised : getTermDepositReleaseBlock coin.txout.scriptPubKey with
          | error fault =>
              rw [List.takeWhile_cons_of_neg (by simp [found, recognised, Except.toBool])] at all
              cases all
          | ok maturationBlock =>
              rw [List.takeWhile_cons_of_pos (by simp [found, recognised, Except.toBool]),
                ← valuedInputs] at all
              obtain ⟨output, height⟩ := getOutputFor_some view txin coin found
              obtain ⟨result, sum⟩ := ih _ (List.cons.inj all).2
              refine ⟨result, ?_⟩
              rw [getValueIn, output, height]
              simp only [ok_then, CTxOut.getValueWithInterest, recognised, Except.map, liftScript]
              exact sum

theorem getValueIn_valued (env : Environment) (view : FlatView) (nHeight : Int) (vin : List CTxIn)
    (nValueIn result : Int) (summed : getValueIn env view nHeight nValueIn vin = .ok result) :
    valuedInputs view.utxo vin = vin := by
  induction vin generalizing nValueIn with
  | nil => rfl
  | cons txin vin ih =>
      simp only [getValueIn, bind_ok, liftScript_ok] at summed
      obtain ⟨txout, output, nValue, valued, rest⟩ := summed
      have here := (getOutputFor_ok view txin txout).mp output
      have found : view.utxo txin.prevout.hash txin.prevout.n.toNat =
          some ⟨txout, (view.record txin.prevout.hash).nHeight,
            (view.record txin.prevout.hash).fCoinBase, (view.record txin.prevout.hash).nVersion⟩ := by
        rw [← coin_record, CCoins.coin, here]
        rfl
      rw [CTxOut.getValueWithInterest] at valued
      cases recognised : getTermDepositReleaseBlock txout.scriptPubKey with
      | error fault =>
          rw [recognised] at valued
          cases valued
      | ok maturationBlock =>
          rw [valuedInputs, List.takeWhile_cons_of_pos (by simp [found, recognised, Except.toBool]),
            ← valuedInputs, ih _ rest]

/-- Where the sum fits, the loop returns the values of all inputs. -/
theorem getValueIn_exact (env : Environment) (view : FlatView) (nHeight : Int) (vin : List CTxIn)
    (nValueIn result : Int) (start : 0 ≤ nValueIn)
    (inRange : Ledger.Each Coin.InRange view.utxo)
    (summed : getValueIn env view nHeight nValueIn vin = .ok result)
    (fits : nValueIn + inputsWorth env nHeight view.utxo vin < 2 ^ 63) :
    result = nValueIn + inputsWorth env nHeight view.utxo vin := by
  induction vin generalizing nValueIn with
  | nil =>
      cases summed
      rw [inputsWorth, List.map_nil, List.sum_nil, Int.add_zero]
  | cons txin vin ih =>
      simp only [getValueIn, bind_ok, liftScript_ok] at summed
      obtain ⟨txout, output, nValue, valued, rest⟩ := summed
      have here := (getOutputFor_ok view txin txout).mp output
      have worth : inputWorth env nHeight view.utxo txin = nValue := by
        rw [inputWorth, ← coin_record, CCoins.coin, here]
        simp only [Option.map_some, Option.getD_some, Coin.worth, valued]
      have later := inputsWorth_nonneg env nHeight view.utxo inRange vin
      have single := inputsWorth_nonneg env nHeight view.utxo inRange [txin]
      rw [inputsWorth, List.map_singleton, List.sum_singleton, worth] at single
      rw [inputsWorth_cons, worth] at fits ⊢
      rw [wrap64_of_fits _ (by omega) (by omega)] at rest
      rw [ih _ (by omega) rest (by omega)]
      omega

theorem outputs_inRange (tx : CTransaction) (checked : CheckedTransaction tx) :
    0 ≤ tx.outputs ∧ tx.outputs ≤ maxMoney := by
  have range : ∀ vout (start result : Int), moneyRange start = true →
      valueOutFrom start vout = .ok result → moneyRange result = true := by
    intro vout
    induction vout with
    | nil =>
        intro start result inside summed
        cases summed
        exact inside
    | cons txout vout ih =>
        intro start result _ summed
        simp only [valueOutFrom, then_ok, require_ok] at summed
        exact ih _ result summed.1.2 summed.2
  exact (moneyRange_iff _).mp (range tx.vout 0 tx.outputs (by decide) checked.valued)

theorem txFee_regular (env : Environment) (nHeight : Int) (coins : Ledger.Coins Uint256 Coin)
    (tx : CTransaction) (regular : tx.isCoinBase = false) :
    txFee env nHeight coins tx = inputsWorth env nHeight coins tx.vin - tx.outputs := by
  rw [txFee, regular, if_neg Bool.false_ne_true]

/-- The lower end of the range is far away. -/
def Covered (nFees : Int) : Prop := -2 ^ 40 ≤ nFees ∧ nFees < 2 ^ 63

theorem connectInputsSums_fit (env : Environment) (context : BlockContext) (st : Connecting)
    (tx : CTransaction) (nSigOps : Nat) (checked : CheckedTransaction tx)
    (inRange : Ledger.Each Coin.InRange st.view.utxo) (covered : Covered st.nFees)
    (counted : nSigOps = st.nSigOps + getLegacySigOpCount tx) (few : nSigOps ≤ maxBlockSigOps) :
    (connectInputsSums env context { st with nSigOps } tx).All fits64 ↔
      TxSumsFit env context st.nFees st tx := by
  rw [connectInputsSums, TxSumsFit]
  cases special : tx.isCoinBase with
  | true =>
      apply iff_of_true (Logged.all_pure _ _)
      intro comes
      rw [comes.regular] at special
      cases special
  | false =>
      rw [if_neg Bool.false_ne_true]
      dsimp only
      have outputs := outputs_inRange tx checked
      have most : maxMoney = 600000000000000000 := rfl
      have worth := inputsWorth_nonneg env context.nHeight st.view.utxo inRange tx.vin
      have sums := getValueInSums_fit env st.view context.nHeight inRange tx.vin 0 (by decide)
      have valueOut := valueOutSums_result tx.vout 0 (by decide)
      rw [Int.zero_add] at sums
      rw [txFee_regular env context.nHeight st.view.utxo tx special]
      constructor
      · intro all comes
        obtain ⟨nP2SH, p2sh, small⟩ := comes.p2sh
        have one := (Logged.all_silent_bind _ _ _).mp all ()
          ((require_ok _ _ _).mpr comes.available)
        have two := (Logged.all_silent_bind _ _ _).mp one nP2SH p2sh
        have three := (Logged.all_silent_bind _ _ _).mp two ()
          ((require_ok _ _ _).mpr (by rw [counted]; exact small))
        rw [Logged.all_bind, sums] at three
        obtain ⟨total, after⟩ := three
        refine ⟨total, ?_⟩
        intro valued
        rw [valued] at total
        obtain ⟨nValueIn, summed⟩ := getValueIn_all env st.view context.nHeight tx.vin 0 valued
        have exact_sum := getValueIn_exact env st.view context.nHeight tx.vin 0 nValueIn le_rfl
          inRange summed (by omega)
        have four := after nValueIn ((getValueInSums_result _ _ _ _ _).trans summed)
        rw [Logged.all_bind] at four
        have five := four.2 tx.outputs (valueOut.trans checked.valued)
        rw [Logged.all_bind, add64_fits, fits64] at five
        omega
      · intro condition
        rw [Logged.all_silent_bind]
        intro _ available
        rw [require_ok] at available
        rw [Logged.all_silent_bind]
        intro nP2SH p2sh
        rw [Logged.all_silent_bind]
        intro _ small
        rw [require_ok, counted] at small
        obtain ⟨total, fees⟩ := condition ⟨special, counted ▸ few, available, nP2SH, p2sh, small⟩
        rw [Logged.all_bind, sums]
        refine ⟨total, ?_⟩
        intro nValueIn summed
        rw [getValueInSums_result] at summed
        have valued := getValueIn_valued env st.view context.nHeight tx.vin 0 nValueIn summed
        rw [valued] at total
        have exact_sum := getValueIn_exact env st.view context.nHeight tx.vin 0 nValueIn le_rfl
          inRange summed (by omega)
        rw [Logged.all_bind]
        refine ⟨valueOutSums_fit tx.vout 0 (by decide) checked.amounts, ?_⟩
        intro nValueOut valueOut'
        rw [valueOut] at valueOut'
        have same : tx.outputs = nValueOut := Except.ok.inj (checked.valued.symm.trans valueOut')
        have after := fees valued
        rw [Logged.all_bind, add64_fits, fits64]
        refine ⟨?_, ?_⟩
        · rw [Covered] at covered
          omega
        · intro nFees _
          rw [Logged.all_bind]
          exact ⟨checkInputsSums_fit env st.view tx _ _ _ checked inRange,
            fun _ _ => Logged.all_pure _ _⟩

theorem connectTxSums_fit (env : Environment) (context : BlockContext) (i : Nat) (st : Connecting)
    (tx : CTransaction) (checked : CheckedTransaction tx)
    (inRange : Ledger.Each Coin.InRange st.view.utxo) (covered : Covered st.nFees) :
    (connectTxSums env context i st tx).All fits64 ↔ TxSumsFit env context st.nFees st tx := by
  rw [connectTxSums, Logged.all_silent_bind]
  by_cases few : st.nSigOps + getLegacySigOpCount tx ≤ maxBlockSigOps
  · have inputs := connectInputsSums_fit env context st tx _ checked inRange covered rfl few
    rw [← inputs]
    constructor
    · intro all
      exact ((Logged.all_bind _ _ _).mp (all () ((require_ok _ _ _).mpr few))).1
    · intro fits _ _
      rw [Logged.all_bind]
      refine ⟨fits, ?_⟩
      intro middle _
      rw [Logged.all_silent_bind]
      exact fun _ _ => Logged.all_pure _ _
  · apply iff_of_true
    · intro _ passed
      exact absurd ((require_ok _ _ _).mp passed) few
    · exact fun comes => absurd comes.sigOps few

/-! ## The transactions before one -/

theorem connectTxs_append (env : Environment) (context : BlockContext) (front back : List CTransaction)
    (i : Nat) (st st'' : Connecting) :
    connectTxs env context i st (front ++ back) = .ok st'' ↔
      ∃ st', connectTxs env context i st front = .ok st' ∧
        connectTxs env context (i + front.length) st' back = .ok st'' := by
  induction front generalizing i st with
  | nil => simp [connectTxs]
  | cons tx front ih =>
      simp only [List.cons_append, connectTxs, bind_ok, ih, List.length_cons]
      constructor
      · rintro ⟨middle, first, st', rest, last⟩
        exact ⟨st', ⟨middle, first, rest⟩, by rwa [Nat.add_comm front.length, ← Nat.add_assoc]⟩
      · rintro ⟨st', ⟨middle, first, rest⟩, last⟩
        exact ⟨middle, first, st', rest, by rwa [Nat.add_comm front.length, ← Nat.add_assoc] at last⟩

/-- The additions of the loop are those of the transactions that it reaches. -/
theorem connectTxsSums_reached (env : Environment) (context : BlockContext)
    (vtx : List CTransaction) (i : Nat) (st : Connecting) :
    (connectTxsSums env context i st vtx).All fits64 ↔
      ∀ front tx back st', vtx = front ++ tx :: back →
        connectTxs env context i st front = .ok st' →
        (connectTxSums env context (i + front.length) st' tx).All fits64 := by
  induction vtx generalizing i st with
  | nil =>
      apply iff_of_true (Logged.all_pure _ _)
      intro front tx back _ split
      simp at split
  | cons first vtx ih =>
      rw [connectTxsSums, Logged.all_bind, connectTxSums_result]
      constructor
      · rintro ⟨here, later⟩ front tx back st' split connected
        cases front with
        | nil =>
            cases split
            cases connected
            exact here
        | cons other front =>
            rw [List.cons_append, List.cons.injEq] at split
            obtain ⟨rfl, split⟩ := split
            obtain ⟨middle, one, rest⟩ := (bind_ok _ _ _).mp connected
            have fits := (ih (i + 1) middle).mp (later middle one) front tx back st' split rest
            rwa [List.length_cons, Nat.add_comm front.length, ← Nat.add_assoc]
      · intro all
        refine ⟨all [] first vtx st rfl rfl, ?_⟩
        intro middle one
        rw [ih]
        intro front tx back st' split rest
        have fits := all (first :: front) tx back st' (by rw [split, List.cons_append])
          ((bind_ok _ _ _).mpr ⟨middle, one, rest⟩)
        rwa [List.length_cons, Nat.add_comm front.length, ← Nat.add_assoc] at fits

theorem connectTx_comes (env : Environment) (context : BlockContext) (i : Nat)
    (st st' : Connecting) (tx : CTransaction) (regular : tx.isCoinBase = false)
    (connected : connectTx env context i st tx = .ok st') :
    ComesToSums context st tx ∧ valuedInputs st.view.utxo tx.vin = tx.vin := by
  simp only [connectTx, bind_ok, require_ok] at connected
  obtain ⟨-, sigOps, middle, inputs, -⟩ := connected
  rw [connectInputs, regular, if_neg Bool.false_ne_true] at inputs
  simp only [bind_ok, require_ok] at inputs
  obtain ⟨-, available, nP2SH, p2sh, -, small, nValueIn, summed, -⟩ := inputs
  exact ⟨⟨regular, sigOps, available, nP2SH, p2sh, small⟩,
    getValueIn_valued env st.view context.nHeight tx.vin 0 nValueIn summed⟩

theorem connectTx_wrapped (env : Environment) (context : BlockContext) (i : Nat)
    (st st' : Connecting) (tx : CTransaction) (start : fits64 st.nFees)
    (connected : connectTx env context i st tx = .ok st') : fits64 st'.nFees := by
  simp only [connectTx, bind_ok, pure_ok, Prod.exists] at connected
  obtain ⟨-, -, middle, inputs, txundo, view, -, rfl⟩ := connected
  rw [connectInputs] at inputs
  split at inputs
  · cases inputs
    exact start
  · simp only [bind_ok, pure_ok] at inputs
    obtain ⟨-, -, nP2SH, -, -, -, nValueIn, -, nValueOut, -, vChecks, -, rfl⟩ := inputs
    exact wrap64_fits _

theorem connectTxs_wrapped (env : Environment) (context : BlockContext) (vtx : List CTransaction)
    (i : Nat) (st st' : Connecting) (start : fits64 st.nFees)
    (connected : connectTxs env context i st vtx = .ok st') : fits64 st'.nFees := by
  induction vtx generalizing i st with
  | nil =>
      cases connected
      exact start
  | cons tx vtx ih =>
      obtain ⟨middle, first, rest⟩ := (bind_ok _ _ _).mp connected
      exact ih (i + 1) middle (connectTx_wrapped env context i st middle tx start first) rest

theorem feesAlong_append (env : Environment) (context : BlockContext) (front back : List CTransaction)
    (i : Nat) (st st' : Connecting) (checked : ∀ tx ∈ front, CheckedTransaction tx)
    (connected : connectTxs env context i st front = .ok st') :
    feesAlong env context.nHeight st.view (front ++ back) =
      feesAlong env context.nHeight st.view front +
        feesAlong env context.nHeight st'.view back := by
  induction front generalizing i st with
  | nil =>
      cases connected
      rw [List.nil_append, feesAlong, Int.zero_add]
  | cons tx front ih =>
      obtain ⟨middle, first, rest⟩ := (bind_ok _ _ _).mp connected
      rw [List.forall_mem_cons] at checked
      obtain ⟨txundo, step⟩ := connectTx_ok env context i st middle tx checked.1 first
      rw [List.cons_append, feesAlong, feesAlong, step.updated]
      dsimp only
      rw [ih (i + 1) middle checked.2 rest, Int.add_assoc]

/-- No transaction takes away more than the tolerance of the value rule. -/
theorem feesAlong_least (env : Environment) (context : BlockContext) (vtx : List CTransaction)
    (i : Nat) (st st' : Connecting) (checked : ∀ tx ∈ vtx, CheckedTransaction tx)
    (height : ∀ nSpendHeight, nextHeight env st.view = .ok nSpendHeight →
      nSpendHeight = context.nHeight)
    (connected : connectTxs env context i st vtx = .ok st') :
    -100 * (vtx.length : Int) ≤ feesAlong env context.nHeight st.view vtx := by
  induction vtx generalizing i st with
  | nil => exact le_rfl
  | cons tx vtx ih =>
      obtain ⟨middle, first, rest⟩ := (bind_ok _ _ _).mp connected
      rw [List.forall_mem_cons] at checked
      obtain ⟨txundo, step⟩ := connectTx_ok env context i st middle tx checked.1 first
      have best := (utxo_updateCoins env _ st.view middle.view tx txundo step.updated).2
      have same : nextHeight env middle.view = nextHeight env st.view := by
        rw [nextHeight, best, nextHeight]
      have later := ih (i + 1) middle checked.2 (same ▸ height) rest
      have fee : -100 ≤ txFee env context.nHeight st.view.utxo tx := by
        cases special : tx.isCoinBase with
        | true =>
            rw [txFee, special, if_pos rfl]
            decide
        | false =>
            obtain ⟨nSpendHeight, spend, inputs⟩ := step.spends special
            have covered := inputs.covered
            rw [height nSpendHeight spend] at covered
            rw [txFee_regular env _ _ tx special]
            omega
      rw [feesAlong, step.updated, List.length_cons]
      dsimp only
      push_cast
      omega

/-! ## The sums of a block -/

def connectStart (view : FlatView) : Connecting := ⟨view, 0, 0, [], []⟩

/-- The sums that are not guarded turn by turn fit: in every transaction that is reached the values
of the inputs together, after it the fees of the block, and at the end the reward. -/
structure SumsFit (env : Environment) (context : BlockContext) (vtx : List CTransaction)
    (view : FlatView) : Prop where
  transactions : ∀ front tx back st, vtx = front ++ tx :: back →
    connectTxs env context 0 (connectStart view) front = .ok st →
    TxSumsFit env context (feesAlong env context.nHeight view front) st tx
  reward : ∀ st, connectTxs env context 0 (connectStart view) vtx = .ok st →
    feesAlong env context.nHeight view vtx + getBlockSubsidy context.nHeight + 1000 < 2 ^ 63

section Loop

variable (env : Environment) (context : BlockContext) (vtx : List CTransaction) (view : FlatView)
  (checked : ∀ tx ∈ vtx, CheckedTransaction tx) (few : vtx.length ≤ maxBlockSize)
  (inRange : Ledger.Each Coin.InRange view.utxo)
  (height : ∀ nSpendHeight, nextHeight env view = .ok nSpendHeight →
    nSpendHeight = context.nHeight)

include checked few height in
theorem covered_step (front back : List CTransaction) (tx : CTransaction) (st st' : Connecting)
    (split : vtx = front ++ tx :: back)
    (connected : connectTxs env context 0 (connectStart view) front = .ok st)
    (next : connectTx env context front.length st tx = .ok st')
    (covered : Covered (feesAlong env context.nHeight view front))
    (fits : TxSumsFit env context (feesAlong env context.nHeight view front) st tx) :
    Covered (feesAlong env context.nHeight view (front ++ [tx])) := by
  have members : ∀ other ∈ front ++ [tx], CheckedTransaction other := by
    intro other member
    apply checked
    rw [split]
    rcases List.mem_append.mp member with before | here
    · exact List.mem_append_left _ before
    · rw [List.mem_singleton.mp here]
      exact List.mem_append_right _ List.mem_cons_self
  have whole : connectTxs env context 0 (connectStart view) (front ++ [tx]) = .ok st' := by
    rw [connectTxs_append]
    refine ⟨st, connected, ?_⟩
    rw [Nat.zero_add, connectTxs, bind_ok]
    exact ⟨st', next, rfl⟩
  have least := feesAlong_least env context (front ++ [tx]) 0 _ st' members height whole
  have sum := feesAlong_append env context front [tx] 0 _ st
    (fun other member => members other (List.mem_append_left _ member)) connected
  obtain ⟨txundo, step⟩ := connectTx_ok env context front.length st st' tx
    (members tx (List.mem_append_right _ (List.mem_singleton_self tx))) next
  have single : feesAlong env context.nHeight st.view [tx] =
      txFee env context.nHeight st.view.utxo tx := by
    rw [feesAlong, step.updated]
    exact Int.add_zero _
  have size : (front ++ [tx]).length ≤ 1000000 := by
    have most : maxBlockSize = 1000000 := rfl
    rw [split] at few
    simp only [List.length_append, List.length_cons, List.length_nil] at few ⊢
    omega
  have start : (connectStart view).view = view := rfl
  rw [start] at least sum
  rw [single] at sum
  rw [Covered] at covered ⊢
  refine ⟨by omega, ?_⟩
  cases special : tx.isCoinBase with
  | true =>
      rw [txFee, special, if_pos rfl] at sum
      omega
  | false =>
      obtain ⟨comes, valued⟩ := connectTx_comes env context front.length st st' tx special next
      have after := (fits comes).2 valued
      omega

include checked in
/-- While they are covered, the fees that the loop has added up are the fees of the block so far. -/
theorem nFees_exact (front back : List CTransaction) (st : Connecting)
    (split : vtx = front ++ back)
    (connected : connectTxs env context 0 (connectStart view) front = .ok st)
    (covered : Covered (feesAlong env context.nHeight view front)) :
    st.nFees = feesAlong env context.nHeight view front := by
  have members : ∀ other ∈ front, CheckedTransaction other := by
    intro other member
    apply checked
    rw [split]
    exact List.mem_append_left _ member
  have wrapped := connectTxs_wrapped env context front 0 (connectStart view) st
    (by rw [fits64]; exact ⟨Int.neg_nonpos_of_nonneg (by decide), by show (0 : Int) < 2 ^ 63; decide⟩)
    connected
  have same := (connectTxs_fees env context view.utxo front [] 0 _ st members rfl connected).2
  have start : (connectStart view).view = view := rfl
  have zero : (connectStart view).nFees = 0 := rfl
  rw [start, zero, Int.zero_add] at same
  rw [fits64] at wrapped
  rw [Covered] at covered
  rwa [wrap64_of_fits _ wrapped.1 wrapped.2, wrap64_of_fits _ (by omega) covered.2] at same

include checked few height in
/-- The fees stay covered as long as the transactions fit. -/
theorem covered_along (fit : ∀ front tx back st, vtx = front ++ tx :: back →
      connectTxs env context 0 (connectStart view) front = .ok st →
      Covered (feesAlong env context.nHeight view front) →
      TxSumsFit env context (feesAlong env context.nHeight view front) st tx)
    (front back : List CTransaction) (st : Connecting) (split : vtx = front ++ back)
    (connected : connectTxs env context 0 (connectStart view) front = .ok st) :
    Covered (feesAlong env context.nHeight view front) := by
  induction front using List.reverseRecOn generalizing back st with
  | nil =>
      rw [feesAlong, Covered]
      exact ⟨by decide, by decide⟩
  | append_singleton front tx ih =>
      rw [List.append_assoc, List.singleton_append] at split
      obtain ⟨before, earlier, last⟩ := (connectTxs_append _ _ _ _ _ _ _).mp connected
      rw [Nat.zero_add, connectTxs, bind_ok] at last
      obtain ⟨after, next, -⟩ := last
      have covered := ih (tx :: back) before split earlier
      exact covered_step env context vtx view checked few height front back tx before after split
        earlier next covered (fit front tx back before split earlier covered)

include checked few inRange height in
theorem connectTxsSums_fit :
    (connectTxsSums env context 0 (connectStart view) vtx).All fits64 ↔
      ∀ front tx back st, vtx = front ++ tx :: back →
        connectTxs env context 0 (connectStart view) front = .ok st →
        TxSumsFit env context (feesAlong env context.nHeight view front) st tx := by
  have single : ∀ front tx back st, vtx = front ++ tx :: back →
      connectTxs env context 0 (connectStart view) front = .ok st →
      Covered (feesAlong env context.nHeight view front) →
      ((connectTxSums env context (0 + front.length) st tx).All fits64 ↔
        TxSumsFit env context (feesAlong env context.nHeight view front) st tx) := by
    intro front tx back st split connected covered
    have members : ∀ other ∈ front, CheckedTransaction other := by
      intro other member
      apply checked
      rw [split]
      exact List.mem_append_left _ member
    have nFees := nFees_exact env context vtx view checked front (tx :: back) st split connected
      covered
    have coins := (connectTxs_coins env context 0 front _ st members connected).inRange inRange
    rw [connectTxSums_fit env context _ st tx (checked tx (by rw [split]; simp)) coins
      (nFees ▸ covered), nFees]
  rw [connectTxsSums_reached]
  constructor
  · intro all
    have fit : ∀ front tx back st, vtx = front ++ tx :: back →
        connectTxs env context 0 (connectStart view) front = .ok st →
        Covered (feesAlong env context.nHeight view front) →
        TxSumsFit env context (feesAlong env context.nHeight view front) st tx :=
      fun front tx back st split connected covered =>
        (single front tx back st split connected covered).mp (all front tx back st split connected)
    intro front tx back st split connected
    exact fit front tx back st split connected
      (covered_along env context vtx view checked few height fit front (tx :: back) st split
        connected)
  · intro fit front tx back st split connected
    have covered := covered_along env context vtx view checked few height
      (fun front tx back st split connected _ => fit front tx back st split connected) front
      (tx :: back) st split connected
    exact (single front tx back st split connected covered).mpr
      (fit front tx back st split connected)

end Loop

/-- `ConnectBlock` comes to its loop over the transactions. -/
structure ReachesLoop (env : Environment) (block : CBlock) (pindex : CBlockIndex)
    (view : FlatView) : Prop where
  best : pindex.pprev.getD 0 = view.hashBlock
  regular : env.blockHash block.header ≠ env.params.hashGenesisBlock
  bip30 : checkBIP30 env pindex view block.vtx = .ok ()

theorem getBlockSubsidy_range (nHeight : Int) :
    0 ≤ getBlockSubsidy nHeight ∧ getBlockSubsidy nHeight < 2 ^ 50 := by
  have unit : coin = 100000000 := rfl
  rw [getBlockSubsidy]
  split_ifs <;> omega

theorem connectTransactionsSums_fit (env : Environment) (block : CBlock) (pindex : CBlockIndex)
    (view : FlatView) (fJustCheck : Bool) (passed : CheckedBlock block)
    (inRange : Ledger.Each Coin.InRange view.utxo)
    (height : ∀ nSpendHeight, nextHeight env view = .ok nSpendHeight →
      nSpendHeight = pindex.nHeight) :
    (connectTransactionsSums env block pindex view fJustCheck).All fits64 ↔
      (checkBIP30 env pindex view block.vtx = .ok () →
        SumsFit env (blockContext env block pindex) block.vtx view) := by
  have loop := connectTxsSums_fit env (blockContext env block pindex) block.vtx view passed.checked
    passed.count inRange height
  have subsidy := getBlockSubsidy_range pindex.nHeight
  have own : (blockContext env block pindex).nHeight = pindex.nHeight := rfl
  have start : (⟨view, 0, 0, [], []⟩ : Connecting) = connectStart view := rfl
  -- what the loop leaves is what the reward is added to
  have covered : ∀ st, (∀ front tx back st, block.vtx = front ++ tx :: back →
      connectTxs env (blockContext env block pindex) 0 (connectStart view) front = .ok st →
      TxSumsFit env (blockContext env block pindex)
        (feesAlong env (blockContext env block pindex).nHeight view front) st tx) →
      connectTxs env (blockContext env block pindex) 0 (connectStart view) block.vtx = .ok st →
      Covered (feesAlong env pindex.nHeight view block.vtx) ∧
        st.nFees = feesAlong env pindex.nHeight view block.vtx := by
    intro st fit connected
    have whole := covered_along env (blockContext env block pindex) block.vtx view passed.checked
      passed.count height (fun front tx back st split connected _ =>
        fit front tx back st split connected) block.vtx [] st (List.append_nil _).symm connected
    exact ⟨whole, nFees_exact env (blockContext env block pindex) block.vtx view passed.checked
      block.vtx [] st (List.append_nil _).symm connected whole⟩
  rw [connectTransactionsSums, Logged.all_silent_bind, start]
  constructor
  · intro all bip30
    obtain ⟨transactions, after⟩ := (Logged.all_bind _ _ _).mp (all () bip30)
    rw [loop] at transactions
    refine ⟨transactions, ?_⟩
    intro st connected
    obtain ⟨bounds, nFees⟩ := covered st transactions connected
    have sums := after st ((connectTxsSums_result _ _ _ _ _).trans connected)
    rw [Logged.all_bind, add64_fits, fits64] at sums
    have last := sums.2 _ rfl
    rw [Logged.all_bind, add64_fits, wrap64_of_fits _ sums.1.1 sums.1.2, fits64] at last
    rw [own, ← nFees]
    omega
  · intro fit _ bip30
    obtain ⟨transactions, reward⟩ := fit bip30
    rw [Logged.all_bind, loop]
    refine ⟨transactions, ?_⟩
    intro st connected
    rw [connectTxsSums_result] at connected
    obtain ⟨bounds, nFees⟩ := covered st transactions connected
    have total := reward st connected
    rw [own, ← nFees] at total
    rw [← nFees, Covered] at bounds
    have first : fits64 (st.nFees + getBlockSubsidy pindex.nHeight) := by
      rw [fits64]
      omega
    rw [Logged.all_bind, add64_fits]
    refine ⟨first, ?_⟩
    rintro _ ⟨⟩
    rw [Logged.all_bind, add64_fits, wrap64_of_fits _ first.1 first.2, fits64]
    refine ⟨by omega, ?_⟩
    intro blockReward _
    rw [Logged.all_silent_bind]
    exact fun _ _ => Logged.all_silent _ _

/-- An old transaction with sixteen outputs of `MAX_MONEY`. -/
def richView : FlatView where
  coins hash :=
    if hash = 5 then some ⟨false, List.replicate 16 (some ⟨maxMoney, []⟩), 0, 1⟩ else none
  hashBlock := mainHashGenesisBlock

theorem richView_inRange : Ledger.Each Coin.InRange richView.utxo := by
  intro hash n coin found
  rw [utxo, richView] at found
  dsimp only at found
  split at found
  · rw [Option.bind_some, CCoins.coin, Option.map_eq_some_iff] at found
    obtain ⟨txout, output, rfl⟩ := found
    rw [CCoins.output, Slots.slot_some] at output
    obtain ⟨inside, value⟩ := List.getElem?_eq_some_iff.mp output
    rw [List.getElem_replicate, Option.some.injEq] at value
    rw [← value]
    exact (moneyRange_iff _).mpr ⟨by decide, le_rfl⟩
  · cases found

def gatherAll : CTransaction where
  nVersion := 1
  vin := (List.range 16).map fun n => ⟨⟨5, BitVec.ofNat 32 n⟩, [], -1⟩
  vout := [⟨0, []⟩]
  nLockTime := 0

def gatheringBlock : CBlock := ⟨firstHeader 15, [coinbasePaying 0, gatherAll]⟩

end RoiCoin
