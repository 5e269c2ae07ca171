import RoiCoin.Script.CheckSigCalls
import RoiCoin.Validation.ConnectBlock
import Mathlib.Algebra.Order.BigOperators.Group.List

/-! The limit on the signature operations of a block bounds the signature checks of the scripts
that are counted. -/

namespace RoiCoin

open Checked

/-- A script with everything that `EvalScript` is called with. -/
structure ScriptRun where
  crypto : Crypto
  checker : BaseSignatureChecker
  flags : BitVec 32
  stack : List Bytes
  script : CScript

def ScriptRun.checkSigCalls (run : ScriptRun) : List CheckSigCall :=
  (Calling.evalScript run.crypto run.checker run.flags run.stack run.script).log

/-- All calls that several runs make. -/
def totalCalls (runs : List ScriptRun) : Nat := (runs.map fun run => run.checkSigCalls.length).sum

def totalSigOps (scripts : List CScript) : Nat := (scripts.map (getSigOpCount true)).sum

theorem totalSigOps_append (first second : List CScript) :
    totalSigOps (first ++ second) = totalSigOps first + totalSigOps second := by
  simp [totalSigOps]

theorem checkSigCalls_le (run : ScriptRun) :
    run.checkSigCalls.length ≤ getSigOpCount true run.script :=
  Calling.evalScript_within run.crypto run.checker run.flags run.stack run.script

theorem totalCalls_le (runs : List ScriptRun) :
    totalCalls runs ≤ totalSigOps (runs.map ScriptRun.script) := by
  induction runs with
  | nil => exact Nat.le_refl _
  | cons run runs ih =>
      have own := checkSigCalls_le run
      simp only [totalCalls, totalSigOps, List.map_cons, List.sum_cons] at ih ⊢
      omega

theorem getSigOpCount_accurate (script : CScript) :
    getSigOpCount true script ≤ getSigOpCount false script :=
  Calling.sigOpLoop_accurate script.length opInvalidopcode script

/-! ## The scripts that are counted -/

/-- The scripts that `GetLegacySigOpCount` counts. -/
def CTransaction.ownScripts (tx : CTransaction) : List CScript :=
  tx.vin.map CTxIn.scriptSig ++ tx.vout.map CTxOut.scriptPubKey

/-- The script that an input gives for the output it spends, where that pays to a script hash. -/
def redeemScripts (view : FlatView) (txin : CTxIn) : List CScript :=
  match view.getOutputFor txin with
  | .error _ => []
  | .ok prevout =>
      if isPayToScriptHash prevout.scriptPubKey then
        (lastPush txin.scriptSig.length txin.scriptSig []).toList
      else []

/-- The scripts that the loop over the transactions counts. -/
def countedScripts (context : BlockContext) (view : FlatView) (tx : CTransaction) :
    List CScript :=
  tx.ownScripts ++
    if context.fStrictPayToScriptHash = true ∧ tx.isCoinBase = false then
      tx.vin.flatMap (redeemScripts view)
    else []

/-- The scripts of a whole block that are counted, each against the coins before it. -/
def countedAlong (env : Environment) (context : BlockContext) (view : FlatView) :
    List CTransaction → List CScript
  | [] => []
  | tx :: vtx =>
      countedScripts context view tx ++
        match updateCoins env context.nHeight view tx with
        | .ok (_, view) => countedAlong env context view vtx
        | .error _ => []

theorem ownScripts_le (tx : CTransaction) : totalSigOps tx.ownScripts ≤ getLegacySigOpCount tx := by
  rw [CTransaction.ownScripts, totalSigOps_append, getLegacySigOpCount]
  apply Nat.add_le_add
  · rw [totalSigOps, List.map_map]
    exact List.sum_le_sum fun txin _ => getSigOpCount_accurate txin.scriptSig
  · rw [totalSigOps, List.map_map]
    exact List.sum_le_sum fun txout _ => getSigOpCount_accurate txout.scriptPubKey

theorem redeemScript_le (scriptPubKey scriptSig : CScript)
    (scriptHash : isPayToScriptHash scriptPubKey = true) :
    totalSigOps (lastPush scriptSig.length scriptSig []).toList ≤
      getP2SHScriptSigOpCount scriptPubKey scriptSig := by
  rw [getP2SHScriptSigOpCount, scriptHash]
  cases lastPush scriptSig.length scriptSig [] with
  | none => exact Nat.le_refl _
  | some data => simp [totalSigOps]

theorem redeemScripts_le (view : FlatView) (vin : List CTxIn) (counts : List Nat)
    (counted : (vin.mapM fun txin => do
      let prevout ← view.getOutputFor txin
      return if isPayToScriptHash prevout.scriptPubKey then
        getP2SHScriptSigOpCount prevout.scriptPubKey txin.scriptSig else 0) =
      (.ok counts : Checking (List Nat))) :
    totalSigOps (vin.flatMap (redeemScripts view)) ≤ counts.sum := by
  induction vin generalizing counts with
  | nil => exact Nat.zero_le _
  | cons txin vin ih =>
      rw [List.mapM_cons] at counted
      simp only [bind_ok, pure_ok] at counted
      obtain ⟨count, ⟨prevout, found, same⟩, others, rest, rfl⟩ := counted
      have own : totalSigOps (redeemScripts view txin) ≤ count := by
        rw [redeemScripts, found, ← same]
        dsimp only
        split
        · rename_i scriptHash
          exact redeemScript_le prevout.scriptPubKey txin.scriptSig scriptHash
        · exact Nat.le_refl _
      rw [List.flatMap_cons, totalSigOps_append, List.sum_cons]
      exact Nat.add_le_add own (ih others rest)

/-! ## The count of the block -/

/-- One transaction: what is counted has been added, and the sum is not too large. -/
theorem connectInputs_counts (env : Environment) (context : BlockContext) (st st' : Connecting)
    (tx : CTransaction) (few : st.nSigOps ≤ maxBlockSigOps)
    (passed : connectInputs env context st tx = .ok st') :
    st'.view = st.view ∧ st'.nSigOps ≤ maxBlockSigOps ∧
      st.nSigOps + totalSigOps (countedScripts context st.view tx) ≤
        st'.nSigOps + totalSigOps tx.ownScripts := by
  rw [countedScripts, totalSigOps_append]
  rw [connectInputs] at passed
  cases special : tx.isCoinBase with
  | true =>
      rw [special, if_pos rfl] at passed
      cases passed
      exact ⟨rfl, few, by simp [totalSigOps]⟩
  | false =>
      rw [special, if_neg Bool.false_ne_true] at passed
      simp only [bind_ok, require_ok, pure_ok] at passed
      obtain ⟨_, -, nP2SH, counted, _, within, nValueIn, -, nValueOut, -, vChecks, -, rfl⟩ := passed
      refine ⟨rfl, within, ?_⟩
      by_cases strict : context.fStrictPayToScriptHash = true
      · rw [p2shSigOps, if_pos strict, getP2SHSigOpCount, if_neg (by simp [special]),
          map_ok] at counted
        obtain ⟨counts, listed, rfl⟩ := counted
        have redeemed := redeemScripts_le st.view tx.vin counts listed
        rw [if_pos ⟨strict, rfl⟩]
        dsimp only
        omega
      · rw [if_neg (fun both => strict both.1)]
        dsimp only
        simp only [totalSigOps, List.map_nil, List.sum_nil]
        omega

theorem connectTx_counts (env : Environment) (context : BlockContext) (i : Nat)
    (st st' : Connecting) (tx : CTransaction) (passed : connectTx env context i st tx = .ok st') :
    (∃ txundo, updateCoins env context.nHeight st.view tx = .ok (txundo, st'.view)) ∧
      st'.nSigOps ≤ maxBlockSigOps ∧
      st.nSigOps + totalSigOps (countedScripts context st.view tx) ≤ st'.nSigOps := by
  simp only [connectTx, bind_ok, require_ok, pure_ok, Prod.exists] at passed
  obtain ⟨_, few, middle, inputs, txundo, view, updated, rfl⟩ := passed
  obtain ⟨sameView, within, counted⟩ := connectInputs_counts env context _ middle tx few inputs
  have own := ownScripts_le tx
  rw [sameView] at updated
  exact ⟨⟨txundo, updated⟩, within, by dsimp only at counted ⊢; omega⟩

/-- The induction is on the transactions left. -/
theorem connectTxs_counts (env : Environment) (context : BlockContext) (i : Nat)
    (st st' : Connecting) (vtx : List CTransaction) (few : st.nSigOps ≤ maxBlockSigOps)
    (connected : connectTxs env context i st vtx = .ok st') :
    st.nSigOps + totalSigOps (countedAlong env context st.view vtx) ≤ maxBlockSigOps := by
  induction vtx generalizing i st with
  | nil => exact few
  | cons tx vtx ih =>
      rw [connectTxs, bind_ok] at connected
      obtain ⟨middle, first, others⟩ := connected
      obtain ⟨⟨txundo, updated⟩, within, counted⟩ :=
        connectTx_counts env context i st middle tx first
      have rest := ih (i + 1) middle within others
      rw [countedAlong, totalSigOps_append, updated]
      dsimp only
      omega

/-- Runs of the scripts that a connected block counts make no more calls than its limit. -/
theorem connectBlock_calls (env : Environment) (block : CBlock) (pindex : CBlockIndex)
    (view : FlatView) (fJustCheck : Bool) (result : Connected)
    (regular : env.blockHash block.header ≠ env.params.hashGenesisBlock)
    (accepted : connectBlock env block pindex view fJustCheck = .ok result)
    (runs : List ScriptRun)
    (scripts : runs.map ScriptRun.script =
      countedAlong env (blockContext env block pindex) view block.vtx) :
    totalCalls runs ≤ maxBlockSigOps := by
  obtain ⟨st, passed⟩ := connectBlock_ok env block pindex view fJustCheck result regular accepted
  have counted := connectTxs_counts env (blockContext env block pindex) 0 _ st block.vtx
    (Nat.zero_le _) passed.connected
  calc
    totalCalls runs ≤ totalSigOps (runs.map ScriptRun.script) := totalCalls_le runs
    _ = totalSigOps (countedAlong env (blockContext env block pindex) view block.vtx) := by
        rw [scripts]
    _ ≤ maxBlockSigOps := by rwa [Nat.zero_add] at counted

/-- The calls that any run makes are counted before, and the counter of 32 bits holds the count of
a script that can be read; so the limit of a block bounds the checks of all scripts it counts. -/
theorem signature_check_budget (run : ScriptRun) (env : Environment) (block : CBlock)
    (pindex : CBlockIndex) (view : FlatView) (fJustCheck : Bool) (result : Connected)
    (runs : List ScriptRun) :
    (Calling.evalScript run.crypto run.checker run.flags run.stack run.script).result =
        evalScript run.crypto run.checker run.flags run.stack run.script ∧
      run.checkSigCalls.length ≤ getSigOpCount true run.script ∧
      getSigOpCount true run.script ≤ getSigOpCount false run.script ∧
      getSigOpCount false run.script ≤ 20 * run.script.length ∧
      (env.blockHash block.header ≠ env.params.hashGenesisBlock →
        connectBlock env block pindex view fJustCheck = .ok result →
        runs.map ScriptRun.script =
          countedAlong env (blockContext env block pindex) view block.vtx →
        totalCalls runs ≤ maxBlockSigOps) :=
  ⟨Calling.evalScript_result run.crypto run.checker run.flags run.stack run.script,
    checkSigCalls_le run, getSigOpCount_accurate run.script,
    Calling.sigOpLoop_le run.script.length opInvalidopcode run.script,
    fun regular accepted scripts =>
      connectBlock_calls env block pindex view fJustCheck result regular accepted runs scripts⟩

/-- A coinbase whose output asks for a signature. -/
def checkingCoinbase : CTransaction :=
  ⟨1, [⟨⟨0, -1⟩, [1, 1], -1⟩], [⟨0, [opChecksig]⟩], 0⟩

def checkingRun (stack : List Bytes) (script : CScript) : ScriptRun :=
  ⟨⟨id, id, id, id, id, fun _ _ _ => true⟩, ⟨fun _ _ _ => true, fun _ => true⟩, 0, stack, script⟩

theorem signature_check_budget_coinbase : ∃ result,
    connectBlock plainEnvironment ⟨firstHeader 7, [checkingCoinbase]⟩ (firstIndex 7) afterGenesis
      false = .ok result ∧
    (checkingRun [[2], [3]] [opChecksig]).checkSigCalls = [⟨[3], [2], [opChecksig]⟩] ∧
    totalCalls [checkingRun [] [1, 1], checkingRun [[2], [3]] [opChecksig]] ≤
      maxBlockSigOps := by
  obtain ⟨result, accepted⟩ := exists_ok (connectBlock plainEnvironment
    ⟨firstHeader 7, [checkingCoinbase]⟩ (firstIndex 7) afterGenesis false) (by decide +kernel)
  have budget := signature_check_budget (checkingRun [[2], [3]] [opChecksig]) plainEnvironment
    ⟨firstHeader 7, [checkingCoinbase]⟩ (firstIndex 7) afterGenesis false result
    [checkingRun [] [1, 1], checkingRun [[2], [3]] [opChecksig]]
  exact ⟨result, accepted, by decide +kernel,
    budget.2.2.2.2 (by decide +kernel) accepted (by decide +kernel)⟩

end RoiCoin
