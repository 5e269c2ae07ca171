import RoiCoin.Validation.CheckInputs

/-! Connecting a block to a coins view (`ConnectBlock`).

Writing the undo data and the transaction index succeeds, and the index entry has no undo data
yet; `Connected.blockundo` is what is written. -/

namespace RoiCoin

open Checked FlatView

def bip16SwitchTime : Int := 1333238400

/-- `fEnforceBIP30`; the exempted hash is written out in the source. -/
def enforceBIP30 (pindex : CBlockIndex) : Bool :=
  match pindex.phashBlock with
  | none => true
  | some hash => !(decide (pindex.nHeight ≥ 1) && hash == mainHashGenesisBlock)

/-- The BIP30 loop, on the view before the block. -/
def checkBIP30 (env : Environment) (pindex : CBlockIndex) (view : FlatView)
    (vtx : List CTransaction) : Checking Unit :=
  if enforceBIP30 pindex then
    each (fun tx =>
      require (∀ coins ∈ view.accessCoins (env.getHash tx), coins.isPruned = true)
        (dos 100 "bad-txns-BIP30")) vtx
  else .ok ()

/-- What the transaction loop reads besides the transactions. -/
structure BlockContext where
  nHeight : Int
  fScriptChecks : Bool
  fStrictPayToScriptHash : Bool
  flags : BitVec 32
  deriving DecidableEq, Repr

/-- A flag that a majority of the last blocks has switched on. -/
def upgradeFlag (env : Environment) (block : CBlock) (pindex : CBlockIndex) (minVersion : Int)
    (flag : BitVec 32) : BitVec 32 :=
  if block.header.nVersion.toInt ≥ minVersion ∧ isSuperMajority env minVersion (env.parent pindex)
      env.params.nMajorityEnforceBlockUpgrade = true then flag
  else 0

def blockContext (env : Environment) (block : CBlock) (pindex : CBlockIndex) : BlockContext where
  nHeight := pindex.nHeight
  fScriptChecks := !env.fCheckpointsEnabled || decide (pindex.nHeight ≥ env.totalBlocksEstimate)
  fStrictPayToScriptHash := decide (pindex.getBlockTime ≥ bip16SwitchTime)
  flags :=
    (if pindex.getBlockTime ≥ bip16SwitchTime then scriptVerifyP2SH else scriptVerifyNone) |||
      upgradeFlag env block pindex 3 scriptVerifyDersig |||
      upgradeFlag env block pindex 4 scriptVerifyChecklocktimeverify

/-- The variables of the transaction loop. -/
structure Connecting where
  view : FlatView
  nFees : Int
  nSigOps : Nat
  vtxundo : CBlockUndo
  /-- Checks queued for `control.Wait`. -/
  control : List CScriptCheck

/-- The loop over the inputs that adds up `nValueIn`. -/
def getValueIn (env : Environment) (view : FlatView) (nHeight nValueIn : Int) :
    List CTxIn → Checking Int
  | [] => .ok nValueIn
  | txin :: vin => do
      let outTX ← view.getOutputFor txin
      let nValue ← liftScript (outTX.getValueWithInterest env.pow env.chainHeight
        (view.record txin.prevout.hash).nHeight nHeight)
      getValueIn env view nHeight (wrap64 (nValueIn + nValue)) vin

def p2shSigOps (context : BlockContext) (view : FlatView) (tx : CTransaction) : Checking Nat :=
  if context.fStrictPayToScriptHash then getP2SHSigOpCount view tx else .ok 0

/-- The part of the loop body that the coinbase skips. -/
def connectInputs (env : Environment) (context : BlockContext) (st : Connecting)
    (tx : CTransaction) : Checking Connecting :=
  if tx.isCoinBase then .ok st
  else do
    require (st.view.haveInputs tx = true) (dos 100 "bad-txns-inputs-missingorspent")
    let nP2SH ← p2shSigOps context st.view tx
    require (st.nSigOps + nP2SH ≤ maxBlockSigOps) (dos 100 "bad-blk-sigops")
    let nValueIn ← getValueIn env st.view context.nHeight 0 tx.vin
    let nValueOut ← tx.getValueOut
    let vChecks ← checkInputs env st.view tx context.fScriptChecks context.flags
      (env.nScriptCheckThreads != 0)
    return { st with
      nFees := wrap64 (st.nFees + (nValueIn - nValueOut))
      nSigOps := st.nSigOps + nP2SH
      control := st.control ++ vChecks }

/-- The loop body for the transaction at position `i`. -/
def connectTx (env : Environment) (context : BlockContext) (i : Nat) (st : Connecting)
    (tx : CTransaction) : Checking Connecting := do
  let nSigOps := st.nSigOps + getLegacySigOpCount tx
  require (nSigOps ≤ maxBlockSigOps) (dos 100 "bad-blk-sigops")
  let st ← connectInputs env context { st with nSigOps } tx
  let (txundo, view) ← updateCoins env context.nHeight st.view tx
  return { st with view, vtxundo := if i = 0 then st.vtxundo else st.vtxundo ++ [txundo] }

def connectTxs (env : Environment) (context : BlockContext) (i : Nat) (st : Connecting) :
    List CTransaction → Checking Connecting
  | [] => .ok st
  | tx :: vtx => do
      let st ← connectTx env context i st tx
      connectTxs env context (i + 1) st vtx

structure Connected where
  view : FlatView
  /-- The undo data written, if any. -/
  blockundo : Option CBlockUndo
  /-- The local variable that nothing reads. -/
  blockReward : Int

/-- What follows the script checks: nothing with `fJustCheck`, else the undo data is written and
the best block moves. -/
def finishBlock (pindex : CBlockIndex) (st : Connecting) (blockReward : Int) (fJustCheck : Bool) :
    Checking Connected :=
  if fJustCheck then .ok ⟨st.view, none, blockReward⟩
  else
    match pindex.pprev, pindex.phashBlock with
    | some _, some hash => .ok ⟨st.view.setBestBlock hash, some st.vtxundo, blockReward⟩
    | _, _ => .error .nullPointer

/-- The special case of the genesis block, whose transactions are skipped. -/
def connectGenesis (pindex : CBlockIndex) (view : FlatView) (fJustCheck : Bool) :
    Checking Connected :=
  if fJustCheck then .ok ⟨view, none, 0⟩
  else
    match pindex.phashBlock with
    | some hash => .ok ⟨view.setBestBlock hash, none, 0⟩
    | none => .error .nullPointer

def connectTransactions (env : Environment) (block : CBlock) (pindex : CBlockIndex)
    (view : FlatView) (fJustCheck : Bool) : Checking Connected := do
  checkBIP30 env pindex view block.vtx
  let st ← connectTxs env (blockContext env block pindex) 0 ⟨view, 0, 0, [], []⟩ block.vtx
  let blockReward := wrap64 (st.nFees + getBlockSubsidy pindex.nHeight + 1000)
  require (∀ check ∈ st.control, check.failed env = none) (.invalid ⟨100, 0, "", false⟩)
  finishBlock pindex st blockReward fJustCheck

def connectBlock (env : Environment) (block : CBlock) (pindex : CBlockIndex) (view : FlatView)
    (fJustCheck : Bool) : Checking Connected := do
  checkBlock env block (!fJustCheck) (!fJustCheck)
  require (pindex.pprev.getD 0 = view.hashBlock) (.assertion .bestBlock)
  if env.blockHash block.header = env.params.hashGenesisBlock then
    connectGenesis pindex view fJustCheck
  else connectTransactions env block pindex view fJustCheck

/-! ## One transaction of a block -/

/-- The fee of a transaction, its inputs valued among the coins. -/
def txFee (env : Environment) (nHeight : Int) (coins : Ledger.Coins Uint256 Coin)
    (tx : CTransaction) : Int :=
  if tx.isCoinBase then 0 else inputsWorth env nHeight coins tx.vin - tx.outputs

/-- What the loop body has checked and done when it goes on to the next transaction. -/
structure TxConnected (env : Environment) (context : BlockContext) (i : Nat) (st : Connecting)
    (tx : CTransaction) (txundo : CTxUndo) (st' : Connecting) : Prop where
  spends : tx.isCoinBase = false →
    ∃ nSpendHeight, nextHeight env st.view = .ok nSpendHeight ∧
      InputsOk env nSpendHeight st.view.utxo tx
  fees : wrap64 st'.nFees = wrap64 (st.nFees + txFee env context.nHeight st.view.utxo tx)
  updated : updateCoins env context.nHeight st.view tx = .ok (txundo, st'.view)
  undo : st'.vtxundo = if i = 0 then st.vtxundo else st.vtxundo ++ [txundo]

theorem getOutputFor_ok (view : FlatView) (txin : CTxIn) (txout : CTxOut) :
    view.getOutputFor txin = .ok txout ↔
      (view.record txin.prevout.hash).output txin.prevout.n.toNat = some txout := by
  rw [getOutputFor, accessCoins, record]
  cases view.coins txin.prevout.hash with
  | none => simp
  | some coins =>
      rw [Option.bind_some, Option.getD_some]
      cases coins.output txin.prevout.n.toNat <;> simp

theorem getValueIn_ok (env : Environment) (view : FlatView) (nHeight : Int) (vin : List CTxIn)
    (nValueIn result : Int) (summed : getValueIn env view nHeight nValueIn vin = .ok result) :
    wrap64 result = wrap64 (nValueIn + inputsWorth env nHeight view.utxo vin) := by
  induction vin generalizing nValueIn with
  | nil =>
      cases summed
      rw [inputsWorth, List.map_nil, List.sum_nil, Int.add_zero]
  | cons txin vin ih =>
      simp only [getValueIn, bind_ok, liftScript_ok, getOutputFor_ok] at summed
      obtain ⟨txout, output, nValue, valued, rest⟩ := summed
      have worth : inputWorth env nHeight view.utxo txin = nValue := by
        rw [inputWorth, ← coin_record, CCoins.coin, output]
        simp only [Option.map_some, Option.getD_some, Coin.worth, valued]
      rw [ih _ rest]
      have first := wrap64_add_congr _ _ (inputsWorth env nHeight view.utxo vin)
        (wrap64_wrap64 (nValueIn + nValue))
      rw [first, inputsWorth, inputsWorth, List.map_cons, List.sum_cons, worth, Int.add_assoc]

theorem connectInputs_ok (env : Environment) (context : BlockContext) (st st' : Connecting)
    (tx : CTransaction) (checked : CheckedTransaction tx)
    (passed : connectInputs env context st tx = .ok st') :
    (tx.isCoinBase = false →
      ∃ nSpendHeight, nextHeight env st.view = .ok nSpendHeight ∧
        InputsOk env nSpendHeight st.view.utxo tx) ∧
      wrap64 st'.nFees = wrap64 (st.nFees + txFee env context.nHeight st.view.utxo tx) ∧
      st'.view = st.view ∧ st'.vtxundo = st.vtxundo := by
  rw [connectInputs] at passed
  cases special : tx.isCoinBase with
  | true =>
      rw [special, if_pos rfl] at passed
      cases passed
      rw [txFee, special, if_pos rfl, Int.add_zero]
      exact ⟨by simp, rfl, rfl, rfl⟩
  | false =>
      rw [special, if_neg Bool.false_ne_true] at passed
      simp only [bind_ok, require_ok, pure_ok, checked.valued, checkInputs, special,
        Bool.false_eq_true, if_false] at passed
      obtain ⟨-, -, nP2SH, -, -, -, nValueIn, valueIn, nValueOut, valueOut, vChecks,
        ⟨_, inputs, -⟩, rfl⟩ := passed
      cases valueOut
      refine ⟨fun _ => checkTxInputs_ok env st.view tx checked special inputs, ?_, rfl, rfl⟩
      have summed := getValueIn_ok env st.view context.nHeight tx.vin 0 nValueIn valueIn
      rw [Int.zero_add] at summed
      have fee : wrap64 (nValueIn + (st.nFees - tx.outputs)) =
          wrap64 (inputsWorth env context.nHeight st.view.utxo tx.vin +
            (st.nFees - tx.outputs)) := wrap64_add_congr _ _ _ summed
      rw [txFee, special, if_neg Bool.false_ne_true, wrap64_wrap64]
      calc
        wrap64 (st.nFees + (nValueIn - tx.outputs)) =
            wrap64 (nValueIn + (st.nFees - tx.outputs)) := congrArg wrap64 (by omega)
        _ = _ := fee
        _ = _ := congrArg wrap64 (by omega)

theorem connectTx_ok (env : Environment) (context : BlockContext) (i : Nat) (st st' : Connecting)
    (tx : CTransaction) (checked : CheckedTransaction tx)
    (passed : connectTx env context i st tx = .ok st') :
    ∃ txundo, TxConnected env context i st tx txundo st' := by
  simp only [connectTx, bind_ok, require_ok, pure_ok, Prod.exists] at passed
  obtain ⟨-, -, middle, inputs, txundo, view, updated, rfl⟩ := passed
  obtain ⟨spends, fees, sameView, sameUndo⟩ :=
    connectInputs_ok env context _ middle tx checked inputs
  rw [sameView] at updated
  refine ⟨txundo, spends, fees, updated, ?_⟩
  rw [sameUndo]

/-! ## A whole block -/

/-- What an accepted block other than the genesis block has passed. -/
structure BlockConnected (env : Environment) (block : CBlock) (pindex : CBlockIndex)
    (view : FlatView) (fJustCheck : Bool) (result : Connected) (st : Connecting) : Prop where
  checked : CheckedBlock block
  best : pindex.pprev.getD 0 = view.hashBlock
  bip30 : enforceBIP30 pindex = true →
    ∀ tx ∈ block.vtx, Ledger.Vacant view.utxo (env.getHash tx)
  connected : connectTxs env (blockContext env block pindex) 0 ⟨view, 0, 0, [], []⟩ block.vtx =
    .ok st
  reward : result.blockReward = wrap64 (st.nFees + getBlockSubsidy pindex.nHeight + 1000)
  finished : finishBlock pindex st result.blockReward fJustCheck = .ok result

theorem finishBlock_reward (pindex : CBlockIndex) (st : Connecting) (blockReward : Int)
    (fJustCheck : Bool) (result : Connected)
    (finished : finishBlock pindex st blockReward fJustCheck = .ok result) :
    result.blockReward = blockReward := by
  rw [finishBlock] at finished
  split at finished
  · cases finished
    rfl
  · split at finished
    · cases finished
      rfl
    · cases finished

theorem finishBlock_view (pindex : CBlockIndex) (st : Connecting) (blockReward : Int)
    (result : Connected) (finished : finishBlock pindex st blockReward false = .ok result) :
    ∃ parent hash, pindex.pprev = some parent ∧ pindex.phashBlock = some hash ∧
      result = ⟨st.view.setBestBlock hash, some st.vtxundo, blockReward⟩ := by
  rw [finishBlock, if_neg Bool.false_ne_true] at finished
  split at finished
  · rename_i parent hash previous own
    cases finished
    exact ⟨parent, hash, previous, own, rfl⟩
  · cases finished

theorem connectBlock_ok (env : Environment) (block : CBlock) (pindex : CBlockIndex)
    (view : FlatView) (fJustCheck : Bool) (result : Connected)
    (regular : env.blockHash block.header ≠ env.params.hashGenesisBlock)
    (accepted : connectBlock env block pindex view fJustCheck = .ok result) :
    ∃ st, BlockConnected env block pindex view fJustCheck result st := by
  rw [connectBlock, if_neg regular] at accepted
  simp only [connectTransactions, bind_ok, require_ok] at accepted
  obtain ⟨_, passed, -, best, _, bip30, st, connected, -, -, finished⟩ := accepted
  have reward := finishBlock_reward pindex st _ fJustCheck result finished
  refine ⟨st, checkBlock_ok env block _ _ passed, best, ?_, connected, reward, ?_⟩
  · intro enforced tx member
    rw [checkBIP30, enforced, if_pos rfl, each_ok] at bip30
    have pruned := bip30 tx member
    rw [require_ok] at pruned
    exact (vacant_iff_pruned view _).mpr pruned
  · rw [reward]
    exact finished

/-! ## A concrete environment

One index entry, scripts that always verify, and two transaction ids. -/

def genesisHeader : CBlockHeader := ⟨1, 0, 7, 0, 0x2000ffff, 0, 0, 0⟩

def genesisIndex : CBlockIndex := .ofHeader genesisHeader (some mainHashGenesisBlock) none 0

def plainEnvironment : Environment where
  params := mainParams
  getHash tx := if tx.isCoinBase then 7 else 8
  blockHash header := if header.hashPrevBlock = 0 then mainHashGenesisBlock else 1
  hash left right := left + right
  pow amount _ := amount
  chainHeight := 0
  adjustedTime := 0
  mapBlockIndex hash := if hash = mainHashGenesisBlock then some genesisIndex else none
  fCheckpointsEnabled := false
  totalBlocksEstimate := 0
  nScriptCheckThreads := 0
  verifyScript _ _ _ _ := none

/-- The view after the genesis block. -/
def afterGenesis : FlatView := ⟨fun _ => none, mainHashGenesisBlock⟩

def coinbasePaying (nValue : Int) : CTransaction where
  nVersion := 1
  vin := [⟨⟨0, -1⟩, [1, 1], -1⟩]
  vout := [⟨nValue, []⟩]
  nLockTime := 0

def firstHeader (hashMerkleRoot : Uint256) : CBlockHeader :=
  ⟨1, mainHashGenesisBlock, hashMerkleRoot, 0, 0x2000ffff, 0, 0, 0⟩

def firstIndex (hashMerkleRoot : Uint256) : CBlockIndex :=
  .ofHeader (firstHeader hashMerkleRoot) (some 1) (some mainHashGenesisBlock) 1

end RoiCoin
