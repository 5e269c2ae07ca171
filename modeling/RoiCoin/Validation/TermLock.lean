import RoiCoin.Script.TermDeposit
import RoiCoin.Validation.ContextualChecks
import RoiCoin.Validation.ScriptChecks

/-! A term deposit is not spent before its release block: from the recogniser over the script and
the lock time to the block. -/

namespace RoiCoin

open Checked FlatView

/-! ## The script -/

/-- The number and the lock operation a term deposit starts with. -/
theorem release_block_script (script : CScript) (r : Int)
    (release : getTermDepositReleaseBlock script = .ok r) (locked : 0 < r) :
    ∃ (k : UInt8) (num code : Bytes), 0 < k ∧ k < 6 ∧
      getOp script = some ⟨k, num, opChecklocktimeverify :: code⟩ ∧
      scriptNum num true 5 = .ok (setVch num) ∧ r = getint (setVch num) := by
  rw [release_block_locked] at release
  cases found : lockedCode script with
  | none =>
      rw [found] at release
      cases release
      omega
  | some pair =>
      obtain ⟨num, code⟩ := pair
      simp only [found] at release
      split at release
      · split at release
        · cases release
        · cases release
          omega
        · obtain ⟨k, positive, small, parsed⟩ :=
            getOp_leading script num _ (lockedCode_some script num code found)
          refine ⟨k, num, opDrop :: opDup :: opHash160 :: code, positive, small, parsed, ?_⟩
          rw [scriptNum] at release ⊢
          split at release
          · cases release
          · rename_i short
            rw [if_neg short]
            split at release
            · cases release
            · rename_i minimal
              rw [if_neg minimal]
              cases release
              exact ⟨rfl, rfl⟩
      · cases release
        omega

section Script

variable (crypto : Crypto) (checker : BaseSignatureChecker) (flags : BitVec 32)

theorem evalLoop_op (fuel : Nat) (pc : CScript) (op : ScriptOp) (st st' : EvalState)
    (parsed : getOp pc = some op)
    (returned : evalLoop crypto checker flags (fuel + 1) pc st = .ok st') :
    ∃ middle, evalStep crypto checker flags op st = .ok middle ∧
      evalLoop crypto checker flags fuel op.rest middle = .ok st' := by
  have some_bytes : pc ≠ [] := by
    intro empty
    rw [empty] at parsed
    cases parsed
  rw [evalLoop, if_neg some_bytes, parsed] at returned
  exact (bind_ok _ _ _).mp returned

/-- Outside conditionals a direct push goes on the stack. -/
theorem evalStep_push (k : UInt8) (num : Bytes) (rest : CScript) (st middle : EvalState)
    (direct : k ≤ opPushdata4) (taken : st.vfExec = [])
    (returned : evalStep crypto checker flags ⟨k, num, rest⟩ st = .ok middle) :
    middle.stack = num :: st.stack ∧ middle.vfExec = [] := by
  simp only [evalStep, evalInstruction, taken, List.all_nil, true_and, direct, if_true, bind_ok,
    require_ok, pure_ok] at returned
  obtain ⟨_, _, _, _, _, _, _, ⟨_, _, rfl⟩, _, _, rfl⟩ := returned
  exact ⟨rfl, rfl⟩

/-- The lock operation with its flag set reads the number on the stack and asks the checker. -/
theorem evalStep_lock (num : Bytes) (rest : CScript) (st st' : EvalState) (stack : List Bytes)
    (enforced : hasFlag flags scriptVerifyChecklocktimeverify = true) (taken : st.vfExec = [])
    (pushed : st.stack = num :: stack)
    (returned : evalStep crypto checker flags ⟨opChecklocktimeverify, [], rest⟩ st = .ok st') :
    0 ≤ setVch num ∧ checker.checkLockTime (setVch num) = true := by
  have plain : ¬ opChecklocktimeverify ≤ opPushdata4 := by decide
  have operation : operationOf opChecklocktimeverify = .checklocktimeverify := by decide
  simp only [evalStep, evalInstruction, taken, List.all_nil, plain, and_false, if_false, true_or,
    if_true, operation, evalOperation, evalChecklocktimeverify, enforced, pushed, popstack, bind_ok,
    require_ok, pure_ok, Except.ok.injEq] at returned
  obtain ⟨_, _, _, _, _, _, _, ⟨_, rfl, n, read, _, positive, _, met, _⟩, _⟩ := returned
  have value : n = setVch num := by
    rw [evalNum, scriptNum] at read
    split at read
    · rename_i found
      split at found
      · cases found
      · split at found
        · cases found
        · cases found
          cases read
          rfl
    · cases read
  rw [← value]
  exact ⟨by omega, met⟩

/-- A script that pushes a number and then asks for the lock time. -/
theorem evalScript_number_locked (stack result : List Bytes) (script : CScript) (k : UInt8)
    (num code : Bytes) (enforced : hasFlag flags scriptVerifyChecklocktimeverify = true)
    (direct : k ≤ opPushdata4) (parsed : getOp script = some ⟨k, num, opChecklocktimeverify :: code⟩)
    (returned : evalScript crypto checker flags stack script = .ok result) :
    checker.checkLockTime (setVch num) = true := by
  have lock : getOp (opChecklocktimeverify :: code) = some ⟨opChecklocktimeverify, [], code⟩ :=
    getOp_plain _ _ (by decide)
  have shorter := getOp_consumes script _ parsed
  have fuel : script.length = (script.length - 2) + 1 + 1 := by
    rw [List.length_cons] at shorter
    omega
  simp only [evalScript, bind_ok] at returned
  obtain ⟨_, -, st, run, -⟩ := returned
  rw [fuel] at run
  obtain ⟨pushed, push, run⟩ := evalLoop_op crypto checker flags _ _ _ _ _ parsed run
  obtain ⟨top, taken⟩ := evalStep_push crypto checker flags k num _ _ _ direct rfl push
  obtain ⟨_, step, -⟩ := evalLoop_op crypto checker flags _ _ _ _ _ lock run
  exact (evalStep_lock crypto checker flags num _ _ _ _ enforced taken top step).2

/-- A term deposit is only unlocked by a transaction whose lock time has passed its number. -/
theorem evalScript_locked (stack result : List Bytes) (script : CScript) (r : Int)
    (enforced : hasFlag flags scriptVerifyChecklocktimeverify = true)
    (release : getTermDepositReleaseBlock script = .ok r) (locked : 0 < r) (height : r < 500000000)
    (returned : evalScript crypto checker flags stack script = .ok result) :
    checker.checkLockTime r = true := by
  obtain ⟨k, num, code, -, small, parsed, -, value⟩ := release_block_script script r release locked
  have direct : k ≤ opPushdata4 := by
    rw [UInt8.lt_iff_toNat_lt] at small
    rw [UInt8.le_iff_toNat_le]
    exact le_trans (le_of_lt small) (by decide)
  have met := evalScript_number_locked crypto checker flags stack result script k num code enforced
    direct parsed returned
  have same : setVch num = r := by
    rw [getint] at value
    split at value
    · omega
    · split at value <;> omega
  rwa [← same]

end Script

/-- What `CheckLockTime` has found about an input whose release block is a height. -/
structure InputLocked (tx : CTransaction) (nIn : Nat) (release : Int) : Prop where
  height : (tx.nLockTime.toNat : Int) < locktimeThreshold
  reached : release ≤ tx.nLockTime.toNat
  sequence : ∃ txin, tx.vin[nIn]? = some txin ∧ txin.isFinal = false

theorem txCheckLockTime_height (tx : CTransaction) (nIn : Nat) (release : Int)
    (height : release < 500000000) (met : txCheckLockTime tx nIn release = true) :
    InputLocked tx nIn release := by
  have threshold : locktimeThreshold = 500000000 := rfl
  rw [txCheckLockTime] at met
  split at met
  · cases met
  · rename_i alike
    rw [not_not] at alike
    split at met
    · cases met
    · rename_i reached
      split at met
      · cases met
      · rename_i txin input
        rw [Bool.not_eq_true'] at met
        exact ⟨by omega, by omega, txin, input, met⟩

/-- A transaction with such an input is not final at the release block or below. -/
theorem InputLocked.final_above (tx : CTransaction) (nIn : Nat) (release : Int)
    (locked : InputLocked tx nIn release) (positive : 0 < release) (nBlockHeight nBlockTime : Int)
    (final : isFinalTx tx nBlockHeight nBlockTime = true) : release < nBlockHeight := by
  have reached := locked.reached
  have blocks := locked.height
  obtain ⟨txin, input, open_sequence⟩ := locked.sequence
  have some_lock : ¬ tx.nLockTime = 0 := by
    intro zero
    rw [zero] at reached
    simp at reached
    omega
  rw [isFinalTx] at final
  simp only [if_neg some_lock, if_pos blocks] at final
  split at final
  · omega
  · have sealed := List.all_eq_true.mp final txin (List.mem_of_getElem? input)
    rw [open_sequence] at sealed
    cases sealed

/-- The lock holds for every input of a transaction that is final at a height. -/
theorem input_locked (crypto : Crypto) (tx : CTransaction) (nIn : Nat)
    (scriptSig scriptPubKey : CScript) (flags : BitVec 32) (r nBlockHeight nBlockTime : Int)
    (enforced : hasFlag flags scriptVerifyChecklocktimeverify = true)
    (release : getTermDepositReleaseBlock scriptPubKey = .ok r) (locked : 0 < r)
    (height : r < 500000000)
    (accepted : verifyScript crypto (transactionSignatureChecker crypto tx nIn) flags scriptSig
      scriptPubKey = .ok ())
    (final : isFinalTx tx nBlockHeight nBlockTime = true) : r < nBlockHeight := by
  simp only [verifyScript, bind_ok] at accepted
  obtain ⟨_, -, stackCopy, -, stack, evaluated, -⟩ := accepted
  have met := evalScript_locked crypto _ flags stackCopy stack scriptPubKey r enforced release
    locked height evaluated
  simp only [transactionSignatureChecker] at met
  have input := txCheckLockTime_height tx nIn r height met
  exact input.final_above tx nIn r locked nBlockHeight nBlockTime final

/-! ## The block -/

/-- The index entry made for the header of a block. -/
def EntryOf (env : Environment) (block : CBlock) (pindex : CBlockIndex) : Prop :=
  pindex = .ofHeader block.header (some (env.blockHash block.header))
    (some block.header.hashPrevBlock) pindex.nHeight

/-- Above the height that enforces an upgrade every block has a majority of the new version. -/
theorem lock_enforced (env : Environment) (checkpoints : MapCheckpoints) (block : CBlock)
    (pindex : CBlockIndex) (ancestors : List CBlockIndex)
    (headers : CheckedHeaders env checkpoints (pindex :: ancestors))
    (entry : EntryOf env block pindex)
    (window : (env.params.nMajorityEnforceBlockUpgrade : Int) ≤ env.params.nMajorityWindow)
    (above : (env.params.nMajorityEnforceBlockUpgrade : Int) < pindex.nHeight) :
    hasFlag (blockContext env block pindex).flags scriptVerifyChecklocktimeverify = true := by
  have depth := headers.height
  have set : upgradeFlag env block pindex 4 scriptVerifyChecklocktimeverify =
      scriptVerifyChecklocktimeverify := by
    cases headers with
    | genesis _ first height => omega
    | next earlier header _ pindexPrev below _ network regular passed built linked =>
        have version : block.header.nVersion.toInt ≥ 4 := by
          have own : pindex.nVersion = block.header.nVersion := congrArg CBlockIndex.nVersion entry
          rw [← own, built]
          apply contextualCheckBlockHeader_version earlier checkpoints header _ _ passed
          rw [network.1, network.2]
          exact regular
        rw [List.length_cons] at depth
        rw [upgradeFlag, if_pos]
        refine ⟨version, ?_⟩
        rw [linked, isSuperMajority, decide_eq_true_eq]
        exact superMajorityLoop_headers env checkpoints _ _ _ (by assumption) _ 0 (by omega)
          (by omega)
  simp only [blockContext, set]
  exact hasFlag_or _ _ (by decide)

/-- The transaction loop up to a transaction, that transaction, and the rest. -/
theorem connectTxs_split (env : Environment) (context : BlockContext) (i : Nat) (st st' : Connecting)
    (before after : List CTransaction) (tx : CTransaction)
    (connected : connectTxs env context i st (before ++ tx :: after) = .ok st') :
    ∃ middle next, connectTxs env context i st before = .ok middle ∧
      connectTx env context (i + before.length) middle tx = .ok next ∧
      connectTxs env context (i + before.length + 1) next after = .ok st' := by
  induction before generalizing i st with
  | nil =>
      rw [List.nil_append, connectTxs, bind_ok] at connected
      obtain ⟨next, here, rest⟩ := connected
      exact ⟨st, next, rfl, here, rest⟩
  | cons first before ih =>
      rw [List.cons_append, connectTxs, bind_ok] at connected
      obtain ⟨st1, here, rest⟩ := connected
      obtain ⟨middle, next, others, step, last⟩ := ih (i + 1) st1 rest
      have place : i + 1 + before.length = i + (first :: before).length := by
        rw [List.length_cons]
        omega
      rw [place] at step last
      refine ⟨middle, next, ?_, step, last⟩
      rw [connectTxs, bind_ok]
      exact ⟨st1, here, others⟩

theorem connectInputs_control (env : Environment) (context : BlockContext) (st st' : Connecting)
    (tx : CTransaction) (passed : connectInputs env context st tx = .ok st') :
    st.control ⊆ st'.control := by
  rw [connectInputs] at passed
  split at passed
  · cases passed
    exact List.Subset.refl _
  · simp only [bind_ok, pure_ok] at passed
    obtain ⟨_, -, nP2SH, -, _, -, nValueIn, -, nValueOut, -, vChecks, -, rfl⟩ := passed
    exact List.subset_append_left _ _

theorem connectTx_control (env : Environment) (context : BlockContext) (i : Nat)
    (st st' : Connecting) (tx : CTransaction) (passed : connectTx env context i st tx = .ok st') :
    st.control ⊆ st'.control := by
  simp only [connectTx, bind_ok, pure_ok, Prod.exists] at passed
  obtain ⟨_, -, middle, inputs, txundo, view, -, rfl⟩ := passed
  have kept := connectInputs_control env context _ middle tx inputs
  exact kept

/-- Queued checks stay queued. -/
theorem connectTxs_control (env : Environment) (context : BlockContext) (i : Nat)
    (st st' : Connecting) (vtx : List CTransaction)
    (connected : connectTxs env context i st vtx = .ok st') : st.control ⊆ st'.control := by
  induction vtx generalizing i st with
  | nil =>
      cases connected
      exact List.Subset.refl _
  | cons tx vtx ih =>
      rw [connectTxs, bind_ok] at connected
      obtain ⟨middle, here, rest⟩ := connected
      exact List.Subset.trans (connectTx_control env context i st middle tx here)
        (ih (i + 1) middle rest)

/-- With script checks on, the check of an input is made at once or queued. -/
theorem connectTx_checks (env : Environment) (context : BlockContext) (i : Nat)
    (st st' : Connecting) (tx : CTransaction) (regular : tx.isCoinBase = false)
    (on : context.fScriptChecks = true) (passed : connectTx env context i st tx = .ok st') :
    ∀ check ∈ scriptChecks st.view tx context.flags,
      check.failed env = none ∨ check ∈ st'.control := by
  simp only [connectTx, connectInputs, checkInputs, regular, Bool.false_eq_true, if_false, on,
    bind_ok, pure_ok, Prod.exists] at passed
  obtain ⟨_, -, middle, ⟨_, -, nP2SH, -, _, -, nValueIn, -, nValueOut, -, vChecks, ⟨_, -, made⟩,
    rfl⟩, txundo, view, -, rfl⟩ := passed
  intro check member
  cases deferred : env.nScriptCheckThreads != 0 with
  | true =>
      rw [deferred] at made
      cases made
      exact .inr (List.mem_append_right _ member)
  | false =>
      rw [deferred, checkInputScripts_ok] at made
      exact .inl (made.1 check member)

/-- Every input of a connected block has passed its script check. -/
theorem connectBlock_checks (env : Environment) (block : CBlock) (pindex : CBlockIndex)
    (view : FlatView) (fJustCheck : Bool) (result : Connected)
    (regular : env.blockHash block.header ≠ env.params.hashGenesisBlock)
    (on : (blockContext env block pindex).fScriptChecks = true)
    (accepted : connectBlock env block pindex view fJustCheck = .ok result)
    (before after : List CTransaction) (tx : CTransaction) (st : Connecting)
    (place : block.vtx = before ++ tx :: after) (spending : tx.isCoinBase = false)
    (reached : connectTxs env (blockContext env block pindex) 0 ⟨view, 0, 0, [], []⟩ before =
      .ok st) :
    ∀ check ∈ scriptChecks st.view tx (blockContext env block pindex).flags,
      check.failed env = none := by
  rw [connectBlock, if_neg regular] at accepted
  simp only [connectTransactions, bind_ok, require_ok] at accepted
  obtain ⟨_, -, _, -, _, -, final, connected, _, queued, -⟩ := accepted
  rw [place] at connected
  obtain ⟨middle, next, others, step, rest⟩ :=
    connectTxs_split env _ 0 _ final before after tx connected
  rw [reached] at others
  cases others
  intro check member
  rcases connectTx_checks env _ _ st next tx spending on step check member with made | waits
  · exact made
  · exact queued check (connectTxs_control env _ _ next final after rest waits)

/-- Above the first block a checked header is not that of the first block, and its block was
checked at its own height. -/
theorem CheckedHeaders.above (env : Environment) (checkpoints : MapCheckpoints) (block : CBlock)
    (pindex : CBlockIndex) (ancestors : List CBlockIndex)
    (headers : CheckedHeaders env checkpoints (pindex :: ancestors))
    (entry : EntryOf env block pindex) (positive : 0 < pindex.nHeight) :
    env.blockHash block.header ≠ env.params.hashGenesisBlock ∧
      ancestors.head?.elim 0 (fun pindexPrev => pindexPrev.nHeight + 1) = pindex.nHeight := by
  cases headers with
  | genesis _ first height => omega
  | next earlier header _ pindexPrev below _ network regular passed built linked =>
      have hash : some (env.blockHash header) = some (env.blockHash block.header) := by
        calc
          some (env.blockHash header) = pindex.phashBlock := by rw [built]; rfl
          _ = some (env.blockHash block.header) := congrArg CBlockIndex.phashBlock entry
      rw [← Option.some.inj hash]
      refine ⟨regular, ?_⟩
      rw [built]
      rfl

/-- A block accepted above the height that enforces the lock, with script checks on, spends no
term deposit before its release block. -/
theorem block_locked (env : Environment) (crypto : Crypto) (checkpoints : MapCheckpoints)
    (block : CBlock) (pindex : CBlockIndex) (ancestors : List CBlockIndex)
    (headers : CheckedHeaders (env.interpreting crypto) checkpoints (pindex :: ancestors))
    (entry : EntryOf (env.interpreting crypto) block pindex)
    (window : (env.params.nMajorityEnforceBlockUpgrade : Int) ≤ env.params.nMajorityWindow)
    (above : (env.params.nMajorityEnforceBlockUpgrade : Int) < pindex.nHeight)
    (earlier : Environment)
    (contextual : contextualCheckBlock earlier block ancestors.head? = .ok ())
    (on : (blockContext (env.interpreting crypto) block pindex).fScriptChecks = true)
    (view : FlatView) (fJustCheck : Bool) (result : Connected)
    (accepted : connectBlock (env.interpreting crypto) block pindex view fJustCheck = .ok result)
    (before after : List CTransaction) (tx : CTransaction) (st : Connecting)
    (place : block.vtx = before ++ tx :: after) (spending : tx.isCoinBase = false)
    (reached : connectTxs (env.interpreting crypto)
      (blockContext (env.interpreting crypto) block pindex) 0 ⟨view, 0, 0, [], []⟩ before = .ok st)
    (txin : CTxIn) (input : txin ∈ tx.vin) (r : Int)
    (release : getTermDepositReleaseBlock (st.view.prevOutput txin).scriptPubKey = .ok r)
    (locked : 0 < r) (height : r < 500000000) : r < pindex.nHeight := by
  have positive : 0 < pindex.nHeight := by omega
  obtain ⟨regular, own⟩ := headers.above _ checkpoints block pindex ancestors entry positive
  have enforced := lock_enforced (env.interpreting crypto) checkpoints block pindex ancestors
    headers entry window above
  obtain ⟨nIn, inRange, same⟩ := List.mem_iff_getElem.mp input
  have check : (⟨(st.view.prevOutput txin).scriptPubKey, tx, nIn,
      (blockContext (env.interpreting crypto) block pindex).flags⟩ : CScriptCheck) ∈
        scriptChecks st.view tx (blockContext (env.interpreting crypto) block pindex).flags := by
    rw [scriptChecks, List.mem_map]
    refine ⟨(txin, nIn), ?_, rfl⟩
    rw [List.mem_zipIdx_iff_getElem?, List.getElem?_eq_getElem inRange, same]
  have passed := connectBlock_checks _ block pindex view fJustCheck result regular on accepted
    before after tx st place spending reached _ check
  have verified := (interpretScript_none crypto tx nIn _ _).mp passed
  have final : isFinalTx tx pindex.nHeight block.header.getBlockTime = true := by
    simp only [contextualCheckBlock, then_ok, each_ok, require_ok, own] at contextual
    exact contextual.1 tx (by simp [place])
  exact input_locked crypto tx nIn _ _ _ r _ _ enforced release locked height verified final

/-- The term lock end to end: an accepted input of a final transaction is past its release block;
the flag that makes the script ask for this is set in every block above the height of the upgrade;
and no block accepted there spends a term deposit early. -/
theorem term_lock_end_to_end (crypto : Crypto) (checkpoints : MapCheckpoints) :
    (∀ (tx : CTransaction) (nIn : Nat) (scriptSig scriptPubKey : CScript) (flags : BitVec 32)
        (r nBlockHeight nBlockTime : Int),
      hasFlag flags scriptVerifyChecklocktimeverify = true →
      getTermDepositReleaseBlock scriptPubKey = .ok r → 0 < r → r < 500000000 →
      verifyScript crypto (transactionSignatureChecker crypto tx nIn) flags scriptSig
        scriptPubKey = .ok () →
      isFinalTx tx nBlockHeight nBlockTime = true → r < nBlockHeight) ∧
    (∀ (env : Environment) (block : CBlock) (pindex : CBlockIndex) (ancestors : List CBlockIndex),
      CheckedHeaders env checkpoints (pindex :: ancestors) → EntryOf env block pindex →
      (env.params.nMajorityEnforceBlockUpgrade : Int) ≤ env.params.nMajorityWindow →
      (env.params.nMajorityEnforceBlockUpgrade : Int) < pindex.nHeight →
      hasFlag (blockContext env block pindex).flags scriptVerifyChecklocktimeverify = true) ∧
    (∀ (env earlier : Environment) (block : CBlock) (pindex : CBlockIndex)
        (ancestors : List CBlockIndex) (view : FlatView) (fJustCheck : Bool) (result : Connected)
        (before after : List CTransaction) (tx : CTransaction) (st : Connecting) (txin : CTxIn)
        (r : Int),
      CheckedHeaders (env.interpreting crypto) checkpoints (pindex :: ancestors) →
      EntryOf (env.interpreting crypto) block pindex →
      (env.params.nMajorityEnforceBlockUpgrade : Int) ≤ env.params.nMajorityWindow →
      (env.params.nMajorityEnforceBlockUpgrade : Int) < pindex.nHeight →
      contextualCheckBlock earlier block ancestors.head? = .ok () →
      (blockContext (env.interpreting crypto) block pindex).fScriptChecks = true →
      connectBlock (env.interpreting crypto) block pindex view fJustCheck = .ok result →
      block.vtx = before ++ tx :: after → tx.isCoinBase = false →
      connectTxs (env.interpreting crypto) (blockContext (env.interpreting crypto) block pindex) 0
        ⟨view, 0, 0, [], []⟩ before = .ok st →
      txin ∈ tx.vin → getTermDepositReleaseBlock (st.view.prevOutput txin).scriptPubKey = .ok r →
      0 < r → r < 500000000 → r < pindex.nHeight) := by
  refine ⟨?_, ?_, ?_⟩
  · intro tx nIn scriptSig scriptPubKey flags r nBlockHeight nBlockTime enforced release locked
      height
    exact input_locked crypto tx nIn scriptSig scriptPubKey flags r _ _ enforced release locked height
  · intro env block pindex ancestors
    exact lock_enforced env checkpoints block pindex ancestors
  · intro env earlier block pindex ancestors view fJustCheck result before after tx st txin r
      headers entry window above contextual on accepted place spending reached input
    exact block_locked env crypto checkpoints block pindex ancestors headers entry window above
      earlier contextual on view fJustCheck result accepted before after tx st place spending
      reached txin input r

/-! A chain of three blocks, the last of which spends a term deposit released at height one. -/

def depositCrypto : Crypto := { plainCrypto with hash160 := fun _ => List.replicate 20 0 }

def depositScript : CScript :=
  [1, 1, opChecklocktimeverify, opDrop, opDup, opHash160, 20] ++ List.replicate 20 0 ++
    [opEqualverify, opChecksig]

/-- The smallest DER signature and a compressed key. -/
def depositSig : CScript :=
  [9, 0x30, 6, 2, 1, 1, 2, 1, 1, 1] ++ 33 :: 2 :: List.replicate 32 0

def releaseTransaction : CTransaction := ⟨1, [⟨⟨9, 0⟩, depositSig, 0⟩], [⟨5 * coin, []⟩], 1⟩

def heightCoinbase : CTransaction := ⟨1, [⟨⟨0, -1⟩, [0x52, 1], -1⟩], [⟨0, []⟩], 0⟩

def lockHeader (hashPrevBlock hashMerkleRoot : Uint256) (nTime : BitVec 32) : CBlockHeader :=
  ⟨4, hashPrevBlock, hashMerkleRoot, nTime, ArithUint256.getCompact powLimitForkMainnet, 0, 0, 0⟩

def middleHeader : CBlockHeader := lockHeader mainHashGenesisBlock 7 1

def middleIndex : CBlockIndex := .ofHeader middleHeader (some 1) (some mainHashGenesisBlock) 1

def releaseBlock : CBlock := ⟨lockHeader 1 15 2, [heightCoinbase, releaseTransaction]⟩

def releaseIndex : CBlockIndex := .ofHeader releaseBlock.header (some 2) (some 1) 2

def lockEnvironment : Environment :=
  { plainEnvironment with
    params := { mainParams with nMajorityEnforceBlockUpgrade := 1, nMajorityWindow := 1 }
    blockHash := fun header =>
      if header.hashPrevBlock = 0 then mainHashGenesisBlock
      else if header.hashPrevBlock = 1 then 2 else 1
    mapBlockIndex := fun hash =>
      if hash = mainHashGenesisBlock then some genesisIndex
      else if hash = 1 then some middleIndex else none }

def depositView : FlatView where
  coins hash := if hash = 9 then some ⟨false, [some ⟨5 * coin, depositScript⟩], 0, 1⟩ else none
  hashBlock := 1

theorem release_headers :
    CheckedHeaders (lockEnvironment.interpreting depositCrypto) []
      [releaseIndex, middleIndex, genesisIndex] :=
  .next lockEnvironment releaseBlock.header releaseIndex middleIndex [genesisIndex]
    (.next lockEnvironment middleHeader middleIndex genesisIndex [] (.genesis genesisIndex rfl rfl)
      ⟨rfl, rfl⟩ (by decide) (by decide +kernel) (by decide) (by decide))
    ⟨rfl, rfl⟩ (by decide) (by decide +kernel) (by decide) (by decide)

/-- The loop reaches the spending transaction with the deposit in the view. -/
theorem release_reached :
    ∃ st, connectTxs (lockEnvironment.interpreting depositCrypto)
        (blockContext (lockEnvironment.interpreting depositCrypto) releaseBlock releaseIndex) 0
        ⟨depositView, 0, 0, [], []⟩ [heightCoinbase] = .ok st ∧
      getTermDepositReleaseBlock (st.view.prevOutput ⟨⟨9, 0⟩, depositSig, 0⟩).scriptPubKey =
        .ok 1 := by
  have computed : Except.map
      (fun st => getTermDepositReleaseBlock
        (st.view.prevOutput ⟨⟨9, 0⟩, depositSig, 0⟩).scriptPubKey)
      (connectTxs (lockEnvironment.interpreting depositCrypto)
        (blockContext (lockEnvironment.interpreting depositCrypto) releaseBlock releaseIndex) 0
        ⟨depositView, 0, 0, [], []⟩ [heightCoinbase]) = .ok (.ok 1) := by
    decide +kernel
  cases run : connectTxs (lockEnvironment.interpreting depositCrypto)
    (blockContext (lockEnvironment.interpreting depositCrypto) releaseBlock releaseIndex) 0
    ⟨depositView, 0, 0, [], []⟩ [heightCoinbase] with
  | error failure =>
      rw [run] at computed
      cases computed
  | ok st =>
      rw [run] at computed
      exact ⟨st, rfl, Except.ok.inj computed⟩

theorem term_lock_end_to_end_applied :
    (1 : Int) < 2 ∧
      hasFlag (blockContext (lockEnvironment.interpreting depositCrypto) releaseBlock
        releaseIndex).flags scriptVerifyChecklocktimeverify = true ∧
      1 < releaseIndex.nHeight := by
  have parts := term_lock_end_to_end depositCrypto []
  have entry : EntryOf (lockEnvironment.interpreting depositCrypto) releaseBlock releaseIndex := by
    rw [EntryOf]
    decide
  have enforced := parts.2.1 (lockEnvironment.interpreting depositCrypto) releaseBlock releaseIndex
    _ release_headers entry (by decide) (by decide)
  have by_input := parts.1 releaseTransaction 0 depositSig depositScript
    (blockContext (lockEnvironment.interpreting depositCrypto) releaseBlock releaseIndex).flags 1 2 2
    enforced (by decide +kernel) (by decide) (by decide) (by decide +kernel) (by decide)
  obtain ⟨result, accepted⟩ := exists_ok (connectBlock (lockEnvironment.interpreting depositCrypto)
    releaseBlock releaseIndex depositView false) (by decide +kernel)
  obtain ⟨st, reached, release⟩ := release_reached
  have by_block := parts.2.2 lockEnvironment lockEnvironment releaseBlock releaseIndex _ depositView
    false result [heightCoinbase] [] releaseTransaction st ⟨⟨9, 0⟩, depositSig, 0⟩ 1 release_headers
    entry (by decide) (by decide) (by decide +kernel) (by decide) accepted rfl (by decide) reached
    (by decide) release (by decide) (by decide)
  exact ⟨by_input, enforced, by_block⟩

end RoiCoin
