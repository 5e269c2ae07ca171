import RoiCoin.Script.StackSizes
import RoiCoin.Validation.TermLock

/-! The output script of a term deposit (`SendMoney` in `rpcwallet.cpp`, the destination visitor of
`script/standard.cpp`). -/

namespace RoiCoin

open Checked

abbrev Uint160 := BitVec 160

def toByteVector (id : Uint160) : Bytes := writeLE 20 id.toNat

inductive CTxDestination where
  | noDestination
  | keyID (id : Uint160)
  | scriptID (id : Uint160)
  deriving DecidableEq, Repr

/-- `CScriptVisitor` on a script that may hold something already: only the case of a key id leaves
that in place. -/
def visitDestination (script : CScript) : CTxDestination → CScript
  | .noDestination => []
  | .keyID id =>
      script ++ [opDup, opHash160] ++ pushData (toByteVector id) ++ [opEqualverify, opChecksig]
  | .scriptID id => [opHash160] ++ pushData (toByteVector id) ++ [opEqual]

def getScriptForDestination (dest : CTxDestination) : CScript := visitDestination [] dest

def getTimeLockScriptForDestination (dest : CTxDestination) (smallInt : Int) : CScript :=
  visitDestination (pushData (scriptNumSerialize smallInt) ++ [opChecklocktimeverify, opDrop]) dest

def rpcInvalidParameter : Int := -8
def rpcWalletInsufficientFunds : Int := -6

/-- The checks of `SendMoney` and the script it asks the wallet to pay to. -/
def sendMoneyScript (curBalance nHeight : Int) (address : CTxDestination) (nValue : Int)
    (termDepositLength : Int) : Except (Int × String) CScript := do
  require (¬ nValue ≤ 0) (rpcInvalidParameter, "Invalid amount")
  require (¬ termDepositLength < 0) (rpcInvalidParameter, "Invalid termDepositLength")
  require (¬ nValue > curBalance) (rpcWalletInsufficientFunds, "Insufficient funds")
  return if termDepositLength = 0 then getScriptForDestination address
    else getTimeLockScriptForDestination address (nHeight + 1 + termDepositLength)

/-! ## The scripts -/

theorem toByteVector_length (id : Uint160) : (toByteVector id).length = 20 := writeLE_length _ _

/-- A script id throws away the lock that was written before it. -/
theorem time_lock_scriptID (id : Uint160) (smallInt : Int) :
    getTimeLockScriptForDestination (.scriptID id) smallInt =
      getScriptForDestination (.scriptID id) := rfl

theorem getOp_time_lock (id : Uint160) (release : Nat) (small : release < 500000000) :
    ∃ (k : UInt8) (code : CScript), k ≤ opPushdata4 ∧
      getOp (getTimeLockScriptForDestination (.keyID id) release) =
        some ⟨k, scriptNumSerialize release, opChecklocktimeverify :: code⟩ := by
  have length := serialize_length release 4 (by rw [Int.natAbs_natCast]; omega)
  have parsed := getOp_pushData (scriptNumSerialize release)
    (opChecklocktimeverify :: opDrop :: opDup :: opHash160 ::
      (pushData (toByteVector id) ++ [opEqualverify, opChecksig])) (by omega)
  refine ⟨pushOpcode (scriptNumSerialize release), opDrop :: opDup :: opHash160 ::
    (pushData (toByteVector id) ++ [opEqualverify, opChecksig]), pushOpcode_le _, ?_⟩
  rw [getTimeLockScriptForDestination, visitDestination, ← parsed]
  simp only [List.append_assoc, List.cons_append, List.nil_append]

/-- The deposit of a key id asks for the lock time of its number. -/
theorem key_deposit_locked (crypto : Crypto) (tx : CTransaction) (nIn : Nat) (flags : BitVec 32)
    (scriptSig : CScript) (id : Uint160) (release : Nat) (small : release < 500000000)
    (enforced : hasFlag flags scriptVerifyChecklocktimeverify = true)
    (accepted : verifyScript crypto (transactionSignatureChecker crypto tx nIn) flags scriptSig
      (getTimeLockScriptForDestination (.keyID id) release) = .ok ()) :
    InputLocked tx nIn release := by
  obtain ⟨k, code, direct, parsed⟩ := getOp_time_lock id release small
  simp only [verifyScript, bind_ok] at accepted
  obtain ⟨_, -, stackCopy, -, stack, evaluated, -⟩ := accepted
  have met := evalScript_number_locked crypto _ flags stackCopy stack _ k _ code enforced direct
    parsed evaluated
  rw [setVch_serialize] at met
  simp only [transactionSignatureChecker] at met
  exact txCheckLockTime_height tx nIn release (by omega) met

/-! ## A script hash -/

section Script

variable (crypto : Crypto) (checker : BaseSignatureChecker) (flags : BitVec 32)

theorem pushOpcode_hash (id : Uint160) : pushOpcode (toByteVector id) = 20 := by
  rw [pushOpcode, toByteVector_length]
  decide

/-- The three operations of a script hash output. -/
theorem getOp_scriptID (id : Uint160) :
    getOp (getScriptForDestination (.scriptID id)) =
        some ⟨opHash160, [], pushData (toByteVector id) ++ [opEqual]⟩ ∧
      getOp (pushData (toByteVector id) ++ [opEqual]) = some ⟨20, toByteVector id, [opEqual]⟩ ∧
      getOp [opEqual] = some ⟨opEqual, [], []⟩ := by
  have length := toByteVector_length id
  refine ⟨getOp_plain _ _ (by decide), ?_, getOp_plain _ _ (by decide)⟩
  rw [← pushOpcode_hash id]
  exact getOp_pushData (toByteVector id) [opEqual] (by omega)

theorem script_hash_size (id : Uint160) :
    (getScriptForDestination (.scriptID id)).length = 23 := by
  have length := toByteVector_length id
  rw [getScriptForDestination, visitDestination, pushData, length, if_pos (by decide)]
  simp only [List.length_append, List.length_cons, List.length_nil, length]

theorem hash160_step (rest : CScript) (st st' : EvalState) (taken : st.vfExec = []) :
    evalStep crypto checker flags ⟨opHash160, [], rest⟩ st = .ok st' ↔
      st.nOpCount < 201 ∧ ∃ vch stack, st.stack = vch :: stack ∧
        st' = { st with stack := crypto.hash160 vch :: stack, nOpCount := st.nOpCount + 1 } ∧
        st'.stack.length + st'.altstack.length ≤ 1000 := by
  have operation : operationOf opHash160 = .hash .hash160 := by decide
  have large : opHash160 > op16 := by decide
  rw [evalStep_operation crypto checker flags _ _ _ _ (by decide) taken, operation]
  simp only [large, if_true, true_implies, evalOperation, evalHash, bind_ok, pure_ok, Prod.exists,
    popstack_ok, HashOp.run]
  constructor
  · rintro ⟨counted, -, ⟨vch, stack, same, rfl⟩, room⟩
    exact ⟨counted, vch, stack, same, rfl, room⟩
  · rintro ⟨counted, vch, stack, same, rfl, room⟩
    exact ⟨counted, by decide, ⟨vch, stack, same, rfl⟩, room⟩

theorem equal_step (rest : CScript) (st st' : EvalState) (taken : st.vfExec = []) :
    evalStep crypto checker flags ⟨opEqual, [], rest⟩ st = .ok st' ↔
      st.nOpCount < 201 ∧ ∃ vch2 vch1 stack, st.stack = vch2 :: vch1 :: stack ∧
        st' = { st with stack := boolVch (vch1 == vch2) :: stack, nOpCount := st.nOpCount + 1 } ∧
        st'.stack.length + st'.altstack.length ≤ 1000 := by
  have operation : operationOf opEqual = .equal false := by decide
  have large : opEqual > op16 := by decide
  rw [evalStep_operation crypto checker flags _ _ _ _ (by decide) taken, operation]
  simp only [large, if_true, true_implies, evalOperation, evalEqual, pushResult, Bool.false_eq_true,
    if_false, bind_ok, pure_ok, Prod.exists, popstack_ok, Except.ok.injEq]
  constructor
  · rintro ⟨counted, -, ⟨vch2, _, first, vch1, stack, rfl, _, rfl, rfl⟩, room⟩
    exact ⟨counted, vch2, vch1, stack, first, rfl, room⟩
  · rintro ⟨counted, vch2, vch1, stack, first, rfl, room⟩
    exact ⟨counted, by decide, ⟨vch2, _, first, vch1, stack, rfl, _, rfl, rfl⟩, room⟩

/-- A script hash output is satisfied by a string with that hash, and by nothing else. -/
theorem script_hash_top (id : Uint160) (stack result : List Bytes)
    (returned : evalScript crypto checker flags stack (getScriptForDestination (.scriptID id)) =
      .ok result) (accepted : checkResult result = .ok ()) :
    ∃ vch rest, stack = vch :: rest ∧ crypto.hash160 vch = toByteVector id := by
  obtain ⟨first, second, third⟩ := getOp_scriptID id
  simp only [evalScript, bind_ok, pure_ok, script_hash_size] at returned
  obtain ⟨_, -, st, run, _, -, rfl⟩ := returned
  obtain ⟨hashed, hash, run⟩ := evalLoop_op crypto checker flags 22 _ _ _ _ first run
  rw [hash160_step crypto checker flags _ _ _ rfl] at hash
  obtain ⟨-, vch, rest, same, rfl, -⟩ := hash
  obtain ⟨pushed, push, run⟩ := evalLoop_op crypto checker flags 21 _ _ _ _ second run
  obtain ⟨top, taken⟩ := evalStep_push crypto checker flags _ _ _ _ _ (by decide) rfl push
  obtain ⟨final, compare, run⟩ := evalLoop_op crypto checker flags 20 _ _ _ _ third run
  rw [equal_step crypto checker flags _ _ _ taken, top] at compare
  obtain ⟨-, vch2, vch1, below, pair, rfl, -⟩ := compare
  cases run
  cases pair
  refine ⟨vch, rest, same, ?_⟩
  rw [checkResult, require_ok] at accepted
  by_contra different
  rw [beq_false_of_ne different] at accepted
  cases accepted

/-- The string itself satisfies the output. -/
theorem script_hash_accepts (id : Uint160) (vch : Bytes)
    (hashed : crypto.hash160 vch = toByteVector id) :
    evalScript crypto checker flags [vch] (getScriptForDestination (.scriptID id)) =
      .ok [vchTrue] := by
  obtain ⟨first, second, third⟩ := getOp_scriptID id
  have size := script_hash_size id
  revert first size
  generalize getScriptForDestination (.scriptID id) = script
  intro first size
  have length := toByteVector_length id
  have hash := (hash160_step crypto checker flags (pushData (toByteVector id) ++ [opEqual])
    ⟨[vch], [], [], script, 0⟩ ⟨[crypto.hash160 vch], [], [], script, 1⟩ rfl).mpr
    ⟨by simp, vch, [], rfl, rfl, by simp⟩
  have push := evalStep_pushes crypto checker flags 20 (toByteVector id) [opEqual]
    ⟨[crypto.hash160 vch], [], [], script, 1⟩ (by decide) (by rw [length]; decide) rfl
    (fun _ => by
      have minimal := minimal_push (toByteVector id) (by omega)
      rwa [pushOpcode_hash] at minimal)
    (by simp)
  have compare := (equal_step crypto checker flags [] ⟨[toByteVector id, crypto.hash160 vch], [], [],
    script, 1⟩ ⟨[vchTrue], [], [], script, 2⟩ rfl).mpr
    ⟨by simp, _, _, [], rfl, by rw [hashed, beq_self_eq_true]; rfl, by simp⟩
  simp only [evalScript, bind_ok, pure_ok, require_ok, size]
  refine ⟨(), by decide, ⟨[vchTrue], [], [], script, 2⟩, ?_, (), rfl, rfl⟩
  rw [evalLoop_next crypto checker flags 22 _ _ _ _ first hash,
    evalLoop_next crypto checker flags 21 _ _ _ _ second push,
    evalLoop_next crypto checker flags 20 _ _ _ _ third compare]
  rfl

end Script

/-! ## The deposit -/

/-- Whoever spends the deposit made at a height waits for its release block. -/
def TermLocked (crypto : Crypto) (dest : CTxDestination) (nHeight termDepositLength : Nat) : Prop :=
  ∀ (flags : BitVec 32) (tx : CTransaction) (nIn : Nat) (txin : CTxIn), tx.vin[nIn]? = some txin →
    hasFlag flags scriptVerifyChecklocktimeverify = true →
    verifyScript crypto (transactionSignatureChecker crypto tx nIn) flags txin.scriptSig
      (getTimeLockScriptForDestination dest (nHeight + 1 + termDepositLength : Nat)) = .ok () →
    InputLocked tx nIn (nHeight + 1 + termDepositLength : Nat) ∧
      ∀ nBlockHeight nBlockTime, isFinalTx tx nBlockHeight nBlockTime = true →
        ((nHeight + 1 + termDepositLength : Nat) : Int) < nBlockHeight

/-- A final transaction without a lock time whose only input pushes a string. -/
def pushingTransaction (vch : Bytes) : CTransaction where
  nVersion := 1
  vin := [⟨⟨0, 0⟩, pushData vch, -1⟩]
  vout := [⟨0, []⟩]
  nLockTime := 0

theorem evalScript_push (crypto : Crypto) (checker : BaseSignatureChecker) (flags : BitVec 32)
    (vch : Bytes) (short : vch.length ≤ maxScriptElementSize)
    (free : hasFlag flags scriptVerifyMinimaldata = false) :
    evalScript crypto checker flags [] (pushData vch) = .ok [vch] := by
  have limit : maxScriptElementSize = 520 := rfl
  obtain ⟨longer, size⟩ := pushData_length vch
  have parsed := getOp_pushData vch [] (by omega)
  rw [List.append_nil] at parsed
  have push := evalStep_pushes crypto checker flags (pushOpcode vch) vch []
    ⟨[], [], [], pushData vch, 0⟩ (pushOpcode_le vch) short rfl
    (fun asked => by rw [free] at asked; cases asked) (by simp)
  obtain ⟨fuel, same⟩ : ∃ fuel, (pushData vch).length = fuel + 1 :=
    ⟨(pushData vch).length - 1, by omega⟩
  simp only [evalScript, bind_ok, pure_ok, require_ok]
  refine ⟨(), by omega, ⟨[vch], [], [], pushData vch, 0⟩, ?_, (), rfl, rfl⟩
  rw [same, evalLoop_next crypto checker flags fuel _ _ _ _ parsed push]
  cases fuel <;> rfl

/-- A string with the right hash spends the deposit of a script id at once. -/
theorem script_deposit_spent (crypto : Crypto) (id : Uint160) (nHeight termDepositLength : Nat)
    (vch : Bytes) (short : vch.length ≤ maxScriptElementSize)
    (hashed : crypto.hash160 vch = toByteVector id) :
    ¬ TermLocked crypto (.scriptID id) nHeight termDepositLength := by
  intro locked
  have accepted : verifyScript crypto (transactionSignatureChecker crypto (pushingTransaction vch) 0)
      scriptVerifyChecklocktimeverify (pushData vch)
      (getTimeLockScriptForDestination (.scriptID id) (nHeight + 1 + termDepositLength : Nat)) =
      .ok () := by
    have pushed := evalScript_push crypto
      (transactionSignatureChecker crypto (pushingTransaction vch) 0)
      scriptVerifyChecklocktimeverify vch short (by decide)
    have plain : (hasFlag scriptVerifyChecklocktimeverify scriptVerifyP2SH &&
        isPayToScriptHash (getScriptForDestination (.scriptID id))) = false := by
      have absent : hasFlag scriptVerifyChecklocktimeverify scriptVerifyP2SH = false := by decide
      rw [absent, Bool.false_and]
    rw [time_lock_scriptID]
    simp only [verifyScript, bind_ok, require_ok, verifyScriptHash, plain, Bool.false_eq_true,
      if_false]
    refine ⟨(), fun asked => absurd asked (by decide), [vch], pushed, [vchTrue],
      script_hash_accepts crypto _ _ id vch hashed, (), by decide, [vchTrue], rfl, ?_⟩
    rw [checkCleanstack, if_neg (by decide)]
  have outcome := (locked _ (pushingTransaction vch) 0 _ rfl (by decide) accepted).1.reached
  have zero : (pushingTransaction vch).nLockTime.toNat = 0 := rfl
  rw [zero] at outcome
  omega

/-- The deposit is locked for every key id. For a script id the lock is missing, so that the
deposit is locked only where no string that fits in a push has the hash, and nobody can spend it. -/
theorem term_deposit_locked_iff (crypto : Crypto) (digests : crypto.Digests) (dest : CTxDestination)
    (valid : dest ≠ .noDestination) (nHeight termDepositLength : Nat)
    (small : nHeight + 1 + termDepositLength < 500000000) :
    TermLocked crypto dest nHeight termDepositLength ↔
      ∀ id, dest = .scriptID id → ∀ vch, vch.length ≤ maxScriptElementSize →
        crypto.hash160 vch ≠ toByteVector id := by
  constructor
  · rintro locked id rfl vch short hashed
    exact script_deposit_spent crypto id nHeight termDepositLength vch short hashed locked
  · intro unknown flags tx nIn txin _ enforced accepted
    cases dest with
    | noDestination => exact absurd rfl valid
    | keyID id =>
        have input := key_deposit_locked crypto tx nIn flags txin.scriptSig id _ small enforced
          accepted
        exact ⟨input, input.final_above tx nIn _ (by omega)⟩
    | scriptID id =>
        rw [time_lock_scriptID] at accepted
        simp only [verifyScript, bind_ok] at accepted
        obtain ⟨_, -, stackCopy, pushed, stack, evaluated, done, result, -⟩ := accepted
        obtain ⟨vch, rest, rfl, hashed⟩ :=
          script_hash_top crypto _ flags id stackCopy stack evaluated result
        have short := (evalScript_small crypto _ flags digests _ _ pushed).1 vch
          List.mem_cons_self
        exact absurd hashed (unknown id rfl vch short)

/-- What a wallet with enough money pays to for a deposit. -/
theorem sendMoneyScript_deposit (curBalance : Int) (nHeight : Nat) (address : CTxDestination)
    (nValue : Int) (termDepositLength : Nat) (positive : 1 ≤ termDepositLength) (script : CScript)
    (sent : sendMoneyScript curBalance nHeight address nValue termDepositLength = .ok script) :
    script =
      getTimeLockScriptForDestination address (nHeight + 1 + termDepositLength : Nat) := by
  simp only [sendMoneyScript, bind_ok, pure_ok] at sent
  obtain ⟨_, -, _, -, _, -, rfl⟩ := sent
  rw [if_neg (by omega)]
  push_cast
  rfl

/-- Digests of the right lengths; the script `OP_1` has its own hash. -/
def shortCrypto : Crypto where
  ripemd160 _ := List.replicate 20 0
  sha1 _ := List.replicate 20 0
  sha256 _ := List.replicate 32 0
  hash160 data :=
    if data = [op1] then toByteVector 0x4b5acd30ba7ec77199561afa0bbd49b5e94517da
    else List.replicate 20 0
  hash256 _ := List.replicate 32 0
  verify _ _ _ := false

theorem shortCrypto_digests : shortCrypto.Digests := by
  refine ⟨fun _ => rfl, fun _ => rfl, fun _ => rfl, fun data => ?_, fun _ => rfl⟩
  simp only [shortCrypto]
  split
  · exact toByteVector_length _
  · rfl

theorem term_deposit_locked_iff_key :
    TermLocked shortCrypto (.keyID 7) 100 50 ↔
      ∀ id, CTxDestination.keyID 7 = .scriptID id → ∀ vch, vch.length ≤ maxScriptElementSize →
        shortCrypto.hash160 vch ≠ toByteVector id :=
  term_deposit_locked_iff shortCrypto shortCrypto_digests (.keyID 7) (by decide) 100 50 (by decide)

/-- Under the standard flags the deposit of the script `OP_1` is spent by a final transaction
without a lock time. -/
theorem script_deposit_unlocked :
    ¬ TermLocked shortCrypto (.scriptID 0x4b5acd30ba7ec77199561afa0bbd49b5e94517da) 100 50 := by
  intro locked
  have accepted : verifyScript shortCrypto
      (transactionSignatureChecker shortCrypto (pushingTransaction [op1]) 0)
      standardScriptVerifyFlags (pushData [op1])
      (getTimeLockScriptForDestination
        (.scriptID 0x4b5acd30ba7ec77199561afa0bbd49b5e94517da) (100 + 1 + 50 : Nat)) = .ok () := by
    decide +kernel
  have final := (locked _ (pushingTransaction [op1]) 0 _ rfl (by decide) accepted).2 101 0
    (by decide)
  revert final
  decide

end RoiCoin
