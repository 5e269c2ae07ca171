import RoiCoin.Wallet.DepositScript

/-! What it takes to spend an output (`VerifyScript` on the scripts of `script/standard.cpp`).

The operations that a script parses into are run one after another. Each standard script then
comes down to a condition on the stack that the `scriptSig` leaves. -/

namespace RoiCoin

open Checked

/-! ## Runs of operations -/

/-- The operations that a script parses into, to its end. -/
inductive ParsesTo : CScript → List ScriptOp → Prop
  | done : ParsesTo [] []
  | op {pc : CScript} {op : ScriptOp} {ops : List ScriptOp} (parsed : getOp pc = some op)
      (rest : ParsesTo op.rest ops) : ParsesTo pc (op :: ops)

theorem parsesTo_opcode (opcode : UInt8) (pc : CScript) (ops : List ScriptOp)
    (plain : opPushdata4 < opcode) (rest : ParsesTo pc ops) :
    ParsesTo (opcode :: pc) (⟨opcode, [], pc⟩ :: ops) :=
  .op (getOp_plain opcode pc plain) rest

section Evaluation

variable (crypto : Crypto) (checker : BaseSignatureChecker) (flags : BitVec 32)

def evalOps : List ScriptOp → EvalState → Evaluating EvalState
  | [], st => .ok st
  | op :: ops, st => do
      let st ← evalStep crypto checker flags op st
      evalOps ops st

theorem evalOps_nil (st st' : EvalState) :
    evalOps crypto checker flags [] st = .ok st' ↔ st = st' := by
  rw [evalOps, Except.ok.injEq]

theorem evalOps_cons (op : ScriptOp) (ops : List ScriptOp) (st st' : EvalState) :
    evalOps crypto checker flags (op :: ops) st = .ok st' ↔
      ∃ middle, evalStep crypto checker flags op st = .ok middle ∧
        evalOps crypto checker flags ops middle = .ok st' := by
  rw [evalOps, bind_ok]

theorem evalLoop_parsed (pc : CScript) (ops : List ScriptOp) (parses : ParsesTo pc ops) (fuel : Nat)
    (enough : pc.length ≤ fuel) (st : EvalState) :
    evalLoop crypto checker flags fuel pc st = evalOps crypto checker flags ops st := by
  induction parses generalizing fuel st with
  | done => cases fuel <;> rfl
  | op parsed rest ih =>
      rename_i pc op ops
      have shorter := getOp_consumes pc op parsed
      cases fuel with
      | zero => omega
      | succ fuel =>
          have some_bytes : pc ≠ [] := by
            rintro rfl
            cases parsed
          rw [evalLoop, if_neg some_bytes, parsed, evalOps]
          dsimp only
          congr 1
          funext middle
          exact ih fuel (by omega) middle

/-- The state in which a script starts, outside conditionals and with an empty alternative stack. -/
def plainState (stack : List Bytes) (pbegincodehash : CScript) (nOpCount : Nat) : EvalState :=
  ⟨stack, [], [], pbegincodehash, nOpCount⟩

theorem evalScript_parsed (script : CScript) (ops : List ScriptOp) (parses : ParsesTo script ops)
    (stack result : List Bytes) :
    evalScript crypto checker flags stack script = .ok result ↔
      script.length ≤ 10000 ∧
        ∃ st, evalOps crypto checker flags ops (plainState stack script 0) = .ok st ∧
          st.vfExec = [] ∧ st.stack = result := by
  rw [evalScript, evalLoop_parsed crypto checker flags script ops parses script.length le_rfl]
  simp only [bind_ok, require_ok, pure_ok, plainState, not_lt, exists_const]

/-! ## Single operations -/

theorem push_step (k : UInt8) (b rest : CScript) (stack : List Bytes) (code : CScript) (n : Nat)
    (st' : EvalState) (push : k ≤ opPushdata4) :
    evalStep crypto checker flags ⟨k, b, rest⟩ (plainState stack code n) = .ok st' ↔
      b.length ≤ maxScriptElementSize ∧
        (hasFlag flags scriptVerifyMinimaldata = true → checkMinimalPush b k = true) ∧
        stack.length < 1000 ∧ st' = plainState (b :: stack) code n := by
  obtain ⟨low, enabled⟩ := push_plain k push
  simp only [evalStep, evalInstruction, plainState, List.all_nil, push, if_neg low, true_and, if_true,
    bind_ok, require_ok, pure_ok]
  constructor
  · rintro ⟨-, size, -, -, -, -, _, ⟨-, minimal, rfl⟩, -, room, rfl⟩
    simp only [List.length_cons, List.length_nil] at room
    exact ⟨by omega, minimal, by omega, rfl⟩
  · rintro ⟨size, minimal, room, rfl⟩
    refine ⟨(), by omega, (), fun high => absurd high low, (), enabled, _, ⟨(), minimal, rfl⟩, (),
      ?_, rfl⟩
    simp only [List.length_cons, List.length_nil]
    omega

/-- An operation that counts towards the limit, by its case of the switch. -/
theorem counted_step (k : UInt8) (rest : CScript) (stack : List Bytes) (code : CScript) (n : Nat)
    (st' : EvalState) (large : op16 < k) (enabled : k ∉ disabledOpcodes) :
    evalStep crypto checker flags ⟨k, [], rest⟩ (plainState stack code n) = .ok st' ↔
      n < 201 ∧ evalOperation crypto checker flags rest true (plainState stack code (n + 1))
        (operationOf k) = .ok st' ∧ st'.stack.length + st'.altstack.length ≤ 1000 := by
  have below : opPushdata4 < op16 := by decide
  have plain : opPushdata4 < k := UInt8.lt_trans below large
  rw [evalStep_operation crypto checker flags k rest _ _ plain rfl]
  simp only [plainState, gt_iff_lt, large, if_true, true_imp_iff, enabled, not_false_eq_true, true_and]

theorem number_step (k : UInt8) (rest : CScript) (stack : List Bytes) (code : CScript) (n : Nat)
    (st' : EvalState) (least : op1 ≤ k) (most : k ≤ op16) :
    evalStep crypto checker flags ⟨k, [], rest⟩ (plainState stack code n) = .ok st' ↔
      stack.length < 1000 ∧
        st' = plainState (scriptNumSerialize (k.toNat - 0x50) :: stack) code n := by
  have below : opPushdata4 < op1 := by decide
  have plain : opPushdata4 < k := UInt8.lt_of_lt_of_le below least
  have small : ¬ op16 < k := UInt8.not_lt.mpr most
  have enabled : k ∉ disabledOpcodes := by
    intro member
    have high : op16.toNat < k.toNat := by
      revert member
      simp only [disabledOpcodes, List.mem_cons, List.not_mem_nil, or_false]
      rintro (rfl | rfl | rfl | rfl | rfl | rfl | rfl | rfl | rfl | rfl | rfl | rfl | rfl | rfl |
        rfl) <;> decide
    exact small (UInt8.lt_iff_toNat_lt.mpr high)
  have operation : operationOf k = .pushNumber (k.toNat - 0x50) := by
    unfold operationOf
    rw [if_pos (.inr ⟨least, most⟩)]
  rw [evalStep_operation crypto checker flags k rest _ _ plain rfl, operation]
  simp only [plainState, gt_iff_lt, small, if_false, false_imp_iff, enabled, not_false_eq_true,
    true_and, evalOperation, Except.ok.injEq]
  constructor
  · rintro ⟨rfl, room⟩
    simp only [List.length_cons, List.length_nil] at room
    exact ⟨by omega, rfl⟩
  · rintro ⟨room, rfl⟩
    refine ⟨rfl, ?_⟩
    simp only [List.length_cons, List.length_nil]
    omega

theorem dup_step (rest : CScript) (stack : List Bytes) (code : CScript) (n : Nat)
    (st' : EvalState) :
    evalStep crypto checker flags ⟨opDup, [], rest⟩ (plainState stack code n) = .ok st' ↔
      n < 201 ∧ stack.length < 1000 ∧ ∃ x below, stack = x :: below ∧
        st' = plainState (x :: stack) code (n + 1) := by
  have operation : operationOf opDup = .stackOp .dup := by decide
  rw [counted_step crypto checker flags _ _ _ _ _ _ (by decide) (by decide), operation]
  simp only [evalOperation, evalStackOp, plainState]
  cases stack with
  | nil => simp [StackOp.run]
  | cons x below =>
      simp only [StackOp.run, Except.ok.injEq, List.length_cons, List.cons.injEq]
      constructor
      · rintro ⟨counted, rfl, room⟩
        simp only [List.length_cons, List.length_nil] at room
        exact ⟨counted, by omega, x, below, ⟨rfl, rfl⟩, rfl⟩
      · rintro ⟨counted, room, _, _, ⟨rfl, rfl⟩, rfl⟩
        refine ⟨counted, rfl, ?_⟩
        simp only [List.length_cons, List.length_nil]
        omega

theorem drop_step (rest : CScript) (stack : List Bytes) (code : CScript) (n : Nat)
    (st' : EvalState) :
    evalStep crypto checker flags ⟨opDrop, [], rest⟩ (plainState stack code n) = .ok st' ↔
      n < 201 ∧ ∃ x below, stack = x :: below ∧ below.length ≤ 1000 ∧
        st' = plainState below code (n + 1) := by
  have operation : operationOf opDrop = .stackOp .drop := by decide
  rw [counted_step crypto checker flags _ _ _ _ _ _ (by decide) (by decide), operation]
  simp only [evalOperation, evalStackOp, plainState]
  cases stack with
  | nil => simp [StackOp.run]
  | cons x below =>
      simp only [StackOp.run, Except.ok.injEq, List.cons.injEq]
      constructor
      · rintro ⟨counted, rfl, room⟩
        exact ⟨counted, x, below, ⟨rfl, rfl⟩, room, rfl⟩
      · rintro ⟨counted, _, _, ⟨rfl, rfl⟩, room, rfl⟩
        exact ⟨counted, rfl, room⟩

theorem hashed_step (rest : CScript) (stack : List Bytes) (code : CScript) (n : Nat)
    (st' : EvalState) :
    evalStep crypto checker flags ⟨opHash160, [], rest⟩ (plainState stack code n) = .ok st' ↔
      n < 201 ∧ ∃ x below, stack = x :: below ∧ stack.length ≤ 1000 ∧
        st' = plainState (crypto.hash160 x :: below) code (n + 1) := by
  rw [hash160_step crypto checker flags rest _ _ rfl]
  simp only [plainState]
  constructor
  · rintro ⟨counted, x, below, rfl, rfl, room⟩
    exact ⟨counted, x, below, rfl, room, rfl⟩
  · rintro ⟨counted, x, below, rfl, room, rfl⟩
    exact ⟨counted, x, below, rfl, rfl, room⟩

theorem compared_step (rest : CScript) (stack : List Bytes) (code : CScript) (n : Nat)
    (st' : EvalState) :
    evalStep crypto checker flags ⟨opEqual, [], rest⟩ (plainState stack code n) = .ok st' ↔
      n < 201 ∧ ∃ x2 x1 below, stack = x2 :: x1 :: below ∧ below.length < 1000 ∧
        st' = plainState (boolVch (x1 == x2) :: below) code (n + 1) := by
  rw [equal_step crypto checker flags rest _ _ rfl]
  simp only [plainState]
  constructor
  · rintro ⟨counted, x2, x1, below, rfl, rfl, room⟩
    simp only [List.length_cons, List.length_nil] at room
    exact ⟨counted, x2, x1, below, rfl, by omega, rfl⟩
  · rintro ⟨counted, x2, x1, below, rfl, room, rfl⟩
    refine ⟨counted, x2, x1, below, rfl, rfl, ?_⟩
    simp only [List.length_cons, List.length_nil]
    omega

theorem castToBool_boolVch (holds : Bool) : castToBool (boolVch holds) = holds := by
  cases holds <;> rfl

theorem equalverify_step (rest : CScript) (stack : List Bytes) (code : CScript) (n : Nat)
    (st' : EvalState) :
    evalStep crypto checker flags ⟨opEqualverify, [], rest⟩ (plainState stack code n) = .ok st' ↔
      n < 201 ∧ ∃ x below, stack = x :: x :: below ∧ below.length ≤ 1000 ∧
        st' = plainState below code (n + 1) := by
  have operation : operationOf opEqualverify = .equal true := by decide
  rw [counted_step crypto checker flags _ _ _ _ _ _ (by decide) (by decide), operation]
  simp only [evalOperation, evalEqual, plainState, pushResult, if_true, bind_ok, require_ok, pure_ok,
    Prod.exists, popstack_ok, castToBool_boolVch]
  constructor
  · rintro ⟨counted, ⟨x2, _, rfl, x1, below, rfl, _, ⟨-, holds, rfl⟩, rfl⟩, room⟩
    have same : x1 = x2 := beq_iff_eq.mp holds
    exact ⟨counted, x2, below, by rw [same], room, rfl⟩
  · rintro ⟨counted, x, below, rfl, room, rfl⟩
    exact ⟨counted, ⟨x, _, rfl, x, below, rfl, _, ⟨(), beq_self_eq_true x, rfl⟩, rfl⟩, room⟩

theorem checksig_step (rest : CScript) (stack : List Bytes) (code : CScript) (n : Nat)
    (st' : EvalState) :
    evalStep crypto checker flags ⟨opChecksig, [], rest⟩ (plainState stack code n) = .ok st' ↔
      n < 201 ∧ ∃ vchPubKey vchSig below, stack = vchPubKey :: vchSig :: below ∧
        checkSignatureEncoding vchSig flags = .ok () ∧
        checkPubKeyEncoding vchPubKey flags = .ok () ∧ below.length < 1000 ∧
        st' = plainState (boolVch (checker.checkSig vchSig vchPubKey
          (findAndDelete code (pushData vchSig)).2) :: below) code (n + 1) := by
  have operation : operationOf opChecksig = .checksig false := by decide
  rw [counted_step crypto checker flags _ _ _ _ _ _ (by decide) (by decide), operation]
  simp only [evalOperation, evalChecksig, plainState, pushResult, Bool.false_eq_true, if_false,
    bind_ok, pure_ok, Prod.exists, popstack_ok, Except.ok.injEq]
  constructor
  · rintro ⟨counted, ⟨vchPubKey, _, rfl, vchSig, below, rfl, _, encoded, _, key, _, rfl, rfl⟩, room⟩
    simp only [List.length_cons, List.length_nil] at room
    exact ⟨counted, vchPubKey, vchSig, below, rfl, encoded, key, by omega, rfl⟩
  · rintro ⟨counted, vchPubKey, vchSig, below, rfl, encoded, key, room, rfl⟩
    refine ⟨counted, ⟨vchPubKey, _, rfl, vchSig, below, rfl, (), encoded, (), key, _, rfl, rfl⟩, ?_⟩
    simp only [List.length_cons, List.length_nil]
    omega

/-- The lock time is reached, or it is not asked for. A number of more than five bytes is refused. -/
def LockMet (release : Nat) : Prop :=
  if hasFlag flags scriptVerifyChecklocktimeverify then
    (scriptNumSerialize release).length ≤ 5 ∧ checker.checkLockTime release = true
  else hasFlag flags scriptVerifyDiscourageUpgradableNops = false

instance (release : Nat) : Decidable (LockMet checker flags release) :=
  inferInstanceAs (Decidable (if hasFlag flags scriptVerifyChecklocktimeverify then _ else _))

theorem minimallyEncoded_serialize (n : Nat) : minimallyEncoded (scriptNumSerialize n) = true := by
  cases n with
  | zero => decide
  | succ n => exact serialize_minimal (n + 1) (by omega)

theorem evalNum_serialize (n nMaxNumSize : Nat) (value : Int) :
    evalNum flags (scriptNumSerialize n) nMaxNumSize = .ok value ↔
      (scriptNumSerialize n).length ≤ nMaxNumSize ∧ value = n := by
  rw [evalNum, scriptNum, minimallyEncoded_serialize, setVch_serialize, Bool.not_true, Bool.and_false]
  by_cases long : (scriptNumSerialize n).length > nMaxNumSize
  · simp only [long, if_true, reduceCtorEq, false_iff, not_and]
    intro short
    omega
  · simp only [long, if_false, Bool.false_eq_true, Except.ok.injEq]
    exact ⟨fun same => ⟨by omega, same.symm⟩, fun both => both.2.symm⟩

theorem lock_step (rest : CScript) (release : Nat) (below : List Bytes) (code : CScript) (n : Nat)
    (st' : EvalState) :
    evalStep crypto checker flags ⟨opChecklocktimeverify, [], rest⟩
        (plainState (scriptNumSerialize release :: below) code n) = .ok st' ↔
      n < 201 ∧ LockMet checker flags release ∧ below.length < 1000 ∧
        st' = plainState (scriptNumSerialize release :: below) code (n + 1) := by
  have operation : operationOf opChecklocktimeverify = .checklocktimeverify := by decide
  rw [counted_step crypto checker flags _ _ _ _ _ _ (by decide) (by decide), operation, LockMet]
  by_cases asked : hasFlag flags scriptVerifyChecklocktimeverify = true
  · simp only [evalOperation, evalChecklocktimeverify, plainState, asked, if_true, bind_ok, require_ok,
      pure_ok, Prod.exists, popstack_ok]
    constructor
    · rintro ⟨counted, ⟨_, _, same, m, read, -, -, -, met, rfl⟩, room⟩
      cases same
      obtain ⟨short, rfl⟩ := (evalNum_serialize flags release 5 m).mp read
      simp only [List.length_cons, List.length_nil] at room
      exact ⟨counted, ⟨short, met⟩, by omega, rfl⟩
    · rintro ⟨counted, ⟨short, met⟩, room, rfl⟩
      refine ⟨counted, ⟨_, _, rfl, release, (evalNum_serialize flags release 5 _).mpr ⟨short, rfl⟩, (),
        by omega, (), met, rfl⟩, ?_⟩
      simp only [List.length_cons, List.length_nil]
      omega
  · have off := Bool.not_eq_true _ ▸ asked
    simp only [evalOperation, evalChecklocktimeverify, plainState, off, Bool.false_eq_true, if_false,
      bind_ok, require_ok, pure_ok]
    constructor
    · rintro ⟨counted, ⟨-, met, rfl⟩, room⟩
      simp only [List.length_cons, List.length_nil] at room
      exact ⟨counted, met, by omega, rfl⟩
    · rintro ⟨counted, met, room, rfl⟩
      refine ⟨counted, ⟨(), met, rfl⟩, ?_⟩
      simp only [List.length_cons, List.length_nil]
      omega

/-! ## From the output script to the whole -/

/-- Nothing is left below the result, where the flag asks for that. -/
def LeftClean (below : List Bytes) : Prop :=
  hasFlag flags scriptVerifyCleanstack = true →
    hasFlag flags scriptVerifyP2SH = true ∧ below = []

instance (below : List Bytes) : Decidable (LeftClean flags below) :=
  inferInstanceAs (Decidable (_ → _))

theorem checkResult_ok (stack : List Bytes) (done : Unit) :
    checkResult stack = .ok done ↔ ∃ back below, stack = back :: below ∧ castToBool back = true := by
  cases stack with
  | nil => simp [checkResult]
  | cons back below => simp [checkResult]

theorem checkCleanstack_ok (back : Bytes) (below : List Bytes) :
    checkCleanstack flags (back :: below) = .ok () ↔ LeftClean flags below := by
  rw [checkCleanstack, LeftClean]
  by_cases asked : hasFlag flags scriptVerifyCleanstack = true
  · simp [asked]
  · simp [asked]

/-- An output that is no script hash is spent by a script that leaves what it needs on the stack. -/
theorem verifyScript_plain (scriptSig scriptPubKey : CScript)
    (plain : isPayToScriptHash scriptPubKey = false) :
    verifyScript crypto checker flags scriptSig scriptPubKey = .ok () ↔
      (hasFlag flags scriptVerifySigpushonly = true → isPushOnly scriptSig = true) ∧
        ∃ stack, evalScript crypto checker flags [] scriptSig = .ok stack ∧
          ∃ back below, evalScript crypto checker flags stack scriptPubKey = .ok (back :: below) ∧
            castToBool back = true ∧ LeftClean flags below := by
  simp only [verifyScript, verifyScriptHash, plain, Bool.and_false, Bool.false_eq_true, if_false,
    bind_ok, require_ok, checkResult_ok, Except.ok.injEq]
  constructor
  · rintro ⟨-, pushes, stack, signed, result, evaluated, -, ⟨back, below, rfl, holds⟩, _, rfl, clean⟩
    exact ⟨pushes, stack, signed, back, below, evaluated, holds,
      (checkCleanstack_ok flags back below).mp clean⟩
  · rintro ⟨pushes, stack, signed, back, below, evaluated, holds, clean⟩
    exact ⟨(), pushes, stack, signed, _, evaluated, (), ⟨back, below, rfl, holds⟩, _, rfl,
      (checkCleanstack_ok flags back below).mpr clean⟩

/-! ## A key hash, behind a lock -/

def keyHashOps (id : Uint160) : List ScriptOp :=
  [⟨opDup, [], opHash160 :: keyHashCode id⟩, ⟨opHash160, [], keyHashCode id⟩,
    ⟨20, toByteVector id, [opEqualverify, opChecksig]⟩, ⟨opEqualverify, [], [opChecksig]⟩,
    ⟨opChecksig, [], []⟩]

theorem keyHash_parses (id : Uint160) :
    ParsesTo (opDup :: opHash160 :: keyHashCode id) (keyHashOps id) := by
  have length := toByteVector_length id
  have push := getOp_pushData (toByteVector id) [opEqualverify, opChecksig] (by omega)
  rw [pushOpcode_hash] at push
  refine parsesTo_opcode _ _ _ (by decide) (parsesTo_opcode _ _ _ (by decide) (.op push ?_))
  exact parsesTo_opcode _ _ _ (by decide) (parsesTo_opcode _ _ _ (by decide) .done)

/-- The key has the hash and has signed, both in the encodings that are asked for. -/
structure SignedBy (scriptCode : CScript) (id : Uint160) (vchPubKey vchSig : Bytes) : Prop where
  hashed : crypto.hash160 vchPubKey = toByteVector id
  signature : checkSignatureEncoding vchSig flags = .ok ()
  key : checkPubKeyEncoding vchPubKey flags = .ok ()
  signed : checker.checkSig vchSig vchPubKey (findAndDelete scriptCode (pushData vchSig)).2 = true

theorem keyHash_run (id : Uint160) (stack : List Bytes) (code : CScript) (n : Nat) (few : n ≤ 197)
    (st' : EvalState) :
    evalOps crypto checker flags (keyHashOps id) (plainState stack code n) = .ok st' ↔
      ∃ vchPubKey vchSig below, stack = vchPubKey :: vchSig :: below ∧
        crypto.hash160 vchPubKey = toByteVector id ∧ checkSignatureEncoding vchSig flags = .ok () ∧
        checkPubKeyEncoding vchPubKey flags = .ok () ∧ below.length ≤ 996 ∧
        st' = plainState (boolVch (checker.checkSig vchSig vchPubKey
          (findAndDelete code (pushData vchSig)).2) :: below) code (n + 4) := by
  have length := toByteVector_length id
  have short : (toByteVector id).length ≤ maxScriptElementSize := by
    rw [length]
    decide
  have minimal := minimal_push (toByteVector id) (by omega)
  rw [pushOpcode_hash] at minimal
  simp only [keyHashOps, evalOps_cons, evalOps_nil]
  constructor
  · rintro ⟨_, dup, _, hash, _, push, _, same, _, signed, rfl⟩
    obtain ⟨-, -, vchPubKey, rest, rfl, rfl⟩ := (dup_step crypto checker flags _ _ _ _ _).mp dup
    obtain ⟨-, _, _, pair, -, rfl⟩ := (hashed_step crypto checker flags _ _ _ _ _).mp hash
    cases pair
    obtain ⟨-, -, room, rfl⟩ := (push_step crypto checker flags _ _ _ _ _ _ _ (by decide)).mp push
    obtain ⟨-, hashed, below, pair, -, rfl⟩ := (equalverify_step crypto checker flags _ _ _ _ _).mp same
    rw [List.cons.injEq, List.cons.injEq] at pair
    obtain ⟨rfl, equal, rfl⟩ := pair
    obtain ⟨-, _, vchSig, below, pair, signature, key, -, rfl⟩ :=
      (checksig_step crypto checker flags _ _ _ _ _).mp signed
    rw [List.cons.injEq] at pair
    obtain ⟨rfl, rfl⟩ := pair
    simp only [List.length_cons] at room
    exact ⟨vchPubKey, vchSig, below, rfl, equal, signature, key, by omega, rfl⟩
  · rintro ⟨vchPubKey, vchSig, below, rfl, hashed, signature, key, room, rfl⟩
    refine ⟨_, (dup_step crypto checker flags _ _ _ _ _).mpr ⟨by omega, ?_, vchPubKey, _, rfl, rfl⟩,
      _, (hashed_step crypto checker flags _ _ _ _ _).mpr ⟨by omega, _, _, rfl, ?_, rfl⟩,
      _, (push_step crypto checker flags _ _ _ _ _ _ _ (by decide)).mpr
        ⟨short, fun _ => minimal, ?_, rfl⟩,
      _, (equalverify_step crypto checker flags _ _ _ _ _).mpr
        ⟨by omega, _, _, by rw [hashed], ?_, rfl⟩,
      _, (checksig_step crypto checker flags _ _ _ _ _).mpr
        ⟨by omega, _, _, below, rfl, signature, key, by omega, rfl⟩, rfl⟩
    all_goals
      simp only [List.length_cons]
      omega

/-- What a deposit does before it comes to its key. -/
def lockOps (release : Nat) (id : Uint160) : List ScriptOp :=
  [⟨pushOpcode (scriptNumSerialize release), scriptNumSerialize release,
      lockOpcodes ++ keyHashCode id⟩,
    ⟨opChecklocktimeverify, [], opDrop :: opDup :: opHash160 :: keyHashCode id⟩,
    ⟨opDrop, [], opDup :: opHash160 :: keyHashCode id⟩]

theorem release_length (release : Nat) (number : release < 2 ^ 63) :
    (scriptNumSerialize release).length ≤ 9 :=
  serialize_length release 8 (by rw [Int.natAbs_natCast]; omega)

theorem deposit_parses (release : Nat) (number : release < 2 ^ 63) (id : Uint160) :
    ParsesTo (getTimeLockScriptForDestination (.keyID id) release)
      (lockOps release id ++ keyHashOps id) := by
  have length := release_length release number
  have push := getOp_pushData (scriptNumSerialize release) (lockOpcodes ++ keyHashCode id) (by omega)
  rw [time_lock_parts]
  refine .op push (parsesTo_opcode _ _ _ (by decide) (parsesTo_opcode _ _ _ (by decide) ?_))
  exact keyHash_parses id

/-- A number from 1 to 16 has an opcode of its own, and is pushed without it. -/
theorem number_minimal (release : Nat) :
    checkMinimalPush (scriptNumSerialize release) (pushOpcode (scriptNumSerialize release)) = true ↔
      release = 0 ∨ 16 < release := by
  have bytes : ∀ n : Fin 128, 0 < n.val →
      (checkMinimalPush [UInt8.ofNat n.val] 1 = true ↔ n.val = 0 ∨ 16 < n.val) := by decide +kernel
  by_cases zero : release = 0
  · rw [zero]
    decide
  by_cases small : release < 128
  · have digits : Nat.digits 256 release = [] ++ [release] := Nat.digits_of_lt _ _ zero (by omega)
    have serialized : scriptNumSerialize release = [UInt8.ofNat release] := by
      rw [serialize_positive release [] release digits (by omega), if_pos small]
      rfl
    have positive : 0 < release := by omega
    rw [serialized]
    exact bytes ⟨release, small⟩ positive
  · obtain ⟨front, digit, digits, some, byte, lower⟩ := digits_last release (by omega)
    have two : 2 ≤ (scriptNumSerialize release).length := by
      rw [serialize_positive release front digit digits byte]
      by_cases low : digit < 128
      · cases front with
        | nil =>
            have value := Nat.ofDigits_digits 256 release
            rw [digits] at value
            simp only [List.nil_append, Nat.ofDigits_singleton] at value
            omega
        | cons first front => simp [low]
      · simp [low]
    simp only [minimal_push _ two, true_iff]
    omega

theorem evalOps_append (first rest : List ScriptOp) (st : EvalState) (st' : EvalState) :
    evalOps crypto checker flags (first ++ rest) st = .ok st' ↔
      ∃ middle, evalOps crypto checker flags first st = .ok middle ∧
        evalOps crypto checker flags rest middle = .ok st' := by
  induction first generalizing st with
  | nil => simp [evalOps_nil]
  | cons op first ih =>
      rw [List.cons_append, evalOps_cons]
      simp only [ih, evalOps_cons]
      constructor
      · rintro ⟨middle, step, next, front, back⟩
        exact ⟨next, ⟨middle, step, front⟩, back⟩
      · rintro ⟨next, ⟨middle, step, front⟩, back⟩
        exact ⟨middle, step, next, front, back⟩

/-- The number is pushed, compared and dropped again. -/
theorem lock_run (release : Nat) (number : release < 2 ^ 63) (id : Uint160) (stack : List Bytes)
    (code : CScript) (st' : EvalState) :
    evalOps crypto checker flags (lockOps release id) (plainState stack code 0) = .ok st' ↔
      (hasFlag flags scriptVerifyMinimaldata = true → release = 0 ∨ 16 < release) ∧
        LockMet checker flags release ∧ stack.length < 1000 ∧ st' = plainState stack code 2 := by
  have length := release_length release number
  have limit : maxScriptElementSize = 520 := rfl
  simp only [lockOps, evalOps_cons, evalOps_nil]
  constructor
  · rintro ⟨_, push, _, lock, _, drop, rfl⟩
    obtain ⟨-, minimal, room, rfl⟩ :=
      (push_step crypto checker flags _ _ _ _ _ _ _ (pushOpcode_le _)).mp push
    obtain ⟨-, met, -, rfl⟩ := (lock_step crypto checker flags _ _ _ _ _ _).mp lock
    obtain ⟨-, _, _, pair, -, rfl⟩ := (drop_step crypto checker flags _ _ _ _ _).mp drop
    cases pair
    exact ⟨fun asked => (number_minimal release).mp (minimal asked), met, room, rfl⟩
  · rintro ⟨minimal, met, room, rfl⟩
    exact ⟨_, (push_step crypto checker flags _ _ _ _ _ _ _ (pushOpcode_le _)).mpr
        ⟨by omega, fun asked => (number_minimal release).mpr (minimal asked), room, rfl⟩,
      _, (lock_step crypto checker flags _ _ _ _ _ _).mpr ⟨by omega, met, room, rfl⟩,
      _, (drop_step crypto checker flags _ _ _ _ _).mpr ⟨by omega, _, _, rfl, by omega, rfl⟩, rfl⟩

theorem deposit_length (release : Nat) (number : release < 2 ^ 63) (id : Uint160) :
    (getTimeLockScriptForDestination (.keyID id) release).length ≤ 10000 := by
  have length := release_length release number
  have pushed := pushData_length (scriptNumSerialize release)
  have hash := pushData_length (toByteVector id)
  have bytes := toByteVector_length id
  rw [time_lock_parts]
  simp only [lockOpcodes, keyHashCode, List.length_append, List.length_cons, List.length_nil]
  omega

theorem deposit_plain (release : Nat) (number : release < 2 ^ 63) (id : Uint160) :
    isPayToScriptHash (getTimeLockScriptForDestination (.keyID id) release) = false := by
  have length := release_length release number
  rw [time_lock_parts, pushData, if_pos (by omega), List.cons_append]
  have different : UInt8.ofNat (scriptNumSerialize release).length ≠ opHash160 := by
    intro same
    have value := congrArg UInt8.toNat same
    rw [UInt8.toNat_ofNat_of_lt' (show (scriptNumSerialize release).length < 256 by omega)] at value
    have word : opHash160.toNat = 169 := rfl
    omega
  simp [isPayToScriptHash, different]

/-- Exactly who spends a term deposit, and when: whoever gives a key with the hash and its
signature over the deposit, once the release block is reached. -/
theorem term_deposit_spent_iff (release : Nat) (number : release < 2 ^ 63) (id : Uint160)
    (scriptSig : CScript) :
    verifyScript crypto checker flags scriptSig
        (getTimeLockScriptForDestination (.keyID id) release) = .ok () ↔
      (hasFlag flags scriptVerifySigpushonly = true → isPushOnly scriptSig = true) ∧
        (hasFlag flags scriptVerifyMinimaldata = true → release = 0 ∨ 16 < release) ∧
        LockMet checker flags release ∧
        ∃ vchPubKey vchSig below,
          evalScript crypto checker flags [] scriptSig = .ok (vchPubKey :: vchSig :: below) ∧
          SignedBy crypto checker flags (getTimeLockScriptForDestination (.keyID id) release) id
            vchPubKey vchSig ∧ below.length ≤ 996 ∧ LeftClean flags below := by
  have size := deposit_length release number id
  have parses := deposit_parses release number id
  rw [verifyScript_plain crypto checker flags _ _ (deposit_plain release number id)]
  generalize getTimeLockScriptForDestination (.keyID id) release = script at size parses
  simp only [evalScript_parsed crypto checker flags script _ parses, evalOps_append]
  constructor
  · rintro ⟨pushes, stack, left, back, below, ⟨-, st, ⟨_, locked, signed⟩, -, result⟩, holds, clean⟩
    obtain ⟨minimal, met, -, rfl⟩ := (lock_run crypto checker flags release number id _ _ _).mp locked
    obtain ⟨vchPubKey, vchSig, rest, rfl, hashed, signature, key, room, rfl⟩ :=
      (keyHash_run crypto checker flags id stack script 2 (by omega) st).mp signed
    rw [plainState, List.cons.injEq] at result
    obtain ⟨rfl, rfl⟩ := result
    rw [castToBool_boolVch] at holds
    exact ⟨pushes, minimal, met, vchPubKey, vchSig, rest, left, ⟨hashed, signature, key, holds⟩, room,
      clean⟩
  · rintro ⟨pushes, minimal, met, vchPubKey, vchSig, below, left, spent, room, clean⟩
    have locked := (lock_run crypto checker flags release number id
      (vchPubKey :: vchSig :: below) script _).mpr
      ⟨minimal, met, by simp only [List.length_cons]; omega, rfl⟩
    have signed := (keyHash_run crypto checker flags id (vchPubKey :: vchSig :: below) script 2
      (by omega) _).mpr ⟨vchPubKey, vchSig, below, rfl, spent.hashed, spent.signature, spent.key, room,
        rfl⟩
    refine ⟨pushes, _, left, _, below, ⟨size, _, ⟨_, locked, signed⟩, rfl, rfl⟩, ?_, clean⟩
    rw [castToBool_boolVch]
    exact spent.signed

end Evaluation

/-- Everything is signed, and the chain is at height 120. -/
def heightChecker : BaseSignatureChecker where
  checkSig _ _ _ := true
  checkLockTime nLockTime := decide (nLockTime ≤ 120)

theorem term_deposit_spent_later :
    verifyScript shortCrypto heightChecker scriptVerifyChecklocktimeverify
      (pushData [48] ++ pushData [2]) (getTimeLockScriptForDestination (.keyID 0) 100) = .ok () :=
  (term_deposit_spent_iff shortCrypto heightChecker scriptVerifyChecklocktimeverify 100 (by decide) 0
    _).mpr
    ⟨by decide, by decide, by decide, [2], [48], [], by decide +kernel,
      ⟨by decide, by decide, by decide, rfl⟩, by decide, by decide⟩

end RoiCoin
