import RoiCoin.Script.Vectors

/-! `EvalScript` on vectors and indices, as the source has it (`script/interpreter.cpp`). -/

namespace RoiCoin

open Checked

namespace Vectors

/-- The local variables of `EvalScript` besides the position. -/
structure EvalState where
  stack : List Bytes
  altstack : List Bytes
  vfExec : List Bool
  pbegincodehash : Nat
  nOpCount : Nat
  deriving DecidableEq, Repr

/-! ## Moving elements -/

def stackOp (stack : List Bytes) : StackOp → Running (List Bytes)
  | .twoDrop => do
      checkSize .invalidStackOperation stack 2
      let stack ← popstack stack
      popstack stack
  | .twoDup => do
      checkSize .invalidStackOperation stack 2
      let vch1 ← stacktop stack 2
      let vch2 ← stacktop stack 1
      return pushBack (pushBack stack vch1) vch2
  | .threeDup => do
      checkSize .invalidStackOperation stack 3
      let vch1 ← stacktop stack 3
      let vch2 ← stacktop stack 2
      let vch3 ← stacktop stack 1
      return pushBack (pushBack (pushBack stack vch1) vch2) vch3
  | .twoOver => do
      checkSize .invalidStackOperation stack 4
      let vch1 ← stacktop stack 4
      let vch2 ← stacktop stack 3
      return pushBack (pushBack stack vch1) vch2
  | .twoRot => do
      checkSize .invalidStackOperation stack 6
      let vch1 ← stacktop stack 6
      let vch2 ← stacktop stack 5
      let stack ← eraseTop stack 6 4
      return pushBack (pushBack stack vch1) vch2
  | .twoSwap => do
      checkSize .invalidStackOperation stack 4
      let stack ← swapTop stack 4 2
      swapTop stack 3 1
  | .ifdup => do
      checkSize .invalidStackOperation stack 1
      let vch ← stacktop stack 1
      return if castToBool vch then pushBack stack vch else stack
  | .depth => .ok (pushBack stack (scriptNumSerialize stack.length))
  | .drop => do
      checkSize .invalidStackOperation stack 1
      popstack stack
  | .dup => do
      checkSize .invalidStackOperation stack 1
      let vch ← stacktop stack 1
      return pushBack stack vch
  | .nip => do
      checkSize .invalidStackOperation stack 2
      eraseTop stack 2 1
  | .over => do
      checkSize .invalidStackOperation stack 2
      let vch ← stacktop stack 2
      return pushBack stack vch
  | .rot => do
      checkSize .invalidStackOperation stack 3
      let stack ← swapTop stack 3 2
      swapTop stack 2 1
  | .swap => do
      checkSize .invalidStackOperation stack 2
      swapTop stack 2 1
  | .tuck => do
      checkSize .invalidStackOperation stack 2
      let vch ← stacktop stack 1
      insertTop stack 2 vch
  | .size => do
      checkSize .invalidStackOperation stack 1
      let vch ← stacktop stack 1
      return pushBack stack (scriptNumSerialize vch.length)

/-- `vchHash`, which `Finalize` fills. -/
def hashBuffer (size : Nat) (digest : Bytes) : Bytes := (digest ++ List.replicate size 0).take size

def hashSize : HashOp → Nat
  | .ripemd160 => 20
  | .sha1 => 20
  | .sha256 => 32
  | .hash160 => 20
  | .hash256 => 32

/-- The result is pushed, and popped again by the `VERIFY` form of an operation. -/
def pushResult (thenVerify : Bool) (serror : ScriptError) (fSuccess : Bool) (stack : List Bytes)
    (vch : Bytes) : Running (List Bytes) :=
  let stack := pushBack stack vch
  if thenVerify then
    if fSuccess then popstack stack else .error (.serror serror)
  else .ok stack

/-- The checks of a signature or a key, which return false with `serror` set. -/
def checking {α : Type} : Evaluating α → Running α
  | .ok a => .ok a
  | .error (.serror serror) => .error (.serror serror)
  | .error .assertion => .error .assertion

/-- `n` calls of `popstack`. -/
def popMany : Nat → List Bytes → Running (List Bytes)
  | 0, stack => .ok stack
  | n + 1, stack => do
      let stack ← popstack stack
      popMany n stack

section Evaluation

variable (crypto : Crypto) (checker : BaseSignatureChecker) (flags : BitVec 32)

/-- `CScriptNum(vch, fRequireMinimal, nMaxNumSize)` -/
def scriptNumOf (vch : Bytes) (nMaxNumSize : Nat) : Running Int :=
  match scriptNum vch (hasFlag flags scriptVerifyMinimaldata) nMaxNumSize with
  | .ok n => .ok n
  | .error _ => .error .scriptnumError

def checklocktimeverify (st : EvalState) : Running EvalState :=
  if ¬ hasFlag flags scriptVerifyChecklocktimeverify then do
    require (hasFlag flags scriptVerifyDiscourageUpgradableNops = false)
      (.serror .discourageUpgradableNops)
    return st
  else do
    checkSize .invalidStackOperation st.stack 1
    let vch ← stacktop st.stack 1
    let nLockTime ← scriptNumOf flags vch 5
    require (¬ nLockTime < 0) (.serror .negativeLocktime)
    require (checker.checkLockTime nLockTime = true) (.serror .unsatisfiedLocktime)
    return st

def ifOp (fExec negated : Bool) (st : EvalState) : Running EvalState :=
  if fExec then do
    checkSize .unbalancedConditional st.stack 1
    let vch ← stacktop st.stack 1
    let fValue := castToBool vch
    let stack ← popstack st.stack
    return { st with stack, vfExec := st.vfExec ++ [if negated then !fValue else fValue] }
  else .ok { st with vfExec := st.vfExec ++ [false] }

def elseOp (st : EvalState) : Running EvalState :=
  match st.vfExec.getLast? with
  | none => .error (.serror .unbalancedConditional)
  | some back => .ok { st with vfExec := st.vfExec.dropLast ++ [!back] }

def endif (st : EvalState) : Running EvalState :=
  if st.vfExec.isEmpty then .error (.serror .unbalancedConditional)
  else .ok { st with vfExec := st.vfExec.dropLast }

def verify (st : EvalState) : Running EvalState := do
  checkSize .invalidStackOperation st.stack 1
  let vch ← stacktop st.stack 1
  if castToBool vch then do
    let stack ← popstack st.stack
    return { st with stack }
  else .error (.serror .verify)

def toaltstack (st : EvalState) : Running EvalState := do
  checkSize .invalidStackOperation st.stack 1
  let vch ← stacktop st.stack 1
  let stack ← popstack st.stack
  return { st with stack, altstack := pushBack st.altstack vch }

def fromaltstack (st : EvalState) : Running EvalState := do
  checkSize .invalidAltstackOperation st.altstack 1
  let vch ← stacktop st.altstack 1
  let altstack ← popstack st.altstack
  return { st with stack := pushBack st.stack vch, altstack }

/-- `OP_PICK` and `OP_ROLL` -/
def pick (roll : Bool) (stack : List Bytes) : Running (List Bytes) := do
  checkSize .invalidStackOperation stack 2
  let vch ← stacktop stack 1
  let n ← getint <$> scriptNumOf flags vch 4
  let stack ← popstack stack
  require (¬ (n < 0 ∨ n ≥ stack.length)) (.serror .invalidStackOperation)
  let vch ← stacktop stack (n.toNat + 1)
  if roll then do
    let stack ← eraseTop stack (n.toNat + 1) n.toNat
    return pushBack stack vch
  else return pushBack stack vch

def equal (thenVerify : Bool) (stack : List Bytes) : Running (List Bytes) := do
  checkSize .invalidStackOperation stack 2
  let vch1 ← stacktop stack 2
  let vch2 ← stacktop stack 1
  let fEqual := vch1 == vch2
  let stack ← popstack stack
  let stack ← popstack stack
  pushResult thenVerify .equalverify fEqual stack (if fEqual then vchTrue else vchFalse)

def unary (op : UnaryOp) (stack : List Bytes) : Running (List Bytes) := do
  checkSize .invalidStackOperation stack 1
  let vch ← stacktop stack 1
  let bn ← scriptNumOf flags vch 4
  let stack ← popstack stack
  return pushBack stack (scriptNumSerialize (op.run bn))

/-- `OP_NUMEQUALVERIFY` reads the result back from the stack. -/
def binary (op : BinaryOp) (thenVerify : Bool) (stack : List Bytes) : Running (List Bytes) := do
  checkSize .invalidStackOperation stack 2
  let vch1 ← stacktop stack 2
  let bn1 ← scriptNumOf flags vch1 4
  let vch2 ← stacktop stack 1
  let bn2 ← scriptNumOf flags vch2 4
  let stack ← popstack stack
  let stack ← popstack stack
  let stack := pushBack stack (scriptNumSerialize (op.run bn1 bn2))
  if thenVerify then do
    let vch ← stacktop stack 1
    if castToBool vch then popstack stack else .error (.serror .numequalverify)
  else return stack

def within (stack : List Bytes) : Running (List Bytes) := do
  checkSize .invalidStackOperation stack 3
  let vch1 ← stacktop stack 3
  let bn1 ← scriptNumOf flags vch1 4
  let vch2 ← stacktop stack 2
  let bn2 ← scriptNumOf flags vch2 4
  let vch3 ← stacktop stack 1
  let bn3 ← scriptNumOf flags vch3 4
  let fValue := decide (bn2 ≤ bn1 ∧ bn1 < bn3)
  let stack ← popstack stack
  let stack ← popstack stack
  let stack ← popstack stack
  return pushBack stack (if fValue then vchTrue else vchFalse)

def hash (op : HashOp) (stack : List Bytes) : Running (List Bytes) := do
  checkSize .invalidStackOperation stack 1
  let vch ← stacktop stack 1
  let vchHash := hashBuffer (hashSize op) (op.run crypto vch)
  let stack ← popstack stack
  return pushBack stack vchHash

def checksig (thenVerify : Bool) (script : CScript) (pbegincodehash : Nat) (stack : List Bytes) :
    Running (List Bytes) := do
  checkSize .invalidStackOperation stack 2
  let vchSig ← stacktop stack 2
  let vchPubKey ← stacktop stack 1
  let scriptCode ← scriptFrom script pbegincodehash
  let scriptCode := (findAndDelete scriptCode (pushData vchSig)).2
  checking (checkSignatureEncoding vchSig flags)
  checking (checkPubKeyEncoding vchPubKey flags)
  let fSuccess := checker.checkSig vchSig vchPubKey scriptCode
  let stack ← popstack stack
  let stack ← popstack stack
  pushResult thenVerify .checksigverify fSuccess stack (if fSuccess then vchTrue else vchFalse)

/-! ## Several signatures -/

/-- The signatures from `isig` on are deleted from the script. -/
def deleteSignatures (stack : List Bytes) : Nat → Nat → CScript → Running CScript
  | 0, _, scriptCode => .ok scriptCode
  | nSigsCount + 1, isig, scriptCode => do
      let vchSig ← stacktop stack isig
      deleteSignatures stack nSigsCount (isig + 1) (findAndDelete scriptCode (pushData vchSig)).2

/-- The loop over the counts of keys and signatures left and the indices of the next ones. -/
def multisigLoop (scriptCode : CScript) (stack : List Bytes) :
    (nKeysCount nSigsCount isig ikey : Nat) → Running Bool
  | _, 0, _, _ => .ok true
  | 0, _ + 1, _, _ => .error .unfinished
  | nKeysCount + 1, nSigsCount + 1, isig, ikey => do
      let vchSig ← stacktop stack isig
      let vchPubKey ← stacktop stack ikey
      checking (checkSignatureEncoding vchSig flags)
      checking (checkPubKeyEncoding vchPubKey flags)
      if checker.checkSig vchSig vchPubKey scriptCode then
        if nSigsCount > nKeysCount then return false
        else multisigLoop scriptCode stack nKeysCount nSigsCount (isig + 1) (ikey + 1)
      else if nSigsCount + 1 > nKeysCount then return false
      else multisigLoop scriptCode stack nKeysCount (nSigsCount + 1) isig (ikey + 1)

/-- The new stack and operation count. -/
def checkmultisig (thenVerify : Bool) (script : CScript) (pbegincodehash nOpCount : Nat)
    (stack : List Bytes) : Running (List Bytes × Nat) := do
  checkSize .invalidStackOperation stack 1
  let vch ← stacktop stack 1
  let nKeysCount ← getint <$> scriptNumOf flags vch 4
  require (¬ (nKeysCount < 0 ∨ nKeysCount > 20)) (.serror .pubkeyCount)
  let nOpCount := nOpCount + nKeysCount.toNat
  require (¬ nOpCount > 201) (.serror .opCount)
  let ikey := 2
  let i := 2 + nKeysCount.toNat
  checkSize .invalidStackOperation stack i
  let vch ← stacktop stack i
  let nSigsCount ← getint <$> scriptNumOf flags vch 4
  require (¬ (nSigsCount < 0 ∨ nSigsCount > nKeysCount)) (.serror .sigCount)
  let isig := i + 1
  let i := i + 1 + nSigsCount.toNat
  checkSize .invalidStackOperation stack i
  let scriptCode ← scriptFrom script pbegincodehash
  let scriptCode ← deleteSignatures stack nSigsCount.toNat isig scriptCode
  let fSuccess ←
    multisigLoop checker flags scriptCode stack nKeysCount.toNat nSigsCount.toNat isig ikey
  let stack ← popMany (i - 1) stack
  checkSize .invalidStackOperation stack 1
  let vch ← stacktop stack 1
  require (hasFlag flags scriptVerifyNulldummy = true → vch.length = 0) (.serror .sigNulldummy)
  let stack ← popstack stack
  let stack ← pushResult thenVerify .checkmultisigverify fSuccess stack
    (if fSuccess then vchTrue else vchFalse)
  return (stack, nOpCount)

/-! ## The loop -/

def onStack (st : EvalState) (result : Running (List Bytes)) : Running EvalState := do
  let stack ← result
  return { st with stack }

/-- The switch; `pc` is the position after the operation. -/
def operation (script : CScript) (pc : Nat) (fExec : Bool) (st : EvalState) :
    Operation → Running EvalState
  | .pushNumber n => .ok { st with stack := pushBack st.stack (scriptNumSerialize n) }
  | .nop => .ok st
  | .checklocktimeverify => checklocktimeverify checker flags st
  | .upgradableNop => do
      require (hasFlag flags scriptVerifyDiscourageUpgradableNops = false)
        (.serror .discourageUpgradableNops)
      return st
  | .ifOp negated => ifOp fExec negated st
  | .elseOp => elseOp st
  | .endif => endif st
  | .verify => verify st
  | .returnOp => .error (.serror .opReturn)
  | .toaltstack => toaltstack st
  | .fromaltstack => fromaltstack st
  | .stackOp op => onStack st (stackOp st.stack op)
  | .pick roll => onStack st (pick flags roll st.stack)
  | .equal thenVerify => onStack st (equal thenVerify st.stack)
  | .unary op => onStack st (unary flags op st.stack)
  | .binary op thenVerify => onStack st (binary flags op thenVerify st.stack)
  | .within => onStack st (within flags st.stack)
  | .hash op => onStack st (hash crypto op st.stack)
  | .codeseparator => .ok { st with pbegincodehash := pc }
  | .checksig thenVerify =>
      onStack st (checksig checker flags thenVerify script st.pbegincodehash st.stack)
  | .checkmultisig thenVerify => do
      let (stack, nOpCount) ←
        checkmultisig checker flags thenVerify script st.pbegincodehash st.nOpCount st.stack
      return { st with stack, nOpCount }
  | .badOpcode => .error (.serror .badOpcode)

/-- A push, the switch, or nothing in a branch not taken. -/
def instruction (script : CScript) (op : OpAt) (st : EvalState) : Running EvalState :=
  let fExec := !st.vfExec.contains false
  if fExec = true ∧ op.opcode ≤ opPushdata4 then do
    require (hasFlag flags scriptVerifyMinimaldata = true →
      checkMinimalPush op.vch op.opcode = true) (.serror .minimaldata)
    return { st with stack := pushBack st.stack op.vch }
  else if fExec = true ∨ (opIf ≤ op.opcode ∧ op.opcode ≤ opEndif) then
    operation crypto checker flags script op.pc fExec st (operationOf op.opcode)
  else .ok st

/-- The body of the loop after `GetOp`. -/
def evalStep (script : CScript) (op : OpAt) (st : EvalState) : Running EvalState := do
  require (¬ op.vch.length > maxScriptElementSize) (.serror .pushSize)
  let nOpCount := if op.opcode > op16 then st.nOpCount + 1 else st.nOpCount
  require (op.opcode > op16 → ¬ nOpCount > 201) (.serror .opCount)
  require (op.opcode ∉ disabledOpcodes) (.serror .disabledOpcode)
  let st ← instruction crypto checker flags script op { st with nOpCount }
  require (¬ st.stack.length + st.altstack.length > 1000) (.serror .stackSize)
  return st

/-- The loop with a bound on its turns. -/
def evalLoop (script : CScript) : Nat → Nat → EvalState → Running EvalState
  | turns, pc, st =>
      if ¬ pc < script.length then .ok st
      else
        match turns with
        | 0 => .error .unfinished
        | turns + 1 => do
            match ← getOp script pc with
            | none => .error (.serror .badOpcode)
            | some op =>
                let st ← evalStep crypto checker flags script op st
                evalLoop script turns op.pc st

/-- `EvalScript` up to its return with `true`; the state holds its two stacks. -/
def evalScript (stack : List Bytes) (script : CScript) : Running EvalState := do
  require (¬ script.length > 10000) (.serror .scriptSize)
  let st ← evalLoop crypto checker flags script script.length 0 ⟨stack, [], [], 0, 0⟩
  require (st.vfExec = []) (.serror .unbalancedConditional)
  return st

end Evaluation

end Vectors

end RoiCoin
