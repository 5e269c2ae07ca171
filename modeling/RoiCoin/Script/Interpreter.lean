import RoiCoin.Script.Encoding
import RoiCoin.Script.SignatureHash
import Mathlib.Data.Nat.Digits.Defs

/-! The script interpreter (`script/interpreter.cpp`).

A stack is a list with its top first, as is `vfExec`; a position in a script is the list of bytes
from it to the end. Exceptions end in `SCRIPT_ERR_UNKNOWN_ERROR`. Operands have at most five bytes,
so the assertions of `CScriptNum` hold and its arithmetic does not overflow. -/

namespace RoiCoin

open Checked

abbrev opIf : UInt8 := 0x63
abbrev opEndif : UInt8 := 0x68

def maxScriptElementSize : Nat := 520

def vchFalse : Bytes := []
def vchTrue : Bytes := [1]

/-- `CastToBool`; the last byte can be a negative zero. -/
def castToBool : Bytes → Bool
  | [] => false
  | [byte] => byte != 0 && byte != 0x80
  | byte :: vch => byte != 0 || castToBool vch

def boolVch (fValue : Bool) : Bytes := if fValue then vchTrue else vchFalse

/-- `CScriptNum::serialize` -/
def scriptNumSerialize (value : Int) : Bytes :=
  let result := (Nat.digits 256 value.natAbs).map UInt8.ofNat
  match result.getLast? with
  | none => []
  | some back =>
      if back &&& 0x80 != 0 then result ++ [if value < 0 then 0x80 else 0]
      else if value < 0 then result.dropLast ++ [back ||| 0x80]
      else result

/-- `CScript(b)`: the script that pushes `b`. -/
def pushData (b : Bytes) : CScript :=
  if b.length < 76 then UInt8.ofNat b.length :: b
  else if b.length ≤ 0xff then opPushdata1 :: UInt8.ofNat b.length :: b
  else if b.length ≤ 0xffff then opPushdata2 :: (writeLE 2 b.length ++ b)
  else opPushdata4 :: (writeLE 4 b.length ++ b)

/-! ## Operations -/

/-- The operations that only move or measure stack elements. -/
inductive StackOp where
  | twoDrop
  | twoDup
  | threeDup
  | twoOver
  | twoRot
  | twoSwap
  | ifdup
  | depth
  | drop
  | dup
  | nip
  | over
  | rot
  | swap
  | tuck
  | size
  deriving DecidableEq, Repr

inductive UnaryOp where
  | add1
  | sub1
  | negate
  | abs
  | not
  | zeroNotEqual
  deriving DecidableEq, Repr

inductive BinaryOp where
  | add
  | sub
  | boolAnd
  | boolOr
  | numEqual
  | numNotEqual
  | lessThan
  | greaterThan
  | lessThanOrEqual
  | greaterThanOrEqual
  | min
  | max
  deriving DecidableEq, Repr

inductive HashOp where
  | ripemd160
  | sha1
  | sha256
  | hash160
  | hash256
  deriving DecidableEq, Repr

/-- The cases of the switch in `EvalScript`; `thenVerify` marks the `VERIFY` form of a case. -/
inductive Operation where
  | pushNumber (n : Int)
  | nop
  | checklocktimeverify
  | upgradableNop
  | ifOp (negated : Bool)
  | elseOp
  | endif
  | verify
  | returnOp
  | toaltstack
  | fromaltstack
  | stackOp (op : StackOp)
  | pick (roll : Bool)
  | equal (thenVerify : Bool)
  | unary (op : UnaryOp)
  | binary (op : BinaryOp) (thenVerify : Bool)
  | within
  | hash (op : HashOp)
  | codeseparator
  | checksig (thenVerify : Bool)
  | checkmultisig (thenVerify : Bool)
  | badOpcode
  deriving DecidableEq, Repr

def operationOf (opcode : UInt8) : Operation :=
  if opcode = op1negate ∨ (op1 ≤ opcode ∧ opcode ≤ op16) then .pushNumber (opcode.toNat - 0x50)
  else if opcode = 0xb0 ∨ (0xb2 ≤ opcode ∧ opcode ≤ 0xb9) then .upgradableNop
  else
    match opcode with
    | 0x61 => .nop
    | 0xb1 => .checklocktimeverify
    | 0x63 => .ifOp false
    | 0x64 => .ifOp true
    | 0x67 => .elseOp
    | 0x68 => .endif
    | 0x69 => .verify
    | 0x6a => .returnOp
    | 0x6b => .toaltstack
    | 0x6c => .fromaltstack
    | 0x6d => .stackOp .twoDrop
    | 0x6e => .stackOp .twoDup
    | 0x6f => .stackOp .threeDup
    | 0x70 => .stackOp .twoOver
    | 0x71 => .stackOp .twoRot
    | 0x72 => .stackOp .twoSwap
    | 0x73 => .stackOp .ifdup
    | 0x74 => .stackOp .depth
    | 0x75 => .stackOp .drop
    | 0x76 => .stackOp .dup
    | 0x77 => .stackOp .nip
    | 0x78 => .stackOp .over
    | 0x79 => .pick false
    | 0x7a => .pick true
    | 0x7b => .stackOp .rot
    | 0x7c => .stackOp .swap
    | 0x7d => .stackOp .tuck
    | 0x82 => .stackOp .size
    | 0x87 => .equal false
    | 0x88 => .equal true
    | 0x8b => .unary .add1
    | 0x8c => .unary .sub1
    | 0x8f => .unary .negate
    | 0x90 => .unary .abs
    | 0x91 => .unary .not
    | 0x92 => .unary .zeroNotEqual
    | 0x93 => .binary .add false
    | 0x94 => .binary .sub false
    | 0x9a => .binary .boolAnd false
    | 0x9b => .binary .boolOr false
    | 0x9c => .binary .numEqual false
    | 0x9d => .binary .numEqual true
    | 0x9e => .binary .numNotEqual false
    | 0x9f => .binary .lessThan false
    | 0xa0 => .binary .greaterThan false
    | 0xa1 => .binary .lessThanOrEqual false
    | 0xa2 => .binary .greaterThanOrEqual false
    | 0xa3 => .binary .min false
    | 0xa4 => .binary .max false
    | 0xa5 => .within
    | 0xa6 => .hash .ripemd160
    | 0xa7 => .hash .sha1
    | 0xa8 => .hash .sha256
    | 0xa9 => .hash .hash160
    | 0xaa => .hash .hash256
    | 0xab => .codeseparator
    | 0xac => .checksig false
    | 0xad => .checksig true
    | 0xae => .checkmultisig false
    | 0xaf => .checkmultisig true
    | _ => .badOpcode

/-- `OP_CAT` to `OP_RIGHT`, `OP_INVERT` to `OP_XOR`, `OP_2MUL`, `OP_2DIV` and `OP_MUL` to
`OP_RSHIFT`. -/
def disabledOpcodes : List UInt8 :=
  [0x7e, 0x7f, 0x80, 0x81, 0x83, 0x84, 0x85, 0x86, 0x8d, 0x8e, 0x95, 0x96, 0x97, 0x98, 0x99]

/-- `none` where the stack is too small. -/
def StackOp.run : StackOp → List Bytes → Option (List Bytes)
  | .twoDrop, _ :: _ :: stack => some stack
  | .twoDup, x2 :: x1 :: stack => some (x2 :: x1 :: x2 :: x1 :: stack)
  | .threeDup, x3 :: x2 :: x1 :: stack => some (x3 :: x2 :: x1 :: x3 :: x2 :: x1 :: stack)
  | .twoOver, x4 :: x3 :: x2 :: x1 :: stack => some (x2 :: x1 :: x4 :: x3 :: x2 :: x1 :: stack)
  | .twoRot, x6 :: x5 :: x4 :: x3 :: x2 :: x1 :: stack =>
      some (x2 :: x1 :: x6 :: x5 :: x4 :: x3 :: stack)
  | .twoSwap, x4 :: x3 :: x2 :: x1 :: stack => some (x2 :: x1 :: x4 :: x3 :: stack)
  | .ifdup, x :: stack => some (if castToBool x then x :: x :: stack else x :: stack)
  | .depth, stack => some (scriptNumSerialize stack.length :: stack)
  | .drop, _ :: stack => some stack
  | .dup, x :: stack => some (x :: x :: stack)
  | .nip, x2 :: _ :: stack => some (x2 :: stack)
  | .over, x2 :: x1 :: stack => some (x1 :: x2 :: x1 :: stack)
  | .rot, x3 :: x2 :: x1 :: stack => some (x1 :: x3 :: x2 :: stack)
  | .swap, x2 :: x1 :: stack => some (x1 :: x2 :: stack)
  | .tuck, x2 :: x1 :: stack => some (x2 :: x1 :: x2 :: stack)
  | .size, x :: stack => some (scriptNumSerialize x.length :: x :: stack)
  | _, _ => none

def boolNum (fValue : Bool) : Int := if fValue then 1 else 0

def UnaryOp.run (bn : Int) : UnaryOp → Int
  | .add1 => bn + 1
  | .sub1 => bn - 1
  | .negate => -bn
  | .abs => if bn < 0 then -bn else bn
  | .not => boolNum (bn == 0)
  | .zeroNotEqual => boolNum (bn != 0)

def BinaryOp.run (bn1 bn2 : Int) : BinaryOp → Int
  | .add => bn1 + bn2
  | .sub => bn1 - bn2
  | .boolAnd => boolNum (bn1 != 0 && bn2 != 0)
  | .boolOr => boolNum (bn1 != 0 || bn2 != 0)
  | .numEqual => boolNum (bn1 == bn2)
  | .numNotEqual => boolNum (bn1 != bn2)
  | .lessThan => boolNum (decide (bn1 < bn2))
  | .greaterThan => boolNum (decide (bn1 > bn2))
  | .lessThanOrEqual => boolNum (decide (bn1 ≤ bn2))
  | .greaterThanOrEqual => boolNum (decide (bn1 ≥ bn2))
  | .min => if bn1 < bn2 then bn1 else bn2
  | .max => if bn1 > bn2 then bn1 else bn2

/-- The hash functions and `CPubKey::Verify`. -/
structure Crypto where
  ripemd160 : Bytes → Bytes
  sha1 : Bytes → Bytes
  sha256 : Bytes → Bytes
  hash160 : Bytes → Bytes
  hash256 : Bytes → Bytes
  verify : (pubkey : Bytes) → (sighash : Uint256) → (vchSig : Bytes) → Bool

def HashOp.run (crypto : Crypto) : HashOp → Bytes → Bytes
  | .ripemd160 => crypto.ripemd160
  | .sha1 => crypto.sha1
  | .sha256 => crypto.sha256
  | .hash160 => crypto.hash160
  | .hash256 => crypto.hash256

/-! ## Evaluation -/

structure BaseSignatureChecker where
  checkSig : (scriptSig vchPubKey : Bytes) → (scriptCode : CScript) → Bool
  checkLockTime : (nLockTime : Int) → Bool

/-- The local variables of `EvalScript` besides the position. -/
structure EvalState where
  stack : List Bytes
  altstack : List Bytes
  vfExec : List Bool
  pbegincodehash : CScript
  nOpCount : Nat
  deriving DecidableEq, Repr

/-- The top of a stack that must not be empty, and the rest. -/
def popstack (serror : ScriptError) : List Bytes → Evaluating (Bytes × List Bytes)
  | [] => .error (.serror serror)
  | vch :: stack => .ok (vch, stack)

/-- The second half of an operation in its `VERIFY` form: the result just pushed is checked. -/
def pushResult (thenVerify : Bool) (serror : ScriptError) (vch : Bytes) (stack : List Bytes) :
    Evaluating (List Bytes) :=
  if thenVerify then do
    require (castToBool vch = true) (.serror serror)
    return stack
  else .ok (vch :: stack)

section Evaluation

variable (crypto : Crypto) (checker : BaseSignatureChecker) (flags : BitVec 32)

/-- `CScriptNum(vch, fRequireMinimal, nMaxNumSize)`; the constructor throws. -/
def evalNum (vch : Bytes) (nMaxNumSize : Nat) : Evaluating Int :=
  match scriptNum vch (hasFlag flags scriptVerifyMinimaldata) nMaxNumSize with
  | .ok n => .ok n
  | .error _ => .error (.serror .unknownError)

def evalChecklocktimeverify (st : EvalState) : Evaluating EvalState :=
  if hasFlag flags scriptVerifyChecklocktimeverify then do
    let (vch, _) ← popstack .invalidStackOperation st.stack
    let nLockTime ← evalNum flags vch 5
    require (¬ nLockTime < 0) (.serror .negativeLocktime)
    require (checker.checkLockTime nLockTime = true) (.serror .unsatisfiedLocktime)
    return st
  else do
    require (hasFlag flags scriptVerifyDiscourageUpgradableNops = false)
      (.serror .discourageUpgradableNops)
    return st

def evalIf (fExec negated : Bool) (st : EvalState) : Evaluating EvalState :=
  if fExec then do
    let (vch, stack) ← popstack .unbalancedConditional st.stack
    return { st with stack, vfExec := (castToBool vch != negated) :: st.vfExec }
  else .ok { st with vfExec := false :: st.vfExec }

def evalElse (st : EvalState) : Evaluating EvalState :=
  match st.vfExec with
  | [] => .error (.serror .unbalancedConditional)
  | fValue :: vfExec => .ok { st with vfExec := (!fValue) :: vfExec }

def evalEndif (st : EvalState) : Evaluating EvalState :=
  match st.vfExec with
  | [] => .error (.serror .unbalancedConditional)
  | _ :: vfExec => .ok { st with vfExec }

def evalVerify (st : EvalState) : Evaluating EvalState := do
  let (vch, stack) ← popstack .invalidStackOperation st.stack
  require (castToBool vch = true) (.serror .verify)
  return { st with stack }

def evalToaltstack (st : EvalState) : Evaluating EvalState := do
  let (vch, stack) ← popstack .invalidStackOperation st.stack
  return { st with stack, altstack := vch :: st.altstack }

def evalFromaltstack (st : EvalState) : Evaluating EvalState := do
  let (vch, altstack) ← popstack .invalidAltstackOperation st.altstack
  return { st with stack := vch :: st.stack, altstack }

def evalStackOp (op : StackOp) (st : EvalState) : Evaluating EvalState :=
  match op.run st.stack with
  | none => .error (.serror .invalidStackOperation)
  | some stack => .ok { st with stack }

def evalPick (roll : Bool) (st : EvalState) : Evaluating EvalState := do
  require (2 ≤ st.stack.length) (.serror .invalidStackOperation)
  let (vchN, stack) ← popstack .invalidStackOperation st.stack
  let n ← getint <$> evalNum flags vchN 4
  require (¬ (n < 0 ∨ n ≥ stack.length)) (.serror .invalidStackOperation)
  let vch := stack.getD n.toNat []
  return { st with stack := vch :: if roll then stack.eraseIdx n.toNat else stack }

def evalEqual (thenVerify : Bool) (st : EvalState) : Evaluating EvalState := do
  let (vch2, stack) ← popstack .invalidStackOperation st.stack
  let (vch1, stack) ← popstack .invalidStackOperation stack
  let stack ← pushResult thenVerify .equalverify (boolVch (vch1 == vch2)) stack
  return { st with stack }

def evalUnary (op : UnaryOp) (st : EvalState) : Evaluating EvalState := do
  let (vch, stack) ← popstack .invalidStackOperation st.stack
  let bn ← evalNum flags vch 4
  return { st with stack := scriptNumSerialize (op.run bn) :: stack }

def evalBinary (op : BinaryOp) (thenVerify : Bool) (st : EvalState) : Evaluating EvalState := do
  let (vch2, stack) ← popstack .invalidStackOperation st.stack
  let (vch1, stack) ← popstack .invalidStackOperation stack
  let bn1 ← evalNum flags vch1 4
  let bn2 ← evalNum flags vch2 4
  let stack ← pushResult thenVerify .numequalverify (scriptNumSerialize (op.run bn1 bn2)) stack
  return { st with stack }

def evalWithin (st : EvalState) : Evaluating EvalState := do
  let (vch3, stack) ← popstack .invalidStackOperation st.stack
  let (vch2, stack) ← popstack .invalidStackOperation stack
  let (vch1, stack) ← popstack .invalidStackOperation stack
  let bn1 ← evalNum flags vch1 4
  let bn2 ← evalNum flags vch2 4
  let bn3 ← evalNum flags vch3 4
  return { st with stack := boolVch (decide (bn2 ≤ bn1 ∧ bn1 < bn3)) :: stack }

def evalHash (op : HashOp) (st : EvalState) : Evaluating EvalState := do
  let (vch, stack) ← popstack .invalidStackOperation st.stack
  return { st with stack := op.run crypto vch :: stack }

def evalChecksig (thenVerify : Bool) (st : EvalState) : Evaluating EvalState := do
  let (vchPubKey, stack) ← popstack .invalidStackOperation st.stack
  let (vchSig, stack) ← popstack .invalidStackOperation stack
  let scriptCode := (findAndDelete st.pbegincodehash (pushData vchSig)).2
  checkSignatureEncoding vchSig flags
  checkPubKeyEncoding vchPubKey flags
  let stack ← pushResult thenVerify .checksigverify
    (boolVch (checker.checkSig vchSig vchPubKey scriptCode)) stack
  return { st with stack }

/-- The signature loop of `OP_CHECKMULTISIG`, over the signatures and keys left. -/
def multisigLoop (scriptCode : CScript) : List Bytes → List Bytes → Evaluating Bool
  | [], _ => .ok true
  | _ :: _, [] => .ok false
  | vchSig :: sigs, vchPubKey :: keys => do
      checkSignatureEncoding vchSig flags
      checkPubKeyEncoding vchPubKey flags
      if checker.checkSig vchSig vchPubKey scriptCode then
        if sigs.length > keys.length then .ok false else multisigLoop scriptCode sigs keys
      else if sigs.length + 1 > keys.length then .ok false
      else multisigLoop scriptCode (vchSig :: sigs) keys

def evalCheckmultisig (thenVerify : Bool) (st : EvalState) : Evaluating EvalState := do
  let (vchKeysCount, stack) ← popstack .invalidStackOperation st.stack
  let nKeysCount ← getint <$> evalNum flags vchKeysCount 4
  require (¬ (nKeysCount < 0 ∨ nKeysCount > 20)) (.serror .pubkeyCount)
  let nOpCount := st.nOpCount + nKeysCount.toNat
  require (¬ nOpCount > 201) (.serror .opCount)
  let keys := stack.take nKeysCount.toNat
  let (vchSigsCount, stack) ←
    popstack .invalidStackOperation (stack.drop nKeysCount.toNat)
  let nSigsCount ← getint <$> evalNum flags vchSigsCount 4
  require (¬ (nSigsCount < 0 ∨ nSigsCount > nKeysCount)) (.serror .sigCount)
  let sigs := stack.take nSigsCount.toNat
  let (vchDummy, stack) ← popstack .invalidStackOperation (stack.drop nSigsCount.toNat)
  let scriptCode := sigs.foldl (fun scriptCode vchSig =>
    (findAndDelete scriptCode (pushData vchSig)).2) st.pbegincodehash
  let fSuccess ← multisigLoop checker flags scriptCode sigs keys
  require (hasFlag flags scriptVerifyNulldummy = true → vchDummy = []) (.serror .sigNulldummy)
  let stack ← pushResult thenVerify .checkmultisigverify (boolVch fSuccess) stack
  return { st with stack, nOpCount }

/-- The switch; `pc` is the position after the operation. -/
def evalOperation (pc : CScript) (fExec : Bool) (st : EvalState) :
    Operation → Evaluating EvalState
  | .pushNumber n => .ok { st with stack := scriptNumSerialize n :: st.stack }
  | .nop => .ok st
  | .checklocktimeverify => evalChecklocktimeverify checker flags st
  | .upgradableNop => do
      require (hasFlag flags scriptVerifyDiscourageUpgradableNops = false)
        (.serror .discourageUpgradableNops)
      return st
  | .ifOp negated => evalIf fExec negated st
  | .elseOp => evalElse st
  | .endif => evalEndif st
  | .verify => evalVerify st
  | .returnOp => .error (.serror .opReturn)
  | .toaltstack => evalToaltstack st
  | .fromaltstack => evalFromaltstack st
  | .stackOp op => evalStackOp op st
  | .pick roll => evalPick flags roll st
  | .equal thenVerify => evalEqual thenVerify st
  | .unary op => evalUnary flags op st
  | .binary op thenVerify => evalBinary flags op thenVerify st
  | .within => evalWithin flags st
  | .hash op => evalHash crypto op st
  | .codeseparator => .ok { st with pbegincodehash := pc }
  | .checksig thenVerify => evalChecksig checker flags thenVerify st
  | .checkmultisig thenVerify => evalCheckmultisig checker flags thenVerify st
  | .badOpcode => .error (.serror .badOpcode)

/-- A push, the switch, or nothing in a branch not taken. -/
def evalInstruction (op : ScriptOp) (st : EvalState) : Evaluating EvalState :=
  let fExec := st.vfExec.all id
  if fExec = true ∧ op.opcode ≤ opPushdata4 then do
    require (hasFlag flags scriptVerifyMinimaldata = true → checkMinimalPush op.vch op.opcode = true)
      (.serror .minimaldata)
    return { st with stack := op.vch :: st.stack }
  else if fExec = true ∨ (opIf ≤ op.opcode ∧ op.opcode ≤ opEndif) then
    evalOperation crypto checker flags op.rest fExec st (operationOf op.opcode)
  else .ok st

/-- The body of the loop after `GetOp`. -/
def evalStep (op : ScriptOp) (st : EvalState) : Evaluating EvalState := do
  require (¬ op.vch.length > maxScriptElementSize) (.serror .pushSize)
  let nOpCount := if op.opcode > op16 then st.nOpCount + 1 else st.nOpCount
  require (op.opcode > op16 → ¬ nOpCount > 201) (.serror .opCount)
  require (op.opcode ∉ disabledOpcodes) (.serror .disabledOpcode)
  let st ← evalInstruction crypto checker flags op { st with nOpCount }
  require (¬ st.stack.length + st.altstack.length > 1000) (.serror .stackSize)
  return st

/-- Every operation consumes at least one byte, so the length is enough fuel. -/
def evalLoop : Nat → CScript → EvalState → Evaluating EvalState
  | 0, _, st => .ok st
  | fuel + 1, pc, st =>
      if pc = [] then .ok st
      else
        match getOp pc with
        | none => .error (.serror .badOpcode)
        | some op => do
            let st ← evalStep crypto checker flags op st
            evalLoop fuel op.rest st

def evalScript (stack : List Bytes) (script : CScript) : Evaluating (List Bytes) := do
  require (¬ script.length > 10000) (.serror .scriptSize)
  let st ← evalLoop crypto checker flags script.length script ⟨stack, [], [], script, 0⟩
  require (st.vfExec = []) (.serror .unbalancedConditional)
  return st.stack

/-! ## Verification -/

/-- The loop of `IsPushOnly`. -/
def pushOnlyLoop : Nat → CScript → Bool
  | 0, _ => true
  | fuel + 1, pc =>
      if pc = [] then true
      else
        match getOp pc with
        | none => false
        | some op => if op.opcode > op16 then false else pushOnlyLoop fuel op.rest

def isPushOnly (script : CScript) : Bool := pushOnlyLoop script.length script

def checkResult : List Bytes → Evaluating Unit
  | [] => .error (.serror .evalFalse)
  | back :: _ => require (castToBool back = true) (.serror .evalFalse)

/-- The additional validation of a spend to a script hash. -/
def verifyRedeemScript (scriptSig : CScript) (stackCopy : List Bytes) :
    Evaluating (List Bytes) := do
  require (isPushOnly scriptSig = true) (.serror .sigPushonly)
  match stackCopy with
  | [] => .error .assertion
  | pubKeySerialized :: stack => do
      let stack ← evalScript crypto checker flags stack pubKeySerialized
      checkResult stack
      return stack

/-- The stack after the additional validation, where there is one. -/
def verifyScriptHash (scriptSig scriptPubKey : CScript) (stackCopy stack : List Bytes) :
    Evaluating (List Bytes) :=
  if hasFlag flags scriptVerifyP2SH && isPayToScriptHash scriptPubKey then
    verifyRedeemScript crypto checker flags scriptSig stackCopy
  else .ok stack

def checkCleanstack (stack : List Bytes) : Evaluating Unit :=
  if hasFlag flags scriptVerifyCleanstack then do
    require (hasFlag flags scriptVerifyP2SH = true) .assertion
    require (stack.length = 1) (.serror .cleanstack)
  else .ok ()

def verifyScript (scriptSig scriptPubKey : CScript) : Evaluating Unit := do
  require (hasFlag flags scriptVerifySigpushonly = true → isPushOnly scriptSig = true)
    (.serror .sigPushonly)
  let stackCopy ← evalScript crypto checker flags [] scriptSig
  let stack ← evalScript crypto checker flags stackCopy scriptPubKey
  checkResult stack
  let stack ← verifyScriptHash crypto checker flags scriptSig scriptPubKey stackCopy stack
  checkCleanstack flags stack

end Evaluation

/-! ## The checker of a transaction input -/

def locktimeThreshold : Int := 500000000

def CTxIn.isFinal (txin : CTxIn) : Bool := txin.nSequence == -1

/-- `CPubKey::GetLen` -/
def pubKeyLen (chHeader : UInt8) : Nat :=
  if chHeader = 2 ∨ chHeader = 3 then 33
  else if chHeader = 4 ∨ chHeader = 6 ∨ chHeader = 7 then 65
  else 0

/-- `CPubKey(vch).IsValid()` -/
def isValidPubKey (vch : Bytes) : Bool :=
  match vch with
  | [] => false
  | chHeader :: _ => pubKeyLen chHeader != 0 && pubKeyLen chHeader == vch.length

def signatureHash (crypto : Crypto) (scriptCode : CScript) (txTo : CTransaction) (nIn : Nat)
    (nHashType : BitVec 32) : Uint256 :=
  match signatureMessage scriptCode txTo nIn nHashType with
  | .ok message => BitVec.ofNat 256 (readLE (crypto.hash256 message))
  | .error one => one

def txCheckSig (crypto : Crypto) (txTo : CTransaction) (nIn : Nat) (vchSigIn vchPubKey : Bytes)
    (scriptCode : CScript) : Bool :=
  if !isValidPubKey vchPubKey then false
  else
    match vchSigIn.getLast? with
    | none => false
    | some back =>
        crypto.verify vchPubKey
          (signatureHash crypto scriptCode txTo nIn (BitVec.ofNat 32 back.toNat))
          vchSigIn.dropLast

/-- `nIn` is the index of an input. -/
def txCheckLockTime (txTo : CTransaction) (nIn : Nat) (nLockTime : Int) : Bool :=
  let txLockTime : Int := txTo.nLockTime.toNat
  if ¬ ((txLockTime < locktimeThreshold ∧ nLockTime < locktimeThreshold) ∨
      (txLockTime ≥ locktimeThreshold ∧ nLockTime ≥ locktimeThreshold)) then false
  else if nLockTime > txLockTime then false
  else
    match txTo.vin[nIn]? with
    | none => false
    | some txin => !txin.isFinal

/-- `TransactionSignatureChecker` -/
def transactionSignatureChecker (crypto : Crypto) (txTo : CTransaction) (nIn : Nat) :
    BaseSignatureChecker where
  checkSig := txCheckSig crypto txTo nIn
  checkLockTime := txCheckLockTime txTo nIn

end RoiCoin
