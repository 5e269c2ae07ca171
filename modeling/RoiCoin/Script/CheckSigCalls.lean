import RoiCoin.Lib.Logged
import RoiCoin.Script.Pushes

/-! The calls of `CheckSig` that an evaluation makes, and the static count that bounds them. -/

namespace RoiCoin

open Checked Logged

structure CheckSigCall where
  scriptSig : Bytes
  vchPubKey : Bytes
  scriptCode : CScript
  deriving DecidableEq, Repr

/-- An evaluation with the calls it makes of the checker, in order. -/
abbrev Calling (α : Type) := Logged ScriptFailure CheckSigCall α

namespace Calling

/-! ## The evaluation with its calls -/

section Evaluation

variable (crypto : Crypto) (checker : BaseSignatureChecker) (flags : BitVec 32)

def checkSig (scriptSig vchPubKey : Bytes) (scriptCode : CScript) : Calling Bool :=
  emit ⟨scriptSig, vchPubKey, scriptCode⟩ (.ok (checker.checkSig scriptSig vchPubKey scriptCode))

def evalChecksig (thenVerify : Bool) (st : EvalState) : Calling EvalState := do
  let (vchPubKey, stack) ← silent (popstack .invalidStackOperation st.stack)
  let (vchSig, stack) ← silent (popstack .invalidStackOperation stack)
  let scriptCode := (findAndDelete st.pbegincodehash (pushData vchSig)).2
  silent (checkSignatureEncoding vchSig flags)
  silent (checkPubKeyEncoding vchPubKey flags)
  let fSuccess ← checkSig checker vchSig vchPubKey scriptCode
  let stack ← silent (pushResult thenVerify .checksigverify (boolVch fSuccess) stack)
  return { st with stack }

def multisigLoop (scriptCode : CScript) : List Bytes → List Bytes → Calling Bool
  | [], _ => pure true
  | _ :: _, [] => pure false
  | vchSig :: sigs, vchPubKey :: keys => do
      silent (checkSignatureEncoding vchSig flags)
      silent (checkPubKeyEncoding vchPubKey flags)
      let fOk ← checkSig checker vchSig vchPubKey scriptCode
      if fOk then
        if sigs.length > keys.length then pure false else multisigLoop scriptCode sigs keys
      else if sigs.length + 1 > keys.length then pure false
      else multisigLoop scriptCode (vchSig :: sigs) keys

def evalCheckmultisig (thenVerify : Bool) (st : EvalState) : Calling EvalState := do
  let (vchKeysCount, stack) ← silent (popstack .invalidStackOperation st.stack)
  let nKeysCount ← silent (getint <$> evalNum flags vchKeysCount 4)
  silent (require (¬ (nKeysCount < 0 ∨ nKeysCount > 20)) (.serror .pubkeyCount))
  let nOpCount := st.nOpCount + nKeysCount.toNat
  silent (require (¬ nOpCount > 201) (.serror .opCount))
  let keys := stack.take nKeysCount.toNat
  let (vchSigsCount, stack) ←
    silent (popstack .invalidStackOperation (stack.drop nKeysCount.toNat))
  let nSigsCount ← silent (getint <$> evalNum flags vchSigsCount 4)
  silent (require (¬ (nSigsCount < 0 ∨ nSigsCount > nKeysCount)) (.serror .sigCount))
  let sigs := stack.take nSigsCount.toNat
  let (vchDummy, stack) ←
    silent (popstack .invalidStackOperation (stack.drop nSigsCount.toNat))
  let scriptCode := sigs.foldl (fun scriptCode vchSig =>
    (findAndDelete scriptCode (pushData vchSig)).2) st.pbegincodehash
  let fSuccess ← multisigLoop checker flags scriptCode sigs keys
  silent (require (hasFlag flags scriptVerifyNulldummy = true → vchDummy = [])
    (.serror .sigNulldummy))
  let stack ← silent (pushResult thenVerify .checkmultisigverify (boolVch fSuccess) stack)
  return { st with stack, nOpCount }

def evalOperation (pc : CScript) (fExec : Bool) (st : EvalState) : Operation → Calling EvalState
  | .checksig thenVerify => evalChecksig checker flags thenVerify st
  | .checkmultisig thenVerify => evalCheckmultisig checker flags thenVerify st
  | op => silent (RoiCoin.evalOperation crypto checker flags pc fExec st op)

def evalInstruction (op : ScriptOp) (st : EvalState) : Calling EvalState :=
  let fExec := st.vfExec.all id
  if fExec = true ∧ op.opcode ≤ opPushdata4 then do
    silent (require (hasFlag flags scriptVerifyMinimaldata = true →
      checkMinimalPush op.vch op.opcode = true) (.serror .minimaldata))
    return { st with stack := op.vch :: st.stack }
  else if fExec = true ∨ (opIf ≤ op.opcode ∧ op.opcode ≤ opEndif) then
    evalOperation crypto checker flags op.rest fExec st (operationOf op.opcode)
  else pure st

def evalStep (op : ScriptOp) (st : EvalState) : Calling EvalState := do
  silent (require (¬ op.vch.length > maxScriptElementSize) (.serror .pushSize))
  let nOpCount := if op.opcode > op16 then st.nOpCount + 1 else st.nOpCount
  silent (require (op.opcode > op16 → ¬ nOpCount > 201) (.serror .opCount))
  silent (require (op.opcode ∉ disabledOpcodes) (.serror .disabledOpcode))
  let st ← evalInstruction crypto checker flags op { st with nOpCount }
  silent (require (¬ st.stack.length + st.altstack.length > 1000) (.serror .stackSize))
  return st

def evalLoop : Nat → CScript → EvalState → Calling EvalState
  | 0, _, st => pure st
  | fuel + 1, pc, st =>
      if pc = [] then pure st
      else
        match getOp pc with
        | none => silent (.error (.serror .badOpcode))
        | some op => do
            let st ← evalStep crypto checker flags op st
            evalLoop fuel op.rest st

def evalScript (stack : List Bytes) (script : CScript) : Calling (List Bytes) := do
  silent (require (¬ script.length > 10000) (.serror .scriptSize))
  let st ← evalLoop crypto checker flags script.length script ⟨stack, [], [], script, 0⟩
  silent (require (st.vfExec = []) (.serror .unbalancedConditional))
  return st.stack

/-! ## It is the evaluation -/

theorem evalChecksig_result (thenVerify : Bool) (st : EvalState) :
    (evalChecksig checker flags thenVerify st).result =
      RoiCoin.evalChecksig checker flags thenVerify st := by
  simp only [evalChecksig, RoiCoin.evalChecksig, checkSig, result_bind, result_silent, result_emit,
    ok_then]
  rfl

theorem multisigLoop_result (scriptCode : CScript) (sigs keys : List Bytes) :
    (multisigLoop checker flags scriptCode sigs keys).result =
      RoiCoin.multisigLoop checker flags scriptCode sigs keys := by
  induction keys generalizing sigs with
  | nil => cases sigs <;> rfl
  | cons vchPubKey keys ih =>
      cases sigs with
      | nil => rfl
      | cons vchSig sigs =>
          simp only [multisigLoop, RoiCoin.multisigLoop, checkSig, result_bind, result_silent,
            result_emit, ok_then, apply_ite Logged.result, ih]
          rfl

theorem evalCheckmultisig_result (thenVerify : Bool) (st : EvalState) :
    (evalCheckmultisig checker flags thenVerify st).result =
      RoiCoin.evalCheckmultisig checker flags thenVerify st := by
  simp only [evalCheckmultisig, RoiCoin.evalCheckmultisig, result_bind, result_silent,
    multisigLoop_result]
  rfl

theorem evalOperation_result (pc : CScript) (fExec : Bool) (st : EvalState) (op : Operation) :
    (evalOperation crypto checker flags pc fExec st op).result =
      RoiCoin.evalOperation crypto checker flags pc fExec st op := by
  cases op with
  | checksig thenVerify => exact evalChecksig_result checker flags thenVerify st
  | checkmultisig thenVerify => exact evalCheckmultisig_result checker flags thenVerify st
  | _ => rfl

theorem evalStep_result (op : ScriptOp) (st : EvalState) :
    (evalStep crypto checker flags op st).result =
      RoiCoin.evalStep crypto checker flags op st := by
  have instruction : ∀ middle, (evalInstruction crypto checker flags op middle).result =
      RoiCoin.evalInstruction crypto checker flags op middle := by
    intro middle
    rw [evalInstruction, RoiCoin.evalInstruction]
    simp only [apply_ite Logged.result, result_bind, result_silent, evalOperation_result]
    rfl
  simp only [evalStep, RoiCoin.evalStep, result_bind, result_silent, instruction]
  rfl

theorem evalLoop_result (fuel : Nat) (pc : CScript) (st : EvalState) :
    (evalLoop crypto checker flags fuel pc st).result =
      RoiCoin.evalLoop crypto checker flags fuel pc st := by
  induction fuel generalizing pc st with
  | zero => rfl
  | succ fuel ih =>
      rw [evalLoop, RoiCoin.evalLoop]
      split
      · rfl
      · cases getOp pc with
        | none => rfl
        | some op => simp only [result_bind, evalStep_result, ih]

/-- Without its calls it is `EvalScript`. -/
theorem evalScript_result (stack : List Bytes) (script : CScript) :
    (evalScript crypto checker flags stack script).result =
      RoiCoin.evalScript crypto checker flags stack script := by
  simp only [evalScript, RoiCoin.evalScript, result_bind, result_silent, evalLoop_result]
  rfl

end Evaluation

/-! ## The static count -/

/-- What one operation adds to the count. -/
def opcodeSigOps (fAccurate : Bool) (lastOpcode opcode : UInt8) : Nat :=
  if opcode = opChecksig ∨ opcode = opChecksigverify then 1
  else if opcode = opCheckmultisig ∨ opcode = opCheckmultisigverify then
    if fAccurate ∧ lastOpcode ≥ op1 ∧ lastOpcode ≤ op16 then
      lastOpcode.toNat - (op1.toNat - 1)
    else 20
  else 0

theorem sigOpLoop_some (fAccurate : Bool) (fuel : Nat) (lastOpcode : UInt8) (pc : CScript)
    (op : ScriptOp) (parsed : getOp pc = some op) :
    sigOpLoop fAccurate (fuel + 1) lastOpcode pc =
      opcodeSigOps fAccurate lastOpcode op.opcode + sigOpLoop fAccurate fuel op.opcode op.rest := by
  rw [sigOpLoop, parsed]
  rfl

theorem number_opcode (opcode : UInt8) (least : op1 ≤ opcode) (most : opcode ≤ op16) :
    81 ≤ opcode.toNat ∧ opcode.toNat ≤ 96 := by
  rw [UInt8.le_iff_toNat_le] at least most
  exact ⟨least, most⟩

theorem opcodeSigOps_accurate (lastOpcode opcode : UInt8) :
    opcodeSigOps true lastOpcode opcode ≤ opcodeSigOps false lastOpcode opcode := by
  rw [opcodeSigOps, opcodeSigOps]
  split
  · exact Nat.le_refl _
  · split
    · split
      · rename_i number
        have range := number_opcode lastOpcode number.2.1 number.2.2
        have base : op1.toNat = 81 := rfl
        simp only [Bool.false_eq_true, false_and, if_false]
        omega
      · simp
    · exact Nat.le_refl _

theorem opcodeSigOps_le (lastOpcode opcode : UInt8) : opcodeSigOps false lastOpcode opcode ≤ 20 := by
  rw [opcodeSigOps]
  split
  · decide
  · split <;> simp

/-- The accurate count is at most the other. -/
theorem sigOpLoop_accurate (fuel : Nat) (lastOpcode : UInt8) (pc : CScript) :
    sigOpLoop true fuel lastOpcode pc ≤ sigOpLoop false fuel lastOpcode pc := by
  induction fuel generalizing lastOpcode pc with
  | zero => exact Nat.le_refl _
  | succ fuel ih =>
      cases parsed : getOp pc with
      | none => simp [sigOpLoop, parsed]
      | some op =>
          rw [sigOpLoop_some _ _ _ _ op parsed, sigOpLoop_some _ _ _ _ op parsed]
          exact Nat.add_le_add (opcodeSigOps_accurate _ _) (ih op.opcode op.rest)

theorem sigOpLoop_le (fuel : Nat) (lastOpcode : UInt8) (pc : CScript) :
    sigOpLoop false fuel lastOpcode pc ≤ 20 * fuel := by
  induction fuel generalizing lastOpcode pc with
  | zero => exact Nat.le_refl _
  | succ fuel ih =>
      cases parsed : getOp pc with
      | none => simp [sigOpLoop, parsed]
      | some op =>
          have own := opcodeSigOps_le lastOpcode op.opcode
          have rest := ih op.opcode op.rest
          rw [sigOpLoop_some _ _ _ _ op parsed]
          omega

/-! ## The calls of one operation -/

section Evaluation

variable (crypto : Crypto) (checker : BaseSignatureChecker) (flags : BitVec 32)

theorem evalChecksig_within (thenVerify : Bool) (st : EvalState) :
    (evalChecksig checker flags thenVerify st).Within 1 := by
  apply within_silent_bind
  intro first _
  apply within_silent_bind
  intro second _
  apply within_silent_bind
  intro _ _
  apply within_silent_bind
  intro _ _
  show Logged.Within (1 + 0) _
  apply within_bind _ _ (within_emit _ _)
  intro fSuccess _
  apply within_silent_bind
  exact fun _ _ => within_pure 0 _

/-- A call for each key at most. -/
theorem multisigLoop_within (scriptCode : CScript) (sigs keys : List Bytes) :
    (multisigLoop checker flags scriptCode sigs keys).Within keys.length := by
  induction keys generalizing sigs with
  | nil => cases sigs <;> exact within_pure _ _
  | cons vchPubKey keys ih =>
      cases sigs with
      | nil => exact within_pure _ _
      | cons vchSig sigs =>
          rw [multisigLoop, List.length_cons, Nat.add_comm]
          apply within_silent_bind
          intro _ _
          apply within_silent_bind
          intro _ _
          apply within_bind _ _ (within_emit _ _)
          intro fOk _
          cases fOk with
          | true =>
              rw [if_pos rfl]
              split
              · exact within_pure _ _
              · exact ih sigs
          | false =>
              rw [if_neg Bool.false_ne_true]
              split
              · exact within_pure _ _
              · exact ih (vchSig :: sigs)

/-- The number of keys is read from the top of the stack. -/
theorem evalCheckmultisig_within (thenVerify : Bool) (st : EvalState) (limit : Nat)
    (counted : ∀ vch stack n, st.stack = vch :: stack → evalNum flags vch 4 = .ok n →
      ¬ (getint n < 0 ∨ getint n > 20) → (getint n).toNat ≤ limit) :
    (evalCheckmultisig checker flags thenVerify st).Within limit := by
  apply within_silent_bind
  intro (vchKeysCount, stack) popped
  apply within_silent_bind
  intro nKeysCount read
  apply within_silent_bind
  intro _ few
  rw [map_ok] at read
  rw [require_ok] at few
  obtain ⟨n, number, rfl⟩ := read
  have keys_count := counted vchKeysCount stack n ((popstack_ok _ _ _ _).mp popped) number few
  apply within_silent_bind
  intro _ _
  apply within_silent_bind
  intro (vchSigsCount, below) _
  apply within_silent_bind
  intro nSigsCount _
  apply within_silent_bind
  intro _ _
  apply within_silent_bind
  intro (vchDummy, last) _
  have keys_length : (stack.take (getint n).toNat).length ≤ limit :=
    Nat.le_trans (List.length_take_le _ _) keys_count
  apply within_more (Nat.add_le_add_right keys_length 0)
  apply within_bind _ _ (multisigLoop_within checker flags _ _ _)
  intro fSuccess _
  apply within_silent_bind
  intro _ _
  apply within_silent_bind
  exact fun _ _ => within_pure 0 _

/-! ## The number on top of the stack -/

theorem evalNum_value (vch : Bytes) (nMaxNumSize : Nat) (n : Int)
    (read : evalNum flags vch nMaxNumSize = .ok n) : n = setVch vch := by
  rw [evalNum, scriptNum] at read
  by_cases long : vch.length > nMaxNumSize
  · rw [if_pos long] at read
    cases read
  · rw [if_neg long] at read
    split at read
    · rename_i found
      split at found
      · cases found
      · cases found
        cases read
        rfl
    · cases read

/-- In a branch that is taken, the number the last operation pushed is on top of the stack. -/
def NumberOnTop (lastOpcode : UInt8) (st : EvalState) : Prop :=
  op1 ≤ lastOpcode → lastOpcode ≤ op16 → st.vfExec.all id = true →
    st.stack.head? = some (scriptNumSerialize ((lastOpcode.toNat - 80 : Nat) : Int))

theorem operationOf_number (opcode : UInt8) (least : op1 ≤ opcode) (most : opcode ≤ op16) :
    operationOf opcode = .pushNumber ((opcode.toNat - 80 : Nat) : Int) := by
  have range := number_opcode opcode least most
  unfold operationOf
  rw [if_pos (.inr ⟨least, most⟩)]
  congr 1
  omega

theorem evalInstruction_number (op : ScriptOp) (st st' : EvalState)
    (returned : RoiCoin.evalInstruction crypto checker flags op st = .ok st') :
    NumberOnTop op.opcode st' := by
  intro least most taken
  have range := number_opcode op.opcode least most
  have number : ¬ op.opcode ≤ opPushdata4 := by
    have last : opPushdata4.toNat = 78 := rfl
    rw [UInt8.le_iff_toNat_le]
    omega
  have plain : ¬ (opIf ≤ op.opcode ∧ op.opcode ≤ opEndif) := by
    have first : opIf.toNat = 99 := rfl
    rw [UInt8.le_iff_toNat_le]
    omega
  rw [RoiCoin.evalInstruction, if_neg (fun both => number both.2)] at returned
  by_cases fExec : st.vfExec.all id = true
  · rw [if_pos (.inl fExec), operationOf_number op.opcode least most] at returned
    cases returned
    rfl
  · -- a branch that is not taken ends only with the operation that closes it
    rw [if_neg (fun either => either.elim fExec plain)] at returned
    cases returned
    exact absurd taken fExec

theorem evalStep_number (op : ScriptOp) (st st' : EvalState)
    (stepped : RoiCoin.evalStep crypto checker flags op st = .ok st') :
    NumberOnTop op.opcode st' := by
  simp only [RoiCoin.evalStep, bind_ok, pure_ok] at stepped
  obtain ⟨_, -, _, -, _, -, middle, instruction, _, -, rfl⟩ := stepped
  exact evalInstruction_number crypto checker flags op _ middle instruction

/-! ## The count bounds the calls -/

/-- An operation that checks signatures has an opcode that is counted. -/
def countedOpcode (opcode : UInt8) : Operation → Bool
  | .checksig _ => opcode == opChecksig || opcode == opChecksigverify
  | .checkmultisig _ => opcode == opCheckmultisig || opcode == opCheckmultisigverify
  | _ => true

theorem operationOf_counted (opcode : UInt8) : countedOpcode opcode (operationOf opcode) = true := by
  unfold operationOf
  split
  · rfl
  · split
    · rfl
    · split <;> rfl

theorem operationOf_checksig (opcode : UInt8) (thenVerify : Bool)
    (operation : operationOf opcode = .checksig thenVerify) :
    opcode = opChecksig ∨ opcode = opChecksigverify := by
  have counted := operationOf_counted opcode
  rw [operation] at counted
  simpa [countedOpcode] using counted

theorem operationOf_checkmultisig (opcode : UInt8) (thenVerify : Bool)
    (operation : operationOf opcode = .checkmultisig thenVerify) :
    opcode = opCheckmultisig ∨ opcode = opCheckmultisigverify := by
  have counted := operationOf_counted opcode
  rw [operation] at counted
  simpa [countedOpcode] using counted

theorem checkmultisig_count (lastOpcode opcode : UInt8)
    (multisig : opcode = opCheckmultisig ∨ opcode = opCheckmultisigverify) :
    opcodeSigOps true lastOpcode opcode =
      if op1 ≤ lastOpcode ∧ lastOpcode ≤ op16 then lastOpcode.toNat - 80 else 20 := by
  have single : ¬ (opcode = opChecksig ∨ opcode = opChecksigverify) := by
    rcases multisig with rfl | rfl <;> decide
  have base : op1.toNat - 1 = 80 := rfl
  rw [opcodeSigOps, if_neg single, if_pos multisig, base]
  simp

/-- An executed `OP_CHECKMULTISIG` has as many keys as the number before it says, or 20. -/
theorem checkmultisig_calls (thenVerify : Bool) (st : EvalState) (lastOpcode opcode : UInt8)
    (multisig : opcode = opCheckmultisig ∨ opcode = opCheckmultisigverify)
    (top : NumberOnTop lastOpcode st) (taken : st.vfExec.all id = true) :
    (evalCheckmultisig checker flags thenVerify st).Within
      (opcodeSigOps true lastOpcode opcode) := by
  rw [checkmultisig_count lastOpcode opcode multisig]
  apply evalCheckmultisig_within
  intro vch stack n pushed read few
  split
  · rename_i number
    have found := top number.1 number.2 taken
    rw [pushed, List.head?_cons, Option.some.injEq] at found
    have value := evalNum_value flags vch 4 n read
    rw [found, setVch_serialize] at value
    have range := number_opcode lastOpcode number.1 number.2
    have exact_value : getint n = n := by
      rw [getint]
      split <;> omega
    omega
  · omega

theorem evalOperation_within (pc : CScript) (st : EvalState) (lastOpcode opcode : UInt8)
    (top : NumberOnTop lastOpcode st) (taken : st.vfExec.all id = true) :
    (evalOperation crypto checker flags pc true st (operationOf opcode)).Within
      (opcodeSigOps true lastOpcode opcode) := by
  cases operation : operationOf opcode with
  | checksig thenVerify =>
      have count : opcodeSigOps true lastOpcode opcode = 1 :=
        if_pos (operationOf_checksig opcode thenVerify operation)
      rw [count]
      exact evalChecksig_within checker flags thenVerify st
  | checkmultisig thenVerify =>
      have multisig := operationOf_checkmultisig opcode thenVerify operation
      exact checkmultisig_calls checker flags thenVerify st lastOpcode opcode multisig top taken
  | _ => exact within_silent _ _

theorem evalInstruction_within (op : ScriptOp) (st : EvalState) (lastOpcode : UInt8)
    (top : NumberOnTop lastOpcode st) :
    (evalInstruction crypto checker flags op st).Within
      (opcodeSigOps true lastOpcode op.opcode) := by
  rw [evalInstruction]
  split
  · apply within_silent_bind
    exact fun _ _ => within_pure _ _
  · split
    · rename_i reached
      by_cases taken : st.vfExec.all id = true
      · rw [taken]
        exact evalOperation_within crypto checker flags op.rest st lastOpcode op.opcode top taken
      · -- only the conditional operations are looked at, and they check no signature
        have conditional := reached.resolve_left taken
        cases operation : operationOf op.opcode with
        | checksig thenVerify =>
            rcases operationOf_checksig op.opcode thenVerify operation with same | same <;>
              exact absurd (same ▸ conditional) (by decide)
        | checkmultisig thenVerify =>
            rcases operationOf_checkmultisig op.opcode thenVerify operation with same | same <;>
              exact absurd (same ▸ conditional) (by decide)
        | _ => exact within_silent _ _
    · exact within_pure _ _

theorem evalStep_within (op : ScriptOp) (st : EvalState) (lastOpcode : UInt8)
    (top : NumberOnTop lastOpcode st) :
    (evalStep crypto checker flags op st).Within (opcodeSigOps true lastOpcode op.opcode) := by
  have instruction : ∀ nOpCount, (evalInstruction crypto checker flags op
      { st with nOpCount }).Within (opcodeSigOps true lastOpcode op.opcode) :=
    fun nOpCount =>
      evalInstruction_within crypto checker flags op { st with nOpCount } lastOpcode top
  apply within_silent_bind
  intro _ _
  apply within_silent_bind
  intro _ _
  apply within_silent_bind
  intro _ _
  apply within_more (Nat.le_of_eq (Nat.add_zero _))
  apply within_bind _ _ (instruction _)
  intro _ _
  apply within_silent_bind
  exact fun _ _ => within_pure 0 _

/-- The induction is on the operations left; what the last one pushed is on top of the stack. -/
theorem evalLoop_within (fuel : Nat) (pc : CScript) (st : EvalState) (lastOpcode : UInt8)
    (top : NumberOnTop lastOpcode st) :
    (evalLoop crypto checker flags fuel pc st).Within (sigOpLoop true fuel lastOpcode pc) := by
  induction fuel generalizing pc st lastOpcode with
  | zero => exact within_pure _ _
  | succ fuel ih =>
      rw [evalLoop]
      split
      · exact within_pure _ _
      · cases parsed : getOp pc with
        | none => exact within_silent _ _
        | some op =>
            rw [sigOpLoop_some _ _ _ _ op parsed]
            apply within_bind _ _ (evalStep_within crypto checker flags op st lastOpcode top)
            intro st' stepped
            rw [evalStep_result] at stepped
            exact ih op.rest st' op.opcode (evalStep_number crypto checker flags op st st' stepped)

theorem evalScript_within (stack : List Bytes) (script : CScript) :
    (evalScript crypto checker flags stack script).Within (getSigOpCount true script) := by
  have nothing : NumberOnTop opInvalidopcode ⟨stack, [], [], script, 0⟩ :=
    fun _ most => absurd most (by decide)
  apply within_silent_bind
  intro _ _
  apply within_more (Nat.le_of_eq (Nat.add_zero _))
  apply within_bind _ _ (evalLoop_within crypto checker flags script.length script _ _ nothing)
  intro _ _
  apply within_silent_bind
  exact fun _ _ => within_pure 0 _

end Evaluation

end Calling

end RoiCoin
