import Mathlib.Data.Nat.Digits.Defs
import Mathlib.Tactic.NormNum

/-! Serialized scripts (`script/script.h`, `script/script.cpp`): opcodes, `GetOp`, script
numbers, signature-operation counts and the term-deposit recogniser.

A position in a script is the list of bytes from it to the end. -/

namespace RoiCoin

abbrev Bytes := List UInt8
abbrev CScript := List UInt8

/-- How a script function can fail other than by returning a value. -/
inductive ScriptFault where
  | outOfBounds
  | scriptnumError (what : String)
  deriving DecidableEq, Repr

abbrev opPushdata1 : UInt8 := 0x4c
abbrev opPushdata2 : UInt8 := 0x4d
abbrev opPushdata4 : UInt8 := 0x4e
abbrev op0 : UInt8 := 0x00
abbrev op1 : UInt8 := 0x51
abbrev op16 : UInt8 := 0x60
abbrev opReturn : UInt8 := 0x6a
abbrev opDrop : UInt8 := 0x75
abbrev opDup : UInt8 := 0x76
abbrev opEqual : UInt8 := 0x87
abbrev opEqualverify : UInt8 := 0x88
abbrev opHash160 : UInt8 := 0xa9
abbrev opChecksig : UInt8 := 0xac
abbrev opChecksigverify : UInt8 := 0xad
abbrev opCheckmultisig : UInt8 := 0xae
abbrev opCheckmultisigverify : UInt8 := 0xaf
abbrev opChecklocktimeverify : UInt8 := 0xb1
abbrev opSmalldata : UInt8 := 0xf9
abbrev opSmallinteger : UInt8 := 0xfa
abbrev opPubkeys : UInt8 := 0xfb
abbrev opLocktimeinteger : UInt8 := 0xfc
abbrev opPubkeyhash : UInt8 := 0xfd
abbrev opPubkey : UInt8 := 0xfe
abbrev opInvalidopcode : UInt8 := 0xff

/-- Little-endian value of a byte string (`ReadLE16`, `ReadLE32`, the loop of `set_vch`). -/
def readLE (bytes : Bytes) : Nat := Nat.ofDigits 256 (bytes.map UInt8.toNat)

/-- One parsed operation: opcode, pushed data and the position after it. -/
structure ScriptOp where
  opcode : UInt8
  vch : Bytes
  rest : CScript
  deriving DecidableEq, Repr

/-- The data part of a push of `nSize` bytes. -/
def takePush (opcode : UInt8) (nSize : Nat) (pc : CScript) : Option ScriptOp :=
  if pc.length < nSize then none else some ⟨opcode, pc.take nSize, pc.drop nSize⟩

/-- Bytes of the length field after `OP_PUSHDATA1`, `OP_PUSHDATA2` and `OP_PUSHDATA4`. -/
def lengthWidth (opcode : UInt8) : Nat :=
  if opcode = opPushdata1 then 1 else if opcode = opPushdata2 then 2 else 4

/-- `GetOp2`; on `none` the caller sees `OP_INVALIDOPCODE` and empty data. -/
def getOp : CScript → Option ScriptOp
  | [] => none
  | opcode :: pc =>
      if opcode ≤ opPushdata4 then
        if opcode < opPushdata1 then takePush opcode opcode.toNat pc
        else if pc.length < lengthWidth opcode then none
        else takePush opcode (readLE (pc.take (lengthWidth opcode))) (pc.drop (lengthWidth opcode))
      else some ⟨opcode, [], pc⟩

/-- The minimality test of the `CScriptNum` constructor. -/
def minimallyEncoded (vch : Bytes) : Bool :=
  match vch.reverse with
  | [] => true
  | [back] => back &&& 0x7f != 0
  | back :: second :: _ => back &&& 0x7f != 0 || second &&& 0x80 != 0

def setVch (vch : Bytes) : Int :=
  match vch.getLast? with
  | none => 0
  | some back =>
      if back &&& 0x80 != 0 then -((readLE vch : Int) - 0x80 * 2 ^ (8 * (vch.length - 1)))
      else readLE vch

def scriptNum (vch : Bytes) (fRequireMinimal : Bool) (nMaxNumSize : Nat) : Except ScriptFault Int :=
  if vch.length > nMaxNumSize then .error (.scriptnumError "script number overflow")
  else if fRequireMinimal && !minimallyEncoded vch then
    .error (.scriptnumError "non-minimally encoded script number")
  else .ok (setVch vch)

def getint (m_value : Int) : Int :=
  if m_value > 2 ^ 31 - 1 then 2 ^ 31 - 1 else if m_value < -2 ^ 31 then -2 ^ 31 else m_value

/-- Unchecked `operator[]`. -/
def byteAt (script : CScript) (i : Nat) : Except ScriptFault UInt8 :=
  match script[i]? with
  | some byte => .ok byte
  | none => .error .outOfBounds

/-- A `||` chain of byte comparisons: stops at the first difference. -/
def bytesMatch (script : CScript) : List (Nat × UInt8) → Except ScriptFault Bool
  | [] => .ok true
  | (i, expected) :: tests =>
      match byteAt script i with
      | .error fault => .error fault
      | .ok byte => if byte = expected then bytesMatch script tests else .ok false

def isPayToScriptHash (script : CScript) : Bool :=
  script.length == 23 && script[0]? == some opHash160 && script[1]? == some 0x14 &&
    script[22]? == some opEqual

def isUnspendable (script : CScript) : Bool := script.head? == some opReturn

/-- The byte tests of the recogniser; `skipsize` is the length byte of the first push. -/
def termDepositTests (skipsize : Nat) : List (Nat × UInt8) :=
  [(skipsize + 1, opChecklocktimeverify), (skipsize + 2, opDrop), (skipsize + 3, opDup),
    (skipsize + 4, opHash160), (skipsize + 26, opEqualverify), (skipsize + 27, opChecksig)]

def getTermDepositReleaseBlock (script : CScript) : Except ScriptFault Int :=
  if script.length < 29 ∨ script.length > 32 then .ok (-1)
  else
    match byteAt script 0 with
    | .error fault => .error fault
    | .ok first =>
        if first > 4 ∨ first = 0 then .ok (-1)
        else
          match bytesMatch script (termDepositTests first.toNat) with
          | .error fault => .error fault
          | .ok false => .ok (-1)
          | .ok true =>
              let vch1 := ((getOp script).map ScriptOp.vch).getD []
              (scriptNum vch1 true 5).map getint

/-- `GetSigOpCount(fAccurate)`: the loop stops at the first operation that does not parse. -/
def sigOpLoop (fAccurate : Bool) : Nat → UInt8 → CScript → Nat
  | 0, _, _ => 0
  | fuel + 1, lastOpcode, pc =>
      match getOp pc with
      | none => 0
      | some op =>
          let n :=
            if op.opcode = opChecksig ∨ op.opcode = opChecksigverify then 1
            else if op.opcode = opCheckmultisig ∨ op.opcode = opCheckmultisigverify then
              if fAccurate ∧ lastOpcode ≥ op1 ∧ lastOpcode ≤ op16 then
                lastOpcode.toNat - (op1.toNat - 1)
              else 20
            else 0
          n + sigOpLoop fAccurate fuel op.opcode op.rest

/-- Every operation consumes at least one byte, so the length is enough fuel. -/
def getSigOpCount (fAccurate : Bool) (script : CScript) : Nat :=
  sigOpLoop fAccurate script.length opInvalidopcode script

/-- The last data pushed by a push-only `scriptSig`; `none` stops the count at zero. -/
def lastPush : Nat → CScript → Bytes → Option Bytes
  | 0, _, data => some data
  | fuel + 1, pc, data =>
      if pc = [] then some data
      else
        match getOp pc with
        | none => none
        | some op => if op.opcode > op16 then none else lastPush fuel op.rest op.vch

/-- `GetSigOpCount(scriptSig)`: counts the redeem script of a pay-to-script-hash output. -/
def getP2SHScriptSigOpCount (scriptPubKey scriptSig : CScript) : Nat :=
  if !isPayToScriptHash scriptPubKey then getSigOpCount true scriptPubKey
  else
    match lastPush scriptSig.length scriptSig [] with
    | none => 0
    | some data => getSigOpCount true data

/-! ## Parsing lemmas -/

theorem takePush_some (opcode : UInt8) (nSize : Nat) (pc : CScript) (op : ScriptOp) :
    takePush opcode nSize pc = some op ↔
      nSize ≤ pc.length ∧ op = ⟨opcode, pc.take nSize, pc.drop nSize⟩ := by
  simp only [takePush]
  split
  · rename_i short
    simp only [reduceCtorEq, false_iff, not_and]
    intro enough
    omega
  · rename_i enough
    simp only [Option.some.injEq]
    exact ⟨fun same => ⟨by omega, same.symm⟩, fun both => both.2.symm⟩

/-- A direct push of fewer than 76 bytes. -/
theorem getOp_direct (opcode : UInt8) (pc : CScript) (direct : opcode < opPushdata1) :
    getOp (opcode :: pc) = takePush opcode opcode.toNat pc := by
  have push : opcode ≤ opPushdata4 := by
    rw [UInt8.le_iff_toNat_le]
    rw [UInt8.lt_iff_toNat_lt] at direct
    exact le_trans (le_of_lt direct) (by decide)
  rw [getOp, if_pos push, if_pos direct]

theorem getOp_plain (opcode : UInt8) (pc : CScript) (plain : opPushdata4 < opcode) :
    getOp (opcode :: pc) = some ⟨opcode, [], pc⟩ := by
  rw [getOp, if_neg (by rwa [UInt8.not_le])]

theorem getOp_length (opcode : UInt8) (pc : CScript) (push : opcode ≤ opPushdata4)
    (long : ¬ opcode < opPushdata1) (enough : lengthWidth opcode ≤ pc.length) :
    getOp (opcode :: pc) = takePush opcode (readLE (pc.take (lengthWidth opcode)))
      (pc.drop (lengthWidth opcode)) := by
  rw [getOp, if_pos push, if_neg long, if_neg (by omega)]

theorem takePush_consumes (opcode : UInt8) (nSize : Nat) (pc : CScript) (op : ScriptOp)
    (parsed : takePush opcode nSize pc = some op) : op.rest.length ≤ pc.length := by
  obtain ⟨-, rfl⟩ := (takePush_some opcode nSize pc op).mp parsed
  simp

theorem getOp_consumes (script : CScript) (op : ScriptOp) (parsed : getOp script = some op) :
    op.rest.length < script.length := by
  cases script with
  | nil => cases parsed
  | cons opcode pc =>
      rw [List.length_cons, Nat.lt_succ_iff]
      rw [getOp] at parsed
      by_cases push : opcode ≤ opPushdata4
      · rw [if_pos push] at parsed
        by_cases direct : opcode < opPushdata1
        · rw [if_pos direct] at parsed
          exact takePush_consumes _ _ _ _ parsed
        · rw [if_neg direct] at parsed
          by_cases short : pc.length < lengthWidth opcode
          · rw [if_pos short] at parsed
            cases parsed
          · rw [if_neg short] at parsed
            have left := takePush_consumes _ _ _ _ parsed
            rw [List.length_drop] at left
            omega
      · rw [if_neg push] at parsed
        cases parsed
        exact le_refl _

end RoiCoin
