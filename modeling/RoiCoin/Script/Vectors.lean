import RoiCoin.Script.Interpreter

/-! The vectors and the script bytes that `EvalScript` reads (`script/interpreter.cpp`,
`CScript::GetOp2` in `script/script.h`), with every access out of range a failure of its own.

A vector is a list with its back last; a position in a script is an index. -/

namespace RoiCoin

open Checked

/-- Why `EvalScript` stops before the end of the script. -/
inductive EvalFault where
  /-- It returns `set_error(serror, …)`. -/
  | serror (serror : ScriptError)
  /-- `scriptnum_error` -/
  | scriptnumError
  /-- `std::out_of_range` of `stack.at`. -/
  | outOfRange
  /-- `popstack(): stack empty` -/
  | stackEmpty
  /-- An iterator or a pointer outside its range; nothing is thrown. -/
  | outOfBounds
  | assertion
  /-- The loop has taken more turns than the script has bytes. -/
  | unfinished
  deriving DecidableEq, Repr

abbrev Running := Except EvalFault

namespace Vectors

/-! ## Stacks -/

/-- `stacktop(-i)` and `altstacktop(-i)` -/
def stacktop (stack : List Bytes) (i : Nat) : Running Bytes :=
  if 1 ≤ i ∧ i ≤ stack.length then .ok (stack.getD (stack.length - i) []) else .error .outOfRange

def popstack (stack : List Bytes) : Running (List Bytes) :=
  if stack.isEmpty then .error .stackEmpty else .ok stack.dropLast

def pushBack (stack : List Bytes) (vch : Bytes) : List Bytes := stack ++ [vch]

/-- `swap(stacktop(-i), stacktop(-j))` -/
def swapTop (stack : List Bytes) (i j : Nat) : Running (List Bytes) := do
  let vch1 ← stacktop stack i
  let vch2 ← stacktop stack j
  return (stack.set (stack.length - i) vch2).set (stack.length - j) vch1

/-- `stack.erase(stack.end() - first, stack.end() - last)` -/
def eraseTop (stack : List Bytes) (first last : Nat) : Running (List Bytes) :=
  if last ≤ first ∧ first ≤ stack.length then
    .ok (stack.take (stack.length - first) ++ stack.drop (stack.length - last))
  else .error .outOfBounds

/-- `stack.insert(stack.end() - position, vch)` -/
def insertTop (stack : List Bytes) (position : Nat) (vch : Bytes) : Running (List Bytes) :=
  if position ≤ stack.length then
    .ok (stack.take (stack.length - position) ++ vch :: stack.drop (stack.length - position))
  else .error .outOfBounds

/-- `stack.size() < size`, on which the operation is not valid. -/
def checkSize (serror : ScriptError) (stack : List Bytes) (size : Nat) : Running Unit :=
  require (¬ stack.length < size) (.serror serror)

/-! ## The script -/

/-- `*pc` -/
def byteOf (script : CScript) (pc : Nat) : Running UInt8 :=
  match script[pc]? with
  | some byte => .ok byte
  | none => .error .outOfBounds

/-- The bytes from `pc` to `pc + n`. -/
def bytesOf (script : CScript) (pc n : Nat) : Running Bytes :=
  if pc + n ≤ script.length then .ok ((script.drop pc).take n) else .error .outOfBounds

/-- `CScript(pbegin, pend)` -/
def scriptFrom (script : CScript) (pbegin : Nat) : Running CScript :=
  if pbegin ≤ script.length then .ok (script.drop pbegin) else .error .outOfBounds

/-- The operation read and the position after it. -/
structure OpAt where
  opcode : UInt8
  vch : Bytes
  pc : Nat
  deriving DecidableEq, Repr

/-- A length field of `width` bytes and the position after it. -/
def lengthField (script : CScript) (pc width : Nat) : Running (Option (Nat × Nat)) :=
  if script.length - pc < width then .ok none
  else do
    let field ← bytesOf script pc width
    return some (readLE field, pc + width)

/-- `nSize` and the position after it; nothing where the script ends first. -/
def pushSize (script : CScript) (opcode : UInt8) (pc : Nat) : Running (Option (Nat × Nat)) :=
  if opcode < opPushdata1 then .ok (some (opcode.toNat, pc))
  else if opcode = opPushdata1 then lengthField script pc 1
  else if opcode = opPushdata2 then lengthField script pc 2
  else lengthField script pc 4

/-- `GetOp2` -/
def getOp (script : CScript) (pc : Nat) : Running (Option OpAt) :=
  if pc ≥ script.length then .ok none
  else if script.length - pc < 1 then .ok none
  else do
    let opcode ← byteOf script pc
    if opcode ≤ opPushdata4 then do
      match ← pushSize script opcode (pc + 1) with
      | none => return none
      | some (nSize, pc) =>
          if script.length < pc ∨ script.length - pc < nSize then return none
          else do
            let vch ← bytesOf script pc nSize
            return some ⟨opcode, vch, pc + nSize⟩
    else return some ⟨opcode, [], pc + 1⟩

end Vectors

end RoiCoin
