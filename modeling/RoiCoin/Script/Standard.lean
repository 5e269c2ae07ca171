import RoiCoin.Script.Script

/-! Template matching of output scripts (`Solver` in `script/standard.cpp`). -/

namespace RoiCoin

inductive TxnOutType where
  | nonstandard
  | pubkey
  | pubkeyhash
  | scripthash
  | multisig
  | checklocktimeverify
  | nullData
  deriving DecidableEq, Repr

/-- The out-parameters `vSolutionsRet` and `CLTVreleaseBlock` while a template is compared. -/
structure Matched where
  vSolutions : List Bytes
  cltvReleaseBlock : Option Int
  deriving DecidableEq, Repr

/-- Result and out-parameters of `Solver`; the release block is set only by a lock-time template. -/
structure Solved where
  found : Bool
  typeRet : TxnOutType
  vSolutions : List Bytes
  cltvReleaseBlock : Option Int
  deriving DecidableEq, Repr

def termDepositTemplate : List UInt8 :=
  [opLocktimeinteger, opChecklocktimeverify, opDrop, opDup, opHash160, opPubkeyhash,
    opEqualverify, opChecksig]

/-- The template multimap in iteration order: by type, then by insertion. -/
def mTemplates (fDatacarrier : Bool) : List (TxnOutType × List UInt8) :=
  [(.pubkey, [opPubkey, opChecksig]),
    (.pubkeyhash, [opDup, opHash160, opPubkeyhash, opEqualverify, opChecksig]),
    (.multisig, [opSmallinteger, opPubkeys, opSmallinteger, opCheckmultisig]),
    (.checklocktimeverify, termDepositTemplate)] ++
  (if fDatacarrier then [(.nullData, [opReturn, opSmalldata])] else []) ++
  [(.nullData, [opReturn])]

/-- `DecodeOP_N` -/
def decodeOpN (opcode : UInt8) : UInt8 :=
  if opcode = op0 then 0 else opcode - (op1 - 1)

/-- One comparison of the template scan; `none` breaks out of the template. -/
def matchOp (nMaxDatacarrierBytes : Nat) (opcode2 opcode1 : UInt8) (vch1 : Bytes)
    (sofar : Matched) : Except ScriptFault (Option Matched) :=
  if opcode2 = opPubkey then
    if vch1.length < 33 ∨ vch1.length > 65 then .ok none
    else .ok (some { sofar with vSolutions := sofar.vSolutions ++ [vch1] })
  else if opcode2 = opPubkeyhash then
    if vch1.length ≠ 20 then .ok none
    else .ok (some { sofar with vSolutions := sofar.vSolutions ++ [vch1] })
  else if opcode2 = opSmallinteger then
    if opcode1 = op0 ∨ (opcode1 ≥ op1 ∧ opcode1 ≤ op16) then
      .ok (some { sofar with vSolutions := sofar.vSolutions ++ [[decodeOpN opcode1]] })
    else .ok none
  else if opcode2 = opLocktimeinteger then
    if opcode1 > 0 ∧ opcode1 < 6 then
      (scriptNum vch1 true 5).map fun n => some { sofar with cltvReleaseBlock := some (getint n) }
    else .ok none
  else if opcode2 = opSmalldata then
    if vch1.length > nMaxDatacarrierBytes then .ok none else .ok (some sofar)
  else if opcode1 ≠ opcode2 ∨ vch1 ≠ [] then .ok none
  else .ok (some sofar)

/-- The inner loop for `OP_PUBKEYS`: collects pushes of key length and stops at the first
operation that is none, or that does not parse. -/
def takePubkeys : Nat → ScriptOp → List Bytes → ScriptOp × List Bytes
  | 0, op, solutions => (op, solutions)
  | fuel + 1, op, solutions =>
      if 33 ≤ op.vch.length ∧ op.vch.length ≤ 65 then
        match getOp op.rest with
        | some next => takePubkeys fuel next (solutions ++ [op.vch])
        | none => (⟨opInvalidopcode, [], op.rest⟩, solutions ++ [op.vch])
      else (op, solutions)

/-- Compare a script with a template; template operations are single bytes without data. -/
def matchTemplate (nMaxDatacarrierBytes : Nat) :
    List UInt8 → CScript → Matched → Except ScriptFault (Option Matched)
  | [], script1, sofar => .ok (if script1 = [] then some sofar else none)
  | opcode2 :: template, script1, sofar =>
      match getOp script1 with
      | none => .ok none
      | some op =>
          if opcode2 = opPubkeys then
            let (op, vSolutions) := takePubkeys script1.length op sofar.vSolutions
            match template with
            | [] => .ok none
            | next2 :: template =>
                match matchOp nMaxDatacarrierBytes next2 op.opcode op.vch
                    { sofar with vSolutions } with
                | .error fault => .error fault
                | .ok none => .ok none
                | .ok (some sofar) => matchTemplate nMaxDatacarrierBytes template op.rest sofar
          else
            match matchOp nMaxDatacarrierBytes opcode2 op.opcode op.vch sofar with
            | .error fault => .error fault
            | .ok none => .ok none
            | .ok (some sofar) => matchTemplate nMaxDatacarrierBytes template op.rest sofar

/-- The additional checks for `TX_MULTISIG`. -/
def multisigWellFormed (vSolutions : List Bytes) : Bool :=
  let m := ((vSolutions.headD []).headD 0).toNat
  let n := ((vSolutions.getLastD []).headD 0).toNat
  !(decide (m < 1) || decide (n < 1) || decide (m > n) || vSolutions.length - 2 != n)

def scanTemplates (nMaxDatacarrierBytes : Nat) (script : CScript) :
    List (TxnOutType × List UInt8) → Except ScriptFault Solved
  | [] => .ok ⟨false, .nonstandard, [], none⟩
  | (typeRet, template) :: templates =>
      match matchTemplate nMaxDatacarrierBytes template script ⟨[], none⟩ with
      | .error fault => .error fault
      | .ok none => scanTemplates nMaxDatacarrierBytes script templates
      | .ok (some matched) =>
          .ok ⟨typeRet != .multisig || multisigWellFormed matched.vSolutions, typeRet,
            matched.vSolutions, matched.cltvReleaseBlock⟩

def solver (fDatacarrier : Bool) (nMaxDatacarrierBytes : Nat) (scriptPubKey : CScript) :
    Except ScriptFault Solved :=
  if isPayToScriptHash scriptPubKey then
    .ok ⟨true, .scripthash, [(scriptPubKey.drop 2).take 20], none⟩
  else scanTemplates nMaxDatacarrierBytes scriptPubKey (mTemplates fDatacarrier)

end RoiCoin
