import RoiCoin.Lib.Checked
import RoiCoin.Script.Flags
import RoiCoin.Script.Script

/-! Script errors and the encodings that script verification asks for
(`script/script_error.h`, `script/interpreter.cpp`, `eccryptoverify.cpp`). -/

namespace RoiCoin

open Checked

/-- `ScriptError_t` without its two markers. -/
inductive ScriptError where
  | unknownError
  | evalFalse
  | opReturn
  | scriptSize
  | pushSize
  | opCount
  | stackSize
  | sigCount
  | pubkeyCount
  | verify
  | equalverify
  | checkmultisigverify
  | checksigverify
  | numequalverify
  | badOpcode
  | disabledOpcode
  | invalidStackOperation
  | invalidAltstackOperation
  | unbalancedConditional
  | negativeLocktime
  | unsatisfiedLocktime
  | sigHashtype
  | sigDer
  | minimaldata
  | sigPushonly
  | sigHighS
  | sigNulldummy
  | pubkeytype
  | cleanstack
  | discourageUpgradableNops
  deriving DecidableEq, Repr

def scriptErrorString : ScriptError → String
  | .evalFalse =>
      "Script evaluated without error but finished with a false/empty top stack element"
  | .verify => "Script failed an OP_VERIFY operation"
  | .equalverify => "Script failed an OP_EQUALVERIFY operation"
  | .checkmultisigverify => "Script failed an OP_CHECKMULTISIGVERIFY operation"
  | .checksigverify => "Script failed an OP_CHECKSIGVERIFY operation"
  | .numequalverify => "Script failed an OP_NUMEQUALVERIFY operation"
  | .scriptSize => "Script is too big"
  | .pushSize => "Push value size limit exceeded"
  | .opCount => "Operation limit exceeded"
  | .stackSize => "Stack size limit exceeded"
  | .sigCount => "Signature count negative or greater than pubkey count"
  | .pubkeyCount => "Pubkey count negative or limit exceeded"
  | .badOpcode => "Opcode missing or not understood"
  | .disabledOpcode => "Attempted to use a disabled opcode"
  | .invalidStackOperation => "Operation not valid with the current stack size"
  | .invalidAltstackOperation => "Operation not valid with the current altstack size"
  | .opReturn => "OP_RETURN was encountered"
  | .unbalancedConditional => "Invalid OP_IF construction"
  | .negativeLocktime => "Negative locktime"
  | .unsatisfiedLocktime => "Locktime requirement not satisfied"
  | .sigHashtype => "Signature hash type missing or not understood"
  | .sigDer => "Non-canonical DER signature"
  | .minimaldata => "Data push larger than necessary"
  | .sigPushonly => "Only non-push operators allowed in signatures"
  | .sigHighS => "Non-canonical signature: S value is unnecessarily high"
  | .sigNulldummy => "Dummy CHECKMULTISIG argument must be zero"
  | .discourageUpgradableNops => "NOPx reserved for soft-fork upgrades"
  | .pubkeytype => "Public key is neither compressed or uncompressed"
  | .unknownError => "unknown error"
  | .cleanstack => "unknown error"

/-- Why a script is not accepted. -/
inductive ScriptFailure where
  | serror (serror : ScriptError)
  /-- An assertion of `VerifyScript`. -/
  | assertion
  deriving DecidableEq, Repr

abbrev Evaluating := Except ScriptFailure

def op1negate : UInt8 := 0x4f

def checkMinimalPush (data : Bytes) (opcode : UInt8) : Bool :=
  match data with
  | [] => opcode == op0
  | [byte] =>
      if 1 ≤ byte ∧ byte ≤ 16 then opcode == op1 + (byte - 1)
      else if byte = 0x81 then opcode == op1negate
      else opcode == 1
  | _ :: _ :: _ =>
      if data.length ≤ 75 then opcode.toNat == data.length
      else if data.length ≤ 255 then opcode == opPushdata1
      else if data.length ≤ 65535 then opcode == opPushdata2
      else true

/-! ## Keys and signatures -/

/-- `vch[i]`, where the tests before have shown that it is there. -/
def nthByte (vch : Bytes) (i : Nat) : UInt8 := vch.getD i 0

def isCompressedOrUncompressedPubKey (vchPubKey : Bytes) : Bool :=
  if vchPubKey.length < 33 then false
  else if nthByte vchPubKey 0 = 0x04 then vchPubKey.length == 65
  else if nthByte vchPubKey 0 = 0x02 ∨ nthByte vchPubKey 0 = 0x03 then vchPubKey.length == 33
  else false

/-- `sig[3]` -/
def lenR (sig : Bytes) : Nat := (nthByte sig 3).toNat

/-- `sig[5 + lenR]` -/
def lenS (sig : Bytes) : Nat := (nthByte sig (5 + lenR sig)).toNat

/-- An integer of `len` bytes at a position, positive and without needless zero bytes. -/
def isValidElement (sig : Bytes) (len position : Nat) : Bool :=
  nthByte sig (position - 2) == 0x02 && len != 0 && nthByte sig position &&& 0x80 == 0 &&
    !(decide (len > 1) && nthByte sig position == 0x00 && nthByte sig (position + 1) &&& 0x80 == 0)

def isValidSignatureEncoding (sig : Bytes) : Bool :=
  decide (9 ≤ sig.length ∧ sig.length ≤ 73) && nthByte sig 0 == 0x30 &&
    (nthByte sig 1).toNat + 3 == sig.length && decide (5 + lenR sig < sig.length) &&
    lenR sig + lenS sig + 7 == sig.length && isValidElement sig (lenR sig) 4 &&
    isValidElement sig (lenS sig) (lenR sig + 6)

/-- The last loop of `CompareBigEndian`, on equally many bytes. -/
def compareBytes : Bytes → Bytes → Int
  | byte1 :: c1, byte2 :: c2 =>
      if byte1 > byte2 then 1 else if byte2 > byte1 then -1 else compareBytes c1 c2
  | _, _ => 0

def compareBigEndian (c1 c2 : Bytes) : Int :=
  if (c1.take (c1.length - c2.length)).any (· != 0) then 1
  else if (c2.take (c2.length - c1.length)).any (· != 0) then -1
  else compareBytes (c1.drop (c1.length - c2.length)) (c2.drop (c2.length - c1.length))

/-- Half of the order of the curve's generator minus 1. -/
def vchMaxModHalfOrder : Bytes :=
  [0x7F, 0xFF, 0xFF, 0xFF, 0xFF, 0xFF, 0xFF, 0xFF, 0xFF, 0xFF, 0xFF, 0xFF, 0xFF, 0xFF, 0xFF, 0xFF,
    0x5D, 0x57, 0x6E, 0x73, 0x57, 0xA4, 0x50, 0x1D, 0xDF, 0xE9, 0x2F, 0x46, 0x68, 0x1B, 0x20, 0xA0]

/-- `CheckSignatureElement` with `half` set. -/
def checkSignatureElement (vch : Bytes) : Bool :=
  decide (compareBigEndian vch [] > 0) && decide (compareBigEndian vch vchMaxModHalfOrder ≤ 0)

def isLowDERSignature (vchSig : Bytes) : Evaluating Unit := do
  require (isValidSignatureEncoding vchSig = true) (.serror .sigDer)
  require (checkSignatureElement ((vchSig.drop (6 + lenR vchSig)).take (lenS vchSig)) = true)
    (.serror .sigHighS)

def isDefinedHashtypeSignature (vchSig : Bytes) : Bool :=
  match vchSig.getLast? with
  | none => false
  | some back => decide (1 ≤ back &&& ~~~0x80 ∧ back &&& ~~~0x80 ≤ 3)

/-- The flags under which a signature must be valid DER. -/
def derFlags : BitVec 32 := scriptVerifyDersig ||| scriptVerifyLowS ||| scriptVerifyStrictenc

def checkLowS (vchSig : Bytes) (flags : BitVec 32) : Evaluating Unit :=
  if hasFlag flags scriptVerifyLowS then isLowDERSignature vchSig else .ok ()

def checkSignatureEncoding (vchSig : Bytes) (flags : BitVec 32) : Evaluating Unit :=
  if vchSig = [] then .ok ()
  else do
    require (hasFlag flags derFlags = true → isValidSignatureEncoding vchSig = true)
      (.serror .sigDer)
    checkLowS vchSig flags
    require (hasFlag flags scriptVerifyStrictenc = true → isDefinedHashtypeSignature vchSig = true)
      (.serror .sigHashtype)

def checkPubKeyEncoding (vchPubKey : Bytes) (flags : BitVec 32) : Evaluating Unit :=
  require (hasFlag flags scriptVerifyStrictenc = true →
    isCompressedOrUncompressedPubKey vchPubKey = true) (.serror .pubkeytype)

end RoiCoin
