import RoiCoin.Lib.Checked
import RoiCoin.Script.Script

/-! How the validation functions refuse (`consensus/validation.h`). -/

namespace RoiCoin

def rejectInvalid : Nat := 0x10
def rejectObsolete : Nat := 0x11
def rejectDuplicate : Nat := 0x12

/-- `CValidationState` after a refusal. -/
structure Rejection where
  nDoS : Nat
  chRejectCode : Nat
  strRejectReason : String
  corruptionPossible : Bool
  deriving DecidableEq, Repr

/-- The assertions of the validation functions. -/
inductive Assertion where
  | bestBlock
  | outputFor
  | coins
  | updateCoins
  | tip
  deriving DecidableEq, Repr

/-- Why a validation function does not return true. -/
inductive Failure where
  | invalid (rejection : Rejection)
  /-- `error(..)` without a rejection. -/
  | refused
  | scriptFault (fault : ScriptFault)
  /-- `GetValueOut` throws. -/
  | valueOutOfRange
  | assertion (failed : Assertion)
  /-- A missing block index entry is dereferenced. -/
  | nullPointer
  deriving DecidableEq, Repr

abbrev Checking := Except Failure

/-- `state.DoS(nDoS, .., REJECT_INVALID, strRejectReason)` -/
def dos (nDoS : Nat) (strRejectReason : String) : Failure :=
  .invalid ⟨nDoS, rejectInvalid, strRejectReason, false⟩

/-- The same for data that may have been corrupted on the way. -/
def dosCorrupt (nDoS : Nat) (strRejectReason : String) : Failure :=
  .invalid ⟨nDoS, rejectInvalid, strRejectReason, true⟩

def liftScript {α : Type} (result : Except ScriptFault α) : Checking α :=
  match result with
  | .ok a => .ok a
  | .error fault => .error (.scriptFault fault)

@[simp] theorem liftScript_ok {α : Type} (result : Except ScriptFault α) (a : α) :
    liftScript result = .ok a ↔ result = .ok a := by
  cases result <;> simp [liftScript]

end RoiCoin
