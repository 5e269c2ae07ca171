import RoiCoin.Interest
import RoiCoin.Failure
import RoiCoin.ArithUint256
import Mathlib.Algebra.Order.BigOperators.Group.List

/-! Transactions (`primitives/transaction.h`) and their context-free checks.

Sizes and counts are natural numbers; the transaction id is a parameter of what uses it. -/

namespace RoiCoin

open Checked

structure COutPoint where
  hash : Uint256
  n : BitVec 32
  deriving DecidableEq, Repr

def COutPoint.isNull (out : COutPoint) : Bool := out.hash == 0 && out.n == -1

structure CTxIn where
  prevout : COutPoint
  scriptSig : CScript
  nSequence : BitVec 32
  deriving DecidableEq, Repr

structure CTxOut where
  nValue : Int
  scriptPubKey : CScript
  deriving DecidableEq, Repr

/-- `SetNull`; a spent output has value minus one. -/
def CTxOut.null : CTxOut := ⟨-1, []⟩

def CTxOut.isNull (txout : CTxOut) : Bool := txout.nValue == -1

structure CTransaction where
  nVersion : Int
  vin : List CTxIn
  vout : List CTxOut
  nLockTime : BitVec 32
  deriving DecidableEq, Repr

def CTransaction.isCoinBase (tx : CTransaction) : Bool :=
  match tx.vin with
  | [txin] => txin.prevout.isNull
  | _ => false

/-! ## Serialized sizes -/

def sizeOfCompactSize (nSize : Nat) : Nat :=
  if nSize < 253 then 1 else if nSize ≤ 0xffff then 3 else if nSize ≤ 0xffffffff then 5 else 9

def scriptSerializeSize (script : CScript) : Nat := sizeOfCompactSize script.length + script.length

def CTxIn.serializeSize (txin : CTxIn) : Nat := 36 + scriptSerializeSize txin.scriptSig + 4

def CTxOut.serializeSize (txout : CTxOut) : Nat := 8 + scriptSerializeSize txout.scriptPubKey

def CTransaction.serializeSize (tx : CTransaction) : Nat :=
  4 + (sizeOfCompactSize tx.vin.length + (tx.vin.map CTxIn.serializeSize).sum) +
    (sizeOfCompactSize tx.vout.length + (tx.vout.map CTxOut.serializeSize).sum) + 4

/-! ## Values -/

/-- `GetValueWithInterest`; the recogniser may fault on the script. -/
def CTxOut.getValueWithInterest (pow : Int → Int → Int) (chainHeight : Int) (txout : CTxOut)
    (outputBlockHeight valuationHeight : Int) : Except ScriptFault Int :=
  (getTermDepositReleaseBlock txout.scriptPubKey).map
    (getInterest pow chainHeight txout.nValue outputBlockHeight valuationHeight)

/-- The loop of `GetValueOut` from the sum so far; it throws outside the money range. -/
def valueOutFrom (nValueOut : Int) : List CTxOut → Checking Int
  | [] => .ok nValueOut
  | txout :: vout => do
      require (moneyRange txout.nValue ∧ moneyRange (nValueOut + txout.nValue)) .valueOutOfRange
      valueOutFrom (nValueOut + txout.nValue) vout

def CTransaction.getValueOut (tx : CTransaction) : Checking Int := valueOutFrom 0 tx.vout

/-- The sum of the outputs as integers. -/
def CTransaction.outputs (tx : CTransaction) : Int := (tx.vout.map CTxOut.nValue).sum

/-! ## `CheckTransaction` -/

def maxBlockSize : Nat := 1000000
def maxBlockSigOps : Nat := maxBlockSize / 50
def coinbaseMaturity : Int := 359

/-- The output loop of `CheckTransaction` from the sum so far. -/
def checkOutputsFrom (nValueOut : Int) : List CTxOut → Checking Unit
  | [] => .ok ()
  | txout :: vout => do
      require (0 ≤ txout.nValue) (dos 100 "bad-txns-vout-negative")
      require (txout.nValue ≤ maxMoney) (dos 100 "bad-txns-vout-toolarge")
      require (moneyRange (nValueOut + txout.nValue)) (dos 100 "bad-txns-txouttotal-toolarge")
      checkOutputsFrom (nValueOut + txout.nValue) vout

/-- The duplicate-input loop of `CheckTransaction`; `vInOutPoints` is the set so far. -/
def checkDuplicatesFrom (vInOutPoints : List COutPoint) : List CTxIn → Checking Unit
  | [] => .ok ()
  | txin :: vin => do
      require (txin.prevout ∉ vInOutPoints) (dos 100 "bad-txns-inputs-duplicate")
      checkDuplicatesFrom (txin.prevout :: vInOutPoints) vin

/-- The size of `vin[0].scriptSig`. -/
def CTransaction.coinbaseScriptSize (tx : CTransaction) : Nat :=
  (tx.vin.head?.map fun txin => txin.scriptSig.length).getD 0

def checkTransaction (tx : CTransaction) : Checking Unit := do
  require (tx.vin ≠ []) (dos 10 "bad-txns-vin-empty")
  require (tx.vout ≠ []) (dos 10 "bad-txns-vout-empty")
  require (tx.serializeSize ≤ maxBlockSize) (dos 100 "bad-txns-oversize")
  checkOutputsFrom 0 tx.vout
  checkDuplicatesFrom [] tx.vin
  if tx.isCoinBase then
    require (2 ≤ tx.coinbaseScriptSize ∧ tx.coinbaseScriptSize ≤ 100) (dos 100 "bad-cb-length")
  else
    require (∀ txin ∈ tx.vin, txin.prevout.isNull = false) (dos 10 "bad-txns-prevout-null")

/-! ## What a checked transaction satisfies -/

theorem vin_length_le (tx : CTransaction) : tx.vin.length ≤ tx.serializeSize := by
  have sizes : ∀ size ∈ tx.vin.map CTxIn.serializeSize, 1 ≤ size := by
    intro size member
    obtain ⟨txin, -, rfl⟩ := List.mem_map.mp member
    rw [CTxIn.serializeSize]
    omega
  have inputs := List.length_le_sum_of_one_le _ sizes
  rw [List.length_map] at inputs
  rw [CTransaction.serializeSize]
  omega

theorem script_length_le (tx : CTransaction) (txout : CTxOut) (member : txout ∈ tx.vout) :
    txout.scriptPubKey.length ≤ tx.serializeSize := by
  have output := List.single_le_sum (fun _ _ => Nat.zero_le _) _
    (List.mem_map.mpr ⟨txout, member, rfl⟩ : txout.serializeSize ∈ tx.vout.map CTxOut.serializeSize)
  rw [CTxOut.serializeSize, scriptSerializeSize] at output
  rw [CTransaction.serializeSize]
  omega

theorem checkOutputsFrom_ok (vout : List CTxOut) (start : Int)
    (passed : checkOutputsFrom start vout = .ok ()) :
    valueOutFrom start vout = .ok (start + (vout.map CTxOut.nValue).sum) ∧
      ∀ txout ∈ vout, 0 ≤ txout.nValue ∧ txout.nValue ≤ maxMoney := by
  induction vout generalizing start with
  | nil => simp [valueOutFrom]
  | cons txout vout ih =>
      simp only [checkOutputsFrom, then_ok, require_ok] at passed
      obtain ⟨nonneg, small, range, rest⟩ := passed
      obtain ⟨summed, amounts⟩ := ih _ rest
      have inside : moneyRange txout.nValue = true := by
        rw [moneyRange_iff]
        exact ⟨nonneg, small⟩
      refine ⟨?_, ?_⟩
      · rw [valueOutFrom, require_of _ _ ⟨inside, range⟩, List.map_cons, List.sum_cons,
          ← Int.add_assoc]
        exact summed
      · intro other member
        rcases List.mem_cons.mp member with rfl | member
        · exact ⟨nonneg, small⟩
        · exact amounts other member

theorem checkDuplicatesFrom_ok (vin : List CTxIn) (seen : List COutPoint)
    (passed : checkDuplicatesFrom seen vin = .ok ()) :
    (vin.map CTxIn.prevout).Nodup ∧ ∀ txin ∈ vin, txin.prevout ∉ seen := by
  induction vin generalizing seen with
  | nil => simp
  | cons txin vin ih =>
      simp only [checkDuplicatesFrom, then_ok, require_ok] at passed
      obtain ⟨fresh, rest⟩ := passed
      obtain ⟨distinct, unseen⟩ := ih _ rest
      refine ⟨?_, ?_⟩
      · rw [List.map_cons, List.nodup_cons]
        refine ⟨?_, distinct⟩
        intro member
        obtain ⟨other, among, same⟩ := List.mem_map.mp member
        exact unseen other among (by rw [same]; exact List.mem_cons_self)
      · intro other member
        rcases List.mem_cons.mp member with rfl | member
        · exact fresh
        · exact fun among => unseen other member (List.mem_cons_of_mem _ among)

/-- What every other part relies on after `CheckTransaction`. -/
structure CheckedTransaction (tx : CTransaction) : Prop where
  inputs : tx.vin ≠ []
  outputs : tx.vout ≠ []
  sized : tx.serializeSize ≤ maxBlockSize
  valued : tx.getValueOut = .ok tx.outputs
  amounts : ∀ txout ∈ tx.vout, 0 ≤ txout.nValue ∧ txout.nValue ≤ maxMoney
  distinct : (tx.vin.map CTxIn.prevout).Nodup
  present : tx.isCoinBase = false → ∀ txin ∈ tx.vin, txin.prevout.isNull = false

theorem checkTransaction_ok (tx : CTransaction) (passed : checkTransaction tx = .ok ()) :
    CheckedTransaction tx := by
  simp only [checkTransaction, then_ok, require_ok] at passed
  obtain ⟨inputs, outputs, sized, summed, unique, special⟩ := passed
  obtain ⟨valued, amounts⟩ := checkOutputsFrom_ok tx.vout 0 summed
  obtain ⟨distinct, -⟩ := checkDuplicatesFrom_ok tx.vin [] unique
  refine ⟨inputs, outputs, sized, ?_, amounts, distinct, ?_⟩
  · rw [CTransaction.getValueOut, valued, Int.zero_add]
    rfl
  · intro regular
    rw [regular, if_neg Bool.false_ne_true, require_ok] at special
    exact special

end RoiCoin
