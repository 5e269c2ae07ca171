import RoiCoin.Lib.Slots
import RoiCoin.Transaction

/-! The unspent outputs of one transaction (`CCoins` in `coins.h`).

A null output is `none` in `vout`; `CTxOut.unspent` makes the translation. -/

namespace RoiCoin

open Slots

def CTxOut.unspent (txout : CTxOut) : Option CTxOut := if txout.isNull then none else some txout

structure CCoins where
  fCoinBase : Bool
  vout : List (Option CTxOut)
  nHeight : Int
  nVersion : Int
  deriving DecidableEq, Repr

namespace CCoins

/-- The empty constructor; also the result of `Clear`. -/
def empty : CCoins := ⟨false, [], 0, 0⟩

def cleanup (coins : CCoins) : CCoins := { coins with vout := trim coins.vout }

def clearUnspendable (coins : CCoins) : CCoins :=
  cleanup { coins with
    vout := coins.vout.map fun txout => txout.filter fun txout => !isUnspendable txout.scriptPubKey }

def fromTx (tx : CTransaction) (nHeightIn : Int) : CCoins :=
  clearUnspendable ⟨tx.isCoinBase, tx.vout.map CTxOut.unspent, nHeightIn, tx.nVersion⟩

def isPruned (coins : CCoins) : Bool := vacant coins.vout

/-- The unspent output at a position. -/
def output (coins : CCoins) (nPos : Nat) : Option CTxOut := slot coins.vout nPos

def isAvailable (coins : CCoins) (nPos : Nat) : Bool := (coins.output nPos).isSome

/-- `Spend`; a spent or missing output leaves the record as it is. -/
def spend (coins : CCoins) (nPos : Nat) : CCoins :=
  if coins.isAvailable nPos then cleanup { coins with vout := coins.vout.set nPos none } else coins

/-- `operator==`: empty records are always equal. -/
def same (a b : CCoins) : Bool :=
  (a.isPruned && b.isPruned) ||
    (a.fCoinBase == b.fCoinBase && a.nHeight == b.nHeight && a.nVersion == b.nVersion &&
      a.vout == b.vout)

/-! ## Outputs of a record -/

@[simp] theorem output_empty (n : Nat) : empty.output n = none := rfl

@[simp] theorem isPruned_empty : empty.isPruned = true := rfl

@[simp] theorem cleanup_empty : empty.cleanup = empty := rfl

@[simp] theorem output_cleanup (coins : CCoins) (n : Nat) :
    coins.cleanup.output n = coins.output n := slot_trim coins.vout n

@[simp] theorem isPruned_cleanup (coins : CCoins) : coins.cleanup.isPruned = coins.isPruned :=
  vacant_trim coins.vout

@[simp] theorem cleanup_cleanup (coins : CCoins) : coins.cleanup.cleanup = coins.cleanup := by
  simp [cleanup]

theorem isPruned_iff (coins : CCoins) : coins.isPruned = true ↔ ∀ n, coins.output n = none :=
  vacant_iff coins.vout

theorem output_unspendable (coins : CCoins) (n : Nat) :
    coins.clearUnspendable.output n =
      (coins.output n).filter fun txout => !isUnspendable txout.scriptPubKey := by
  rw [clearUnspendable, output_cleanup, output, output, slot, slot, List.getElem?_map]
  cases coins.vout[n]? with
  | none => rfl
  | some txout => rfl

/-- The outputs a transaction adds to the unspent set. -/
def spendable (tx : CTransaction) (n : Nat) : Option CTxOut :=
  (tx.vout[n]?.bind CTxOut.unspent).filter fun txout => !isUnspendable txout.scriptPubKey

theorem output_fromTx (tx : CTransaction) (nHeight : Int) (n : Nat) :
    (fromTx tx nHeight).output n = spendable tx n := by
  rw [fromTx, output_unspendable, output, slot, List.getElem?_map, spendable]
  cases tx.vout[n]? with
  | none => rfl
  | some txout => rfl

theorem output_spend (coins : CCoins) (n m : Nat) :
    (coins.spend n).output m = if m = n then none else coins.output m := by
  rw [spend]
  cases available : coins.isAvailable n with
  | true =>
      obtain ⟨txout, present⟩ := Option.isSome_iff_exists.mp available
      rw [if_pos rfl, output_cleanup, output, slot_set _ _ _ _ (slot_lt _ _ _ present)]
      rfl
  | false =>
      rw [if_neg Bool.false_ne_true]
      split
      · rename_i here
        rw [here]
        simpa [isAvailable] using available
      · rfl

end CCoins

end RoiCoin
