import RoiCoin.Wallet.Wallet

/-! The balance of a wallet and the coins it can spend (`GetBalance`, `GetAvailableCredit`,
`AvailableCoins`). -/

namespace RoiCoin

open Checked

structure COutput where
  tx : CWalletTx
  i : Nat
  nDepth : Int
  fSpendable : Bool
  deriving DecidableEq

structure CCoinControl where
  destChange : CTxDestination
  setSelected : List COutPoint
  deriving DecidableEq, Repr

def CCoinControl.hasSelected (coinControl : CCoinControl) : Bool :=
  !coinControl.setSelected.isEmpty

def CCoinControl.isSelected (coinControl : CCoinControl) (hash : Uint256) (n : Nat) : Bool :=
  coinControl.setSelected.contains ⟨hash, BitVec.ofNat 32 n⟩

namespace CWalletStore

variable (w : CWalletStore) (node : NodeView)

/-! ## Term deposits -/

def isOutputTermDeposit (txout : CTxOut) : Walleting Bool := do
  let solved ← w.solve txout.scriptPubKey
  return solved.typeRet = .checklocktimeverify

/-- `CWalletTx::GetTermDepositReleaseBlock` -/
def depositReleaseBlock (txout : CTxOut) : Walleting Int := do
  let solved ← w.solve txout.scriptPubKey
  return if solved.typeRet = .checklocktimeverify then solved.cltvReleaseBlock.getD 0 else 0

/-- `isOutputTermDeposit(i) && GetTermDepositReleaseBlock(i) > chainActive.Height()` -/
def depositLocked (txout : CTxOut) : Walleting Bool := do
  if ← w.isOutputTermDeposit txout then
    return decide (node.height < (← w.depositReleaseBlock txout))
  else return false

/-! ## Available coins -/

def isLockedCoin (hash : Uint256) (n : Nat) : Bool :=
  w.setLockedCoins.contains ⟨hash, BitVec.ofNat 32 n⟩

/-- The part of `AvailableCoins` that allows an output which is not locked in a deposit. -/
def availableOutput (coinControl : Option CCoinControl) (fIncludeZeroValue : Bool)
    (wtxid : Uint256) (pcoin : CWalletTx) (nDepth : Int) (entry : CTxOut × Nat) :
    Walleting (Option COutput) := do
  let (txout, i) := entry
  if ← w.depositLocked node txout then return none
  else do
    let mine ← w.isMine txout
    if w.isSpent node wtxid i = false ∧ mine ≠ .no ∧ w.isLockedCoin wtxid i = false ∧
        (txout.nValue > 0 ∨ fIncludeZeroValue = true) ∧
        (coinControl.elim true fun coinControl =>
          !coinControl.hasSelected || coinControl.isSelected wtxid i) = true then
      return some ⟨pcoin, i, nDepth, mine == .spendable⟩
    else return none

/-- The transactions whose outputs `AvailableCoins` looks at. -/
def available (fOnlyConfirmed : Bool) (pcoin : CWalletTx) : Walleting Bool := do
  if !pcoin.checkFinalTx node then return false
  else do
    let trusted ← if fOnlyConfirmed then w.isTrusted node pcoin else .ok true
    return trusted &&
      !(pcoin.tx.isCoinBase && decide (pcoin.getBlocksToMaturity node > 0)) &&
      !decide (pcoin.getDepthInMainChain node < 0)

def availableOutputs (fOnlyConfirmed : Bool) (coinControl : Option CCoinControl)
    (fIncludeZeroValue : Bool) (entry : Uint256 × CWalletTx) : Walleting (List COutput) := do
  if ← w.available node fOnlyConfirmed entry.2 then do
    let outputs ← entry.2.tx.vout.zipIdx.mapM
      (w.availableOutput node coinControl fIncludeZeroValue entry.1 entry.2
        (entry.2.getDepthInMainChain node))
    return outputs.reduceOption
  else return []

def availableCoins (fOnlyConfirmed : Bool) (coinControl : Option CCoinControl)
    (fIncludeZeroValue : Bool) : Walleting (List COutput) := do
  let vCoins ← w.mapWallet.mapM
    (w.availableOutputs node fOnlyConfirmed coinControl fIncludeZeroValue)
  return vCoins.flatten

/-! ## The balance -/

/-- `GetCredit` of an output of a transaction. -/
def getCredit (wtx : CWalletTx) (txout : CTxOut) (filter : IsMineFilter) : Walleting Int := do
  let afterInterest ← wtx.nextValue node txout
  require (moneyRange afterInterest = true)
    (.valueOutOfRange "CWallet::GetCredit(): value out of range")
  let mine ← w.isMine txout
  return if mine.passes filter then afterInterest else 0

/-- What one output adds to `GetAvailableCredit`. -/
def availableCredit (wtx : CWalletTx) (entry : CTxOut × Nat) : Walleting (Option Int) := do
  let (txout, i) := entry
  if w.isSpent node wtx.hash i then return none
  else do
    let release ← liftFault (getTermDepositReleaseBlock txout.scriptPubKey)
    if release > node.height then return none
    else some <$> w.getCredit node wtx txout .spendable

def availableCreditFrom (wtx : CWalletTx) (nCredit : Int) : List (CTxOut × Nat) → Walleting Int
  | [] => .ok nCredit
  | entry :: vout => do
      match ← w.availableCredit node wtx entry with
      | none => availableCreditFrom wtx nCredit vout
      | some credit => do
          let nCredit ← amount (nCredit + credit)
          require (moneyRange nCredit = true)
            (.valueOutOfRange "CWalletTx::GetAvailableCredit() : value out of range")
          availableCreditFrom wtx nCredit vout

def getAvailableCredit (wtx : CWalletTx) : Walleting Int :=
  if wtx.tx.isCoinBase ∧ wtx.getBlocksToMaturity node > 0 then .ok 0
  else w.availableCreditFrom node wtx 0 wtx.tx.vout.zipIdx

def balanceFrom (nTotal : Int) : List (Uint256 × CWalletTx) → Walleting Int
  | [] => .ok nTotal
  | entry :: rest => do
      if ← w.isTrusted node entry.2 then do
        let credit ← w.getAvailableCredit node entry.2
        let nTotal ← amount (nTotal + credit)
        balanceFrom nTotal rest
      else balanceFrom nTotal rest

def getBalance : Walleting Int := w.balanceFrom node 0 w.mapWallet

end CWalletStore

end RoiCoin
