import RoiCoin.Lib.Turns
import RoiCoin.Wallet.CoinSelection

/-! Building a payment and its fee (`CreateTransaction`, `SelectCoins`, `GetMinimumFee` in
`wallet/wallet.cpp`, `CFeeRate` in `amount.cpp`).

Each turn of the fee loop meets a `Turn`: what the random numbers, the key pool, the signer and the
floating-point priority test give in it. -/

namespace RoiCoin

open Checked

def maxStandardTxSize : Nat := 100000
def maxFreeTransactionCreateSize : Nat := 1000

/-! ## Fee rates -/

structure CFeeRate where
  nSatoshisPerK : Int
  deriving DecidableEq, Repr

/-- `size_t` makes the product unsigned. -/
def CFeeRate.getFee (rate : CFeeRate) (nSize : Nat) : Int :=
  let nFee := rate.nSatoshisPerK * nSize % 2 ^ 64 / 1000
  if nFee = 0 ∧ rate.nSatoshisPerK > 0 then rate.nSatoshisPerK else nFee

def CFeeRate.getFeePerK (rate : CFeeRate) : Int := rate.getFee 1000

def CTxOut.getDustThreshold (minRelayTxFee : CFeeRate) (txout : CTxOut) : Walleting Int :=
  amount (3 * minRelayTxFee.getFee (txout.serializeSize + 148))

def CTxOut.isDust (minRelayTxFee : CFeeRate) (txout : CTxOut) : Walleting Bool := do
  let threshold ← txout.getDustThreshold minRelayTxFee
  return decide (txout.nValue < threshold)

/-- The settings of the wallet and the estimate of the memory pool. -/
structure FeePolicy where
  payTxFee : CFeeRate
  fPayAtLeastCustomFee : Bool
  minTxFee : CFeeRate
  minRelayTxFee : CFeeRate
  maxTxFee : Int
  nTxConfirmTarget : Nat
  fSendFreeTransactions : Bool
  estimateFee : Nat → CFeeRate

def getMinimumFee (policy : FeePolicy) (nTxBytes : Nat) : Int :=
  let nFeeNeeded := policy.payTxFee.getFee nTxBytes
  let nFeeNeeded := if policy.fPayAtLeastCustomFee = true ∧ nFeeNeeded > 0 ∧
      nFeeNeeded < policy.payTxFee.getFeePerK then policy.payTxFee.getFeePerK else nFeeNeeded
  let nFeeNeeded := if nFeeNeeded = 0 then
    (policy.estimateFee policy.nTxConfirmTarget).getFee nTxBytes else nFeeNeeded
  let nFeeNeeded := if nFeeNeeded = 0 then policy.minTxFee.getFee nTxBytes else nFeeNeeded
  let nFeeNeeded := if nFeeNeeded < policy.minRelayTxFee.getFee nTxBytes then
    policy.minRelayTxFee.getFee nTxBytes else nFeeNeeded
  if nFeeNeeded > policy.maxTxFee then policy.maxTxFee else nFeeNeeded

/-! ## A turn -/

structure CRecipient where
  scriptPubKey : CScript
  nAmount : Int
  fSubtractFeeFromAmount : Bool
  deriving DecidableEq, Repr

/-- What a turn of the loop meets outside of it. -/
structure Turn where
  /-- The random numbers of each of the three calls of `SelectCoinsMinConf`. -/
  getRandInt : Nat → Nat → Nat
  bits : Nat → Nat → Nat → Nat → Bool
  /-- Where a transaction of the wallet lies in memory, which orders a set of coins. -/
  address : Uint256 → Nat
  changePosition : Nat
  /-- `GetReservedKey` -/
  reservedKey : Option Uint160
  /-- The script that `SignSignature` gives the input, when it succeeds. -/
  signSignature : WalletCoin → CTransaction → Nat → Option CScript
  /-- Whether the priority of the transaction is enough. -/
  priorityIsEnough : CTransaction → Nat → Bool

/-- How `CreateTransaction` ends other than by returning true. -/
inductive CreateStop where
  | failed (strFailReason : String)
  | fault (fault : WalletFault)
  | assertion
  deriving DecidableEq, Repr

abbrev Creating := Except CreateStop

def walleting {α : Type} : Walleting α → Creating α
  | .ok a => .ok a
  | .error fault => .error (.fault fault)

/-! ## The coins -/

section Coins

variable (w : CWalletStore) (node : NodeView)

/-- With coin control all the coins selected there are taken. -/
def takeSelected : List COutput → SelectedCoins → Walleting SelectedCoins
  | [], s => .ok s
  | out :: vCoins, s => do
      if !out.fSpendable then takeSelected vCoins s
      else do
        let txout ← out.tx.output out.i
        let value ← out.tx.nextValue node txout
        let s ← s.take (value, out.coin)
        takeSelected vCoins s

def selectCoins (turn : Turn) (nTargetValue : Int) (coinControl : Option CCoinControl) :
    Walleting SelectedCoins := do
  let vCoins ← w.availableCoins node true coinControl false
  if coinControl.any CCoinControl.hasSelected then do
    let s ← takeSelected node vCoins ⟨true, [], 0⟩
    return { s with enough := decide (s.nValueRet ≥ nTargetValue) }
  else do
    let s ← selectCoinsMinConf w node nTargetValue 1 6 (turn.getRandInt 0) (turn.bits 0) vCoins
    if s.enough then return s
    else do
      let s ← selectCoinsMinConf w node nTargetValue 1 1 (turn.getRandInt 1) (turn.bits 1) vCoins
      if s.enough || !w.bSpendZeroConfChange then return s
      else selectCoinsMinConf w node nTargetValue 0 1 (turn.getRandInt 2) (turn.bits 2) vCoins

end Coins

/-- The order in which a set of coins is gone through. -/
def inSetOrder (address : Uint256 → Nat) (setCoins : List WalletCoin) : List WalletCoin :=
  setCoins.insertionSort fun a b =>
    address a.1 < address b.1 ∨ address a.1 = address b.1 ∧ a.2 ≤ b.2

/-! ## The outputs -/

section Outputs

variable (minRelayTxFee : CFeeRate)

/-- The number of recipients that pay the fee. -/
def nSubtractFeeFromAmount (vecSend : List CRecipient) : Nat :=
  vecSend.countP CRecipient.fSubtractFeeFromAmount

/-- A recipient's value; the first one that pays the fee pays the remainder too. -/
def payeeValue (nFeeRet : Int) (nSubtract : Nat) (fFirst : Bool) (recipient : CRecipient) :
    Walleting Int :=
  if recipient.fSubtractFeeFromAmount then do
    let nValue ← amount (recipient.nAmount - nFeeRet.tdiv nSubtract)
    if fFirst then amount (nValue - nFeeRet.tmod nSubtract) else return nValue
  else .ok recipient.nAmount

def dustReason (nFeeRet : Int) (recipient : CRecipient) (txout : CTxOut) : String :=
  if recipient.fSubtractFeeFromAmount = true ∧ nFeeRet > 0 then
    if txout.nValue < 0 then "The transaction amount is too small to pay the fee"
    else "The transaction amount is too small to send after the fee has been deducted"
  else "Transaction amount too small"

/-- The outputs to the payees. -/
def payees (nFeeRet : Int) (nSubtract : Nat) : Bool → List CRecipient → Creating (List CTxOut)
  | _, [] => .ok []
  | fFirst, recipient :: vecSend => do
      let nValue ← walleting (payeeValue nFeeRet nSubtract fFirst recipient)
      let txout : CTxOut := ⟨nValue, recipient.scriptPubKey⟩
      let dust ← walleting (txout.isDust minRelayTxFee)
      require (dust = false) (.failed (dustReason nFeeRet recipient txout))
      let vout ← payees nFeeRet nSubtract (fFirst && !recipient.fSubtractFeeFromAmount) vecSend
      return txout :: vout

/-- The first recipient that pays the fee pays what the change lacks. -/
def takeDust (nDust : Int) : List CRecipient → List CTxOut → Creating (List CTxOut)
  | recipient :: vecSend, txout :: vout =>
      if recipient.fSubtractFeeFromAmount then do
        let nValue ← walleting (amount (txout.nValue - nDust))
        let txout := { txout with nValue }
        let dust ← walleting (txout.isDust minRelayTxFee)
        require (dust = false)
          (.failed "The transaction amount is too small to send after the fee has been deducted")
        return txout :: vout
      else (txout :: ·) <$> takeDust nDust vecSend vout
  | _, vout => .ok vout

def changeScript (turn : Turn) (coinControl : Option CCoinControl) : Creating CScript :=
  match coinControl.map CCoinControl.destChange, turn.reservedKey with
  | some (.keyID id), _ => .ok (getScriptForDestination (.keyID id))
  | some (.scriptID id), _ => .ok (getScriptForDestination (.scriptID id))
  | _, some id => .ok (getScriptForDestination (.keyID id))
  | _, none => .error .assertion

/-- Dust change is raised when recipients pay the fee. -/
def raiseChange (vecSend : List CRecipient) (newTxOut : CTxOut) (vout : List CTxOut) :
    Creating (CTxOut × List CTxOut) := do
  let dust ← walleting (newTxOut.isDust minRelayTxFee)
  if nSubtractFeeFromAmount vecSend > 0 ∧ dust = true then do
    let threshold ← walleting (newTxOut.getDustThreshold minRelayTxFee)
    let nDust := threshold - newTxOut.nValue
    let vout ← takeDust minRelayTxFee nDust vecSend vout
    return ({ newTxOut with nValue := newTxOut.nValue + nDust }, vout)
  else return (newTxOut, vout)

/-- The outputs with the change, and the fee with the change that is dust. -/
structure Filled where
  vout : List CTxOut
  nFeeRet : Int
  nChangePosRet : Int
  deriving DecidableEq, Repr

def placeChange (turn : Turn) (vecSend : List CRecipient) (coinControl : Option CCoinControl)
    (nChange nFeeRet : Int) (vout : List CTxOut) : Creating Filled :=
  if nChange > 0 then do
    let scriptChange ← changeScript turn coinControl
    let (newTxOut, vout) ← raiseChange minRelayTxFee vecSend ⟨nChange, scriptChange⟩ vout
    if ← walleting (newTxOut.isDust minRelayTxFee) then do
      let nFeeRet ← walleting (amount (nFeeRet + nChange))
      return ⟨vout, nFeeRet, -1⟩
    else
      let position := turn.changePosition % (vout.length + 1)
      return ⟨vout.insertIdx position newTxOut, nFeeRet, position⟩
  else .ok ⟨vout, nFeeRet, -1⟩

end Outputs

/-! ## The transaction -/

/-- The loop of `SignSignature`. -/
def signFrom (signSignature : WalletCoin → CTransaction → Nat → Option CScript) :
    List WalletCoin → Nat → CTransaction → Creating CTransaction
  | [], _, txNew => .ok txNew
  | coin :: setCoins, nIn, txNew =>
      match signSignature coin txNew nIn with
      | none => .error (.failed "Signing transaction failed")
      | some scriptSig => signFrom signSignature setCoins (nIn + 1)
          { txNew with vin := txNew.vin.modify nIn fun txin => { txin with scriptSig } }

/-- `CTxIn(coin.first->GetHash(), coin.second, CScript(), max() - 1)` -/
def coinInput (coin : WalletCoin) : CTxIn :=
  ⟨⟨coin.1, BitVec.ofNat 32 coin.2⟩, [], BitVec.ofNat 32 (2 ^ 32 - 2)⟩

/-- What is returned, and whether the rule for free transactions ended the loop. -/
structure Created where
  wtxNew : CTransaction
  nFeeRet : Int
  nChangePosRet : Int
  free : Bool
  deriving DecidableEq, Repr

section Create

variable (w : CWalletStore) (node : NodeView) (policy : FeePolicy) (vecSend : List CRecipient)
  (coinControl : Option CCoinControl)

/-- The amounts together. -/
def sendValueFrom (nValue : Int) : List CRecipient → Creating Int
  | [] => .ok nValue
  | recipient :: vecSend => do
      require (¬ (nValue < 0 ∨ recipient.nAmount < 0))
        (.failed "Transaction amounts must be positive")
      let nValue ← walleting (amount (nValue + recipient.nAmount))
      sendValueFrom nValue vecSend

def sendValue : Creating Int := do
  let nValue ← sendValueFrom 0 vecSend
  require (¬ (vecSend = [] ∨ nValue < 0)) (.failed "Transaction amounts must be positive")
  return nValue

/-- The fee is what the inputs have to pay when no recipient does. -/
def withFee (nValue nFeeRet : Int) : Walleting Int :=
  if nSubtractFeeFromAmount vecSend = 0 then amount (nValue + nFeeRet) else .ok nValue

/-- The part of a turn that builds the transaction. -/
def buildTransaction (turn : Turn) (nValue nFeeRet : Int) :
    Creating (CTransaction × Filled) := do
  let nTotalValue ← walleting (withFee vecSend nValue nFeeRet)
  let vout ← payees policy.minRelayTxFee nFeeRet (nSubtractFeeFromAmount vecSend) true vecSend
  let selected ← walleting (selectCoins w node turn nTotalValue coinControl)
  require (selected.enough = true) (.failed "Insufficient funds")
  let nChange ← walleting (amount (selected.nValueRet - nValue))
  let nChange ← walleting (withFee vecSend nChange (-nFeeRet))
  let filled ← placeChange policy.minRelayTxFee turn vecSend coinControl nChange nFeeRet vout
  let setCoins := inSetOrder turn.address selected.setCoinsRet
  let tx ← signFrom turn.signSignature setCoins 0
    ⟨1, setCoins.map coinInput, filled.vout, BitVec.ofInt 32 node.height⟩
  return (tx, filled)

/-- One turn of the fee loop: the transaction, or the fee to try next. -/
def createTurn (nValue : Int) (turn : Turn) (nFeeRet : Int) : Creating (Created ⊕ Int) := do
  let (tx, filled) ← buildTransaction w node policy vecSend coinControl turn nValue nFeeRet
  let nBytes := tx.serializeSize
  require (nBytes < maxStandardTxSize) (.failed "Transaction too large")
  if policy.fSendFreeTransactions = true ∧ nBytes ≤ maxFreeTransactionCreateSize ∧
      turn.priorityIsEnough tx nBytes = true then
    return .inl ⟨tx, filled.nFeeRet, filled.nChangePosRet, true⟩
  else do
    let nFeeNeeded := getMinimumFee policy nBytes
    require (¬ nFeeNeeded < policy.minRelayTxFee.getFee nBytes)
      (.failed "Transaction too large for fee policy")
    if filled.nFeeRet ≥ nFeeNeeded then
      return .inl ⟨tx, filled.nFeeRet, filled.nChangePosRet, false⟩
    else return .inr nFeeNeeded

/-- What comes before the fee loop. -/
def createStart : Creating Int := do
  let nValue ← sendValue vecSend
  require ((BitVec.ofInt 32 node.height).toNat < locktimeThreshold) .assertion
  return nValue

/-- `CreateTransaction` with a bound on the turns of its loop. -/
def createTransaction (turns : Nat → Turn) (fuel : Nat) : Option (Creating Created) :=
  match createStart node vecSend with
  | .error stop => some (.error stop)
  | .ok nValue => Turns.run
      (fun k nFeeRet => createTurn w node policy vecSend coinControl nValue (turns k) nFeeRet)
      fuel 0 0

end Create

end RoiCoin
