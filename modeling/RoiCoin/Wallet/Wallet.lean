import RoiCoin.Script.Standard
import RoiCoin.Transaction
import RoiCoin.Validation.ContextualChecks
import RoiCoin.Wallet.SendMoney

/-! The transactions of a wallet, what it owns of them and what they are worth (`wallet/wallet.cpp`,
`wallet/wallet_ismine.cpp`).

`GetHash()` of a wallet transaction is a field of it; pointers into `mapWallet` are such hashes. A
`CAmount` that leaves 64 bits is a failure of its own, since the source gives it no value. -/

namespace RoiCoin

open Checked

/-- How a wallet function ends other than by returning. -/
inductive WalletFault where
  | script (fault : ScriptFault)
  /-- `vout[n]` past its end. -/
  | outOfRange
  /-- A `runtime_error` of a `MoneyRange` test. -/
  | valueOutOfRange (what : String)
  /-- A sum that does not fit `CAmount`. -/
  | overflow
  /-- A script hash that redeems itself. -/
  | endless
  deriving DecidableEq, Repr

abbrev Walleting := Except WalletFault

def fitsAmount (n : Int) : Prop := -2 ^ 63 ≤ n ∧ n < 2 ^ 63

instance (n : Int) : Decidable (fitsAmount n) := inferInstanceAs (Decidable (_ ∧ _))

/-- A `CAmount` after an addition or subtraction. -/
def amount (n : Int) : Walleting Int := if fitsAmount n then .ok n else .error .overflow

def liftFault {α : Type} : Except ScriptFault α → Walleting α
  | .ok a => .ok a
  | .error fault => .error (.script fault)

/-! ## The state -/

/-- `CWalletTx` with the fields of `CMerkleTx`; its outputs have passed `CheckTransaction`. -/
structure CWalletTx where
  tx : CTransaction
  hash : Uint256
  hashBlock : Uint256
  vMerkleBranch : List Uint256
  nIndex : Int
  fMerkleVerified : Bool
  inRange : ∀ txout ∈ tx.vout, moneyRange txout.nValue = true
  deriving DecidableEq

/-- The height and the root of an entry of `mapBlockIndex`, and whether the active chain has it. -/
structure IndexedBlock where
  nHeight : Int
  hashMerkleRoot : Uint256
  active : Bool
  deriving DecidableEq, Repr

/-- What the wallet sees of the node. -/
structure NodeView where
  pow : Int → Int → Int
  hash256 : Bytes → Bytes
  height : Int
  adjustedTime : Int
  mapBlockIndex : Uint256 → Option IndexedBlock
  mempoolExists : Uint256 → Bool

/-- `CKeyStore`; the scripts are those of `mapScripts`. -/
structure CKeyStore where
  haveKey : Uint160 → Bool
  haveWatchOnly : CScript → Bool
  mapScripts : List (Uint160 × CScript)

/-- The parts of `CWallet` that its coins depend on. -/
structure CWalletStore where
  mapWallet : List (Uint256 × CWalletTx)
  mapTxSpends : List (COutPoint × Uint256)
  setLockedCoins : List COutPoint
  keystore : CKeyStore
  hash160 : Bytes → Uint160
  fDatacarrier : Bool
  nMaxDatacarrierBytes : Nat
  bSpendZeroConfChange : Bool
  distinct : (mapWallet.map Prod.fst).Nodup
  keyed : ∀ entry ∈ mapWallet, entry.2.hash = entry.1

/-! ## Depth -/

namespace CWalletTx

variable (node : NodeView)

/-- `Hash(left, right)` -/
def hashPair (left right : Uint256) : Uint256 :=
  BitVec.ofNat 256 (readLE (node.hash256 (writeLE 32 left.toNat ++ writeLE 32 right.toNat)))

def checkMerkleBranch : Uint256 → List Uint256 → Int → Uint256
  | hash, [], _ => hash
  | hash, it :: vMerkleBranch, nIndex =>
      checkMerkleBranch
        (if nIndex % 2 = 1 then hashPair node it hash else hashPair node hash it)
        vMerkleBranch (nIndex / 2)

/-- `GetDepthInMainChainINTERNAL` -/
def getDepthInternal (wtx : CWalletTx) : Int :=
  if wtx.hashBlock = 0 ∨ wtx.nIndex = -1 then 0
  else
    match node.mapBlockIndex wtx.hashBlock with
    | none => 0
    | some pindex =>
        if !pindex.active then 0
        else if ¬ wtx.fMerkleVerified ∧ pindex.hashMerkleRoot ≠
            checkMerkleBranch node wtx.hash wtx.vMerkleBranch wtx.nIndex then 0
        else node.height - pindex.nHeight + 1

def getDepthInMainChain (wtx : CWalletTx) : Int :=
  let nResult := wtx.getDepthInternal node
  if nResult = 0 ∧ ¬ node.mempoolExists wtx.hash then -1 else nResult

def getBlocksToMaturity (wtx : CWalletTx) : Int :=
  if ¬ wtx.tx.isCoinBase then 0
  else max 0 (coinbaseMaturity + 1 - wtx.getDepthInMainChain node)

/-- `CheckFinalTx` -/
def checkFinalTx (wtx : CWalletTx) : Bool :=
  isFinalTx wtx.tx (node.height + 1) node.adjustedTime

/-- `vout[i]` -/
def output (wtx : CWalletTx) (i : Nat) : Walleting CTxOut :=
  match wtx.tx.vout[i]? with
  | some txout => .ok txout
  | none => .error .outOfRange

/-- `txout.GetValueWithInterest(outputBlockHeight, valuationHeight)` -/
def valueWithInterest (txout : CTxOut) (outputBlockHeight valuationHeight : Int) :
    Walleting Int :=
  liftFault (txout.getValueWithInterest node.pow node.height outputBlockHeight valuationHeight)

/-- The value of an output in the next block, as the wallet always writes it. -/
def nextValue (wtx : CWalletTx) (txout : CTxOut) : Walleting Int :=
  valueWithInterest node txout (node.height + 1 - wtx.getDepthInMainChain node) (node.height + 1)

end CWalletTx

/-! ## Ownership -/

inductive IsMineType where
  | no
  | watchOnly
  | spendable
  deriving DecidableEq, Repr

/-- `ISMINE_WATCH_ONLY`, `ISMINE_SPENDABLE` and `ISMINE_ALL` as filters. -/
inductive IsMineFilter where
  | watchOnly
  | spendable
  | all
  deriving DecidableEq, Repr

/-- `mine & filter` -/
def IsMineType.passes : IsMineType → IsMineFilter → Bool
  | .no, _ => false
  | .watchOnly, .spendable => false
  | .spendable, .watchOnly => false
  | _, _ => true

namespace CWalletStore

variable (w : CWalletStore) (node : NodeView)

/-- `CPubKey(vch).GetID()` -/
def pubKeyID (vch : Bytes) : Uint160 := w.hash160 (if isValidPubKey vch then vch else [])

/-- `HaveKeys` -/
def haveKeys (pubkeys : List Bytes) : Nat :=
  pubkeys.countP fun pubkey => w.keystore.haveKey (w.pubKeyID pubkey)

def getCScript (scriptID : Uint160) : Option CScript :=
  (w.keystore.mapScripts.find? fun entry => entry.1 == scriptID).map Prod.snd

def solve (scriptPubKey : CScript) : Walleting Solved :=
  liftFault (solver w.fDatacarrier w.nMaxDatacarrierBytes scriptPubKey)

def watchOnlyOrNo (scriptPubKey : CScript) : IsMineType :=
  if w.keystore.haveWatchOnly scriptPubKey then .watchOnly else .no

/-- `uint160(vSolutions[0])` -/
def firstSolution (solved : Solved) : Uint160 :=
  BitVec.ofNat 160 (readLE (solved.vSolutions.headD []))

/-- `IsMine` with a bound on the redeem scripts it goes through. -/
def isMineWithin : Nat → CScript → Walleting IsMineType
  | depth, scriptPubKey => do
      let solved ← w.solve scriptPubKey
      if !solved.found then return w.watchOnlyOrNo scriptPubKey
      else
        match solved.typeRet with
        | .nonstandard | .nullData => return w.watchOnlyOrNo scriptPubKey
        | .pubkey =>
            if w.keystore.haveKey (w.pubKeyID (solved.vSolutions.headD [])) then return .spendable
            else return w.watchOnlyOrNo scriptPubKey
        | .checklocktimeverify | .pubkeyhash =>
            if w.keystore.haveKey (firstSolution solved) then return .spendable
            else return w.watchOnlyOrNo scriptPubKey
        | .scripthash =>
            match w.getCScript (firstSolution solved) with
            | none => return w.watchOnlyOrNo scriptPubKey
            | some subscript =>
                match depth with
                | 0 => .error .endless
                | depth + 1 => do
                    let ret ← isMineWithin depth subscript
                    if ret = .spendable then return ret else return w.watchOnlyOrNo scriptPubKey
        | .multisig =>
            let keys := solved.vSolutions.tail.dropLast
            if w.haveKeys keys = keys.length then return .spendable
            else return w.watchOnlyOrNo scriptPubKey

/-- Every redeem script on the way is another one of the key store, or the call does not end. -/
def isMine (txout : CTxOut) : Walleting IsMineType :=
  w.isMineWithin w.keystore.mapScripts.length txout.scriptPubKey

def getWalletTx (hash : Uint256) : Option CWalletTx :=
  (w.mapWallet.find? fun entry => entry.1 == hash).map Prod.snd

/-- `IsSpent` -/
def isSpent (hash : Uint256) (n : Nat) : Bool :=
  w.mapTxSpends.any fun spend => spend.1 == ⟨hash, BitVec.ofNat 32 n⟩ &&
    (w.getWalletTx spend.2).any fun wtx => decide (wtx.getDepthInMainChain node ≥ 0)

/-! ## Debits -/

/-- The value of an input; a depth of zero stands for no interest. -/
def debitValue (prev : CWalletTx) (depthInMainChain : Int) (txout : CTxOut) : Walleting Int :=
  if depthInMainChain = 0 then CWalletTx.valueWithInterest node txout 0 0
  else CWalletTx.valueWithInterest node txout (node.height - prev.getDepthInMainChain node)
    (node.height - depthInMainChain)

/-- `GetDebit` of an input. -/
def inputDebit (filter : IsMineFilter) (depthInMainChain : Int) (txin : CTxIn) : Walleting Int :=
  match w.getWalletTx txin.prevout.hash with
  | none => .ok 0
  | some prev =>
      match prev.tx.vout[txin.prevout.n.toNat]? with
      | none => .ok 0
      | some txout => do
          let mine ← w.isMine txout
          if mine.passes filter then debitValue node prev depthInMainChain txout else return 0

/-- `GetDebit` of a transaction, from the sum so far. -/
def debitFrom (filter : IsMineFilter) (nDepth : Int) (nDebit : Int) : List CTxIn → Walleting Int
  | [] => .ok nDebit
  | txin :: vin => do
      let debit ← w.inputDebit node filter nDepth txin
      let nDebit ← amount (nDebit + debit)
      require (moneyRange nDebit = true)
        (.valueOutOfRange "CWallet::GetDebit(): value out of range")
      debitFrom filter nDepth nDebit vin

/-- `IsFromMe(ISMINE_ALL)` -/
def isFromMe (wtx : CWalletTx) : Walleting Bool :=
  if wtx.tx.vin = [] then .ok false
  else do
    let nDepth := wtx.getDepthInMainChain node
    let spendable ← w.debitFrom node .spendable nDepth 0 wtx.tx.vin
    let watchOnly ← w.debitFrom node .watchOnly nDepth 0 wtx.tx.vin
    let debit ← amount (spendable + watchOnly)
    return decide (debit > 0)

/-! ## Trust -/

/-- The loop of `IsTrusted` over the inputs. -/
def parentsMine : List CTxIn → Walleting Bool
  | [] => .ok true
  | txin :: vin =>
      match w.getWalletTx txin.prevout.hash with
      | none => .ok false
      | some parent => do
          let parentOut ← parent.output txin.prevout.n.toNat
          let mine ← w.isMine parentOut
          if mine ≠ .spendable then return false else parentsMine vin

def isTrusted (wtx : CWalletTx) : Walleting Bool :=
  if !wtx.checkFinalTx node then .ok false
  else
    let nDepth := wtx.getDepthInMainChain node
    if nDepth ≥ 1 then .ok true
    else if nDepth < 0 then .ok false
    else if !w.bSpendZeroConfChange then .ok false
    else do
      if !(← w.isFromMe node wtx) then return false else w.parentsMine wtx.tx.vin

end CWalletStore

end RoiCoin
