import RoiCoin.Validation.MerkleBranch
import RoiCoin.Wallet.AvailableCoins

/-! The cached credits of wallet transactions, and what the wallet hears of the node
(`GetImmatureCredit` and its siblings, `AddToWallet`, `SyncTransaction`, `MarkDirty`).

A cache flag that is not set is `none`. Transactions that a caller hands to `AddToWallet` come from
their constructor and have no caches yet. -/

namespace RoiCoin

open Checked

/-- The getters with a flag and a value of their own. -/
inductive CreditGetter where
  | immature
  | available
  | immatureWatchOnly
  | availableWatchOnly
  deriving DecidableEq, Repr

namespace CreditGetter

def filter : CreditGetter → IsMineFilter
  | .immature | .available => .spendable
  | .immatureWatchOnly | .availableWatchOnly => .watchOnly

/-- The text of the range test; the watch-only getter throws that of its sibling. -/
def thrown : CreditGetter → String
  | .immature | .immatureWatchOnly => "CWallet::GetCredit(): value out of range"
  | .available | .availableWatchOnly => "CWalletTx::GetAvailableCredit() : value out of range"

end CreditGetter

/-- The getter does not answer zero at once. -/
def CWalletTx.offers (node : NodeView) (wtx : CWalletTx) (getter : CreditGetter) : Bool :=
  let immature := wtx.tx.isCoinBase && decide (wtx.getBlocksToMaturity node > 0)
  match getter with
  | .immature | .immatureWatchOnly => immature && decide (wtx.getDepthInternal node > 0)
  | .available | .availableWatchOnly => !immature

namespace CWalletStore

variable (w : CWalletStore) (node : NodeView)

/-! ## The credits -/

/-- What one output adds to `GetAvailableWatchOnlyCredit`, also while it is locked. -/
def availableWatchOnlyCredit (wtx : CWalletTx) (entry : CTxOut × Nat) : Walleting (Option Int) :=
  if w.isSpent node wtx.hash entry.2 then .ok none
  else some <$> w.getCredit node wtx entry.1 .watchOnly

def outputCredit (getter : CreditGetter) (wtx : CWalletTx) (entry : CTxOut × Nat) :
    Walleting (Option Int) :=
  match getter with
  | .immature => some <$> w.getCredit node wtx entry.1 .spendable
  | .available => w.availableCredit node wtx entry
  | .immatureWatchOnly => some <$> w.getCredit node wtx entry.1 .watchOnly
  | .availableWatchOnly => w.availableWatchOnlyCredit node wtx entry

/-- One turn of the loop over the outputs. -/
def addCredit (getter : CreditGetter) (wtx : CWalletTx) (nCredit : Int) (entry : CTxOut × Nat) :
    Walleting Int := do
  match ← w.outputCredit node getter wtx entry with
  | none => return nCredit
  | some credit => do
      let nCredit ← amount (nCredit + credit)
      require (moneyRange nCredit = true) (.valueOutOfRange getter.thrown)
      return nCredit

/-- The amount a getter computes. -/
def credit (getter : CreditGetter) (wtx : CWalletTx) : Walleting Int :=
  wtx.tx.vout.zipIdx.foldlM (w.addCredit node getter wtx) 0

/-! ## The maps -/

/-- `mapWallet[hash] = wtx` for a transaction that is there. -/
def assign (wtx : CWalletTx) : CWalletStore :=
  { w with
    mapWallet := w.mapWallet.map fun entry =>
      if entry.1 = wtx.hash then (wtx.hash, wtx) else entry
    distinct := by
      have same : (w.mapWallet.map fun entry =>
          if entry.1 = wtx.hash then (wtx.hash, wtx) else entry).map Prod.fst =
            w.mapWallet.map Prod.fst := by
        rw [List.map_map]
        apply List.map_congr_left
        intro entry _
        simp only [Function.comp_apply]
        split
        · rename_i here
          exact here.symm
        · rfl
      rw [same]
      exact w.distinct
    keyed := by
      intro entry member
      obtain ⟨before, inside, rfl⟩ := List.mem_map.mp member
      split
      · rfl
      · exact w.keyed before inside }

/-- `mapWallet.insert` of a transaction that is not there. -/
def insert (wtx : CWalletTx) (fresh : wtx.hash ∉ w.mapWallet.map Prod.fst) : CWalletStore :=
  { w with
    mapWallet := (wtx.hash, wtx) :: w.mapWallet
    distinct := List.nodup_cons.mpr ⟨fresh, w.distinct⟩
    keyed := by
      intro entry member
      rcases List.mem_cons.mp member with rfl | later
      · rfl
      · exact w.keyed entry later }

/-- `AddToSpends` of a transaction. -/
def addToSpends (wtx : CWalletTx) : CWalletStore :=
  if wtx.tx.isCoinBase then w
  else { w with
    mapTxSpends := (wtx.tx.vin.map fun txin => (txin.prevout, wtx.hash)) ++ w.mapTxSpends }

/-- The merge of `AddToWallet`. -/
def merged (wtx wtxIn : CWalletTx) : CWalletTx :=
  let wtx :=
    if wtxIn.hashBlock ≠ 0 ∧ wtxIn.hashBlock ≠ wtx.hashBlock then
      { wtx with hashBlock := wtxIn.hashBlock }
    else wtx
  if wtxIn.nIndex ≠ -1 ∧ (wtxIn.vMerkleBranch ≠ wtx.vMerkleBranch ∨ wtxIn.nIndex ≠ wtx.nIndex) then
    { wtx with vMerkleBranch := wtxIn.vMerkleBranch, nIndex := wtxIn.nIndex }
  else wtx

/-- `IsMine` of a transaction. -/
def ownsOutput : List CTxOut → Walleting Bool
  | [] => .ok false
  | txout :: vout => do
      if (← w.isMine txout) ≠ .no then return true else ownsOutput vout

/-- `IsMine(tx) || IsFromMe(tx)`; the debit is taken without interest. -/
def involves (tx : CTransaction) : Walleting Bool := do
  if ← w.ownsOutput tx.vout then return true
  else return decide ((← w.debitFrom node .all 0 0 tx.vin) > 0)

/-- `mapWallet` has no such transaction. -/
def Fresh (hash : Uint256) : Prop := hash ∉ w.mapWallet.map Prod.fst

instance (hash : Uint256) : Decidable (w.Fresh hash) :=
  decidable_of_iff (¬ (w.mapWallet.map Prod.fst).contains hash = true)
    (not_congr List.contains_iff_mem)

end CWalletStore

/-! ## The state -/

abbrev CachedCredits := CreditGetter → Option Int

/-- `MarkDirty` of a transaction. -/
def CachedCredits.markDirty (cached : CachedCredits) : CachedCredits :=
  fun getter => if getter = .immature then cached getter else none

structure WalletState where
  store : CWalletStore
  node : NodeView
  cached : Uint256 → CachedCredits

/-- A transaction as the node hands it to the wallet, with its hash. -/
structure NoticedTx where
  tx : CTransaction
  hash : Uint256
  inRange : ∀ txout ∈ tx.vout, moneyRange txout.nValue = true

/-- What the wallet reads of a block. -/
structure NoticedBlock where
  hash : Uint256
  hashMerkleRoot : Uint256
  vtx : List NoticedTx

namespace WalletState

variable (st : WalletState)

def setCached (hash : Uint256) (cached : CachedCredits) : WalletState :=
  { st with cached := fun other => if other = hash then cached else st.cached other }

/-- The four getters; which flag and value, and which outputs, is the getter's. -/
def creditOf (getter : CreditGetter) (wtx : CWalletTx) (fUseCache : Bool) :
    Walleting (Int × WalletState) :=
  if !wtx.offers st.node getter then .ok (0, st)
  else
    match if fUseCache then st.cached wtx.hash getter else none with
    | some nCached => .ok (nCached, st)
    | none => do
        let nCredit ← st.store.credit st.node getter wtx
        return (nCredit, st.setCached wtx.hash
          (Function.update (st.cached wtx.hash) getter (some nCredit)))

def getImmatureCredit (wtx : CWalletTx) (fUseCache : Bool) : Walleting (Int × WalletState) :=
  st.creditOf .immature wtx fUseCache

def getAvailableCredit (wtx : CWalletTx) (fUseCache : Bool) : Walleting (Int × WalletState) :=
  st.creditOf .available wtx fUseCache

def getImmatureWatchOnlyCredit (wtx : CWalletTx) (fUseCache : Bool) :
    Walleting (Int × WalletState) :=
  st.creditOf .immatureWatchOnly wtx fUseCache

def getAvailableWatchOnlyCredit (wtx : CWalletTx) (fUseCache : Bool) :
    Walleting (Int × WalletState) :=
  st.creditOf .availableWatchOnly wtx fUseCache

/-! ## Events -/

/-- `MarkDirty` of the wallet; a cache of no transaction stands for nothing. -/
def markDirty : WalletState := { st with cached := fun hash => (st.cached hash).markDirty }

def markTxDirty (hash : Uint256) : WalletState := st.setCached hash (st.cached hash).markDirty

/-- `mapWallet.insert`, or `mapWallet[hash] = wtx` when it is there. -/
def put (wtx : CWalletTx) : CWalletStore :=
  if fresh : st.store.Fresh wtx.hash then st.store.insert wtx fresh
  else st.store.assign wtx

/-- `AddToWallet`; `written` is whether `WriteToDisk` succeeds where it is called. -/
def addToWallet (wtxIn : CWalletTx) (fFromLoadWallet written : Bool) : Bool × WalletState :=
  if fFromLoadWallet then
    (true, { st with store := (st.put wtxIn).addToSpends wtxIn }.setCached wtxIn.hash fun _ => none)
  else
    match st.store.getWalletTx wtxIn.hash with
    | none =>
        (written,
          { st with store := (st.put wtxIn).addToSpends wtxIn }.setCached wtxIn.hash fun _ => none)
    | some wtx =>
        (written,
          { st with store := st.store.assign (CWalletStore.merged wtx wtxIn) }.markTxDirty wtxIn.hash)

/-- The first position of the transaction in the block. -/
def blockPosition (block : NoticedBlock) (tx : NoticedTx) : Option Nat :=
  block.vtx.findIdx? fun other => other.hash == tx.hash

/-- `CWalletTx(this, tx)` with `SetMerkleBranch` for a transaction in a block. -/
def walletTx (tx : NoticedTx) (pblock : Option NoticedBlock) : CWalletTx :=
  let wtx : CWalletTx := ⟨tx.tx, tx.hash, 0, [], -1, false, tx.inRange⟩
  match pblock with
  | none => wtx
  | some block =>
      match blockPosition block tx with
      | none => { wtx with hashBlock := block.hash }
      | some nIndex =>
          { wtx with
            hashBlock := block.hash
            vMerkleBranch := (getMerkleBranch (CWalletTx.hashPair st.node)
              (block.vtx.map NoticedTx.hash) [] nIndex).getD []
            nIndex := nIndex }

/-- `fExisted || IsMine(tx) || IsFromMe(tx)` -/
def concerns (tx : NoticedTx) : Walleting Bool :=
  if (st.store.getWalletTx tx.hash).isSome then .ok true else st.store.involves st.node tx.tx

/-- `AddToWalletIfInvolvingMe` -/
def addIfInvolvingMe (tx : NoticedTx) (pblock : Option NoticedBlock) (written : Bool) :
    Walleting (Bool × WalletState) := do
  let ours ← st.concerns tx
  if ours then return st.addToWallet (st.walletTx tx pblock) false written
  else return (false, st)

/-- The loop that marks the transactions an added one spends. -/
def markInputsDirty (st : WalletState) : List CTxIn → WalletState
  | [] => st
  | txin :: vin => markInputsDirty (st.markTxDirty txin.prevout.hash) vin

def syncTransaction (tx : NoticedTx) (pblock : Option NoticedBlock) (written : Bool) :
    Walleting WalletState := do
  let (ours, st) ← st.addIfInvolvingMe tx pblock written
  if ours then return st.markInputsDirty tx.tx.vin else return st

/-- The notices of one change of the node, in order; one that throws ends them. -/
def notify (written : Uint256 → Bool) (st : WalletState) :
    List (NoticedTx × Option NoticedBlock) → WalletState
  | [] => st
  | (tx, pblock) :: rest =>
      match st.syncTransaction tx pblock (written tx.hash) with
      | .ok st => notify written st rest
      | .error _ => st

/-- A test of the depth that finds the Merkle branch right keeps that in `fMerkleVerified`. -/
def merkleVerified (wtx : CWalletTx) : WalletState :=
  match st.node.mapBlockIndex wtx.hashBlock with
  | none => st
  | some pindex =>
      if wtx.hashBlock ≠ 0 ∧ wtx.nIndex ≠ -1 ∧ pindex.active = true ∧ pindex.hashMerkleRoot =
          CWalletTx.checkMerkleBranch st.node wtx.hash wtx.vMerkleBranch wtx.nIndex then
        { st with store := st.store.assign { wtx with fMerkleVerified := true } }
      else st

/-- The chain with one more block. -/
def extended (block : NoticedBlock) (mempoolExists : Uint256 → Bool) : NodeView :=
  { st.node with
    height := st.node.height + 1
    mapBlockIndex := Function.update st.node.mapBlockIndex block.hash
      (some ⟨st.node.height + 1, block.hashMerkleRoot, true⟩)
    mempoolExists := mempoolExists }

/-- The chain without its last block. -/
def shortened (block : NoticedBlock) (mempoolExists : Uint256 → Bool) : NodeView :=
  { st.node with
    height := st.node.height - 1
    mapBlockIndex := Function.update st.node.mapBlockIndex block.hash
      ((st.node.mapBlockIndex block.hash).map fun pindex => { pindex with active := false })
    mempoolExists := mempoolExists }

end WalletState

inductive WalletEvent where
  | get (getter : CreditGetter) (hash : Uint256) (fUseCache : Bool)
  | markDirty
  | addToWallet (wtxIn : CWalletTx) (fFromLoadWallet written : Bool)
  | syncTransaction (tx : NoticedTx) (pblock : Option NoticedBlock) (written : Bool)
  | merkleVerified (hash : Uint256)
  /-- A transaction enters the memory pool. -/
  | accept (tx : NoticedTx) (mempoolExists : Uint256 → Bool) (written : Bool)
  | connectTip (block : NoticedBlock) (mempoolExists : Uint256 → Bool)
      (txConflicted : List NoticedTx) (written : Uint256 → Bool)
  | disconnectTip (block : NoticedBlock) (mempoolExists : Uint256 → Bool)
      (written : Uint256 → Bool)

namespace WalletState

/-- An event that throws leaves what it has done. -/
def step (st : WalletState) : WalletEvent → WalletState
  | .get getter hash fUseCache =>
      match st.store.getWalletTx hash with
      | none => st
      | some wtx =>
          match st.creditOf getter wtx fUseCache with
          | .ok (_, st) => st
          | .error _ => st
  | .markDirty => st.markDirty
  | .addToWallet wtxIn fFromLoadWallet written =>
      (st.addToWallet wtxIn fFromLoadWallet written).2
  | .syncTransaction tx pblock written => st.notify (fun _ => written) [(tx, pblock)]
  | .merkleVerified hash =>
      match st.store.getWalletTx hash with
      | none => st
      | some wtx => st.merkleVerified wtx
  | .accept tx mempoolExists written =>
      { st with node := { st.node with mempoolExists } }.notify (fun _ => written) [(tx, none)]
  | .connectTip block mempoolExists txConflicted written =>
      { st with node := st.extended block mempoolExists }.notify written
        (txConflicted.map (fun tx => (tx, none)) ++ block.vtx.map fun tx => (tx, some block))
  | .disconnectTip block mempoolExists written =>
      { st with node := st.shortened block mempoolExists }.notify written
        (block.vtx.map fun tx => (tx, none))

end WalletState

end RoiCoin
