import RoiCoin.NextWork
import RoiCoin.Script.Interpreter
import RoiCoin.Validation.CheckBlock
import Mathlib.Data.List.Sort

/-! Checks of a header and of a block that need the chain below (`ContextualCheckBlockHeader`,
`ContextualCheckBlock`, `IsFinalTx`).

The entry that a header builds on comes with its ancestors, the nearest first. -/

namespace RoiCoin

open Checked

def rejectCheckpoint : Nat := 0x43

def isFinalTx (tx : CTransaction) (nBlockHeight nBlockTime : Int) : Bool :=
  let nLockTime : Int := tx.nLockTime.toNat
  if tx.nLockTime = 0 then true
  else if nLockTime < (if nLockTime < locktimeThreshold then nBlockHeight else nBlockTime) then true
  else tx.vin.all CTxIn.isFinal

/-- The middle of the last eleven times. -/
def getMedianTimePast (chain : List CBlockIndex) : Int :=
  let times := ((chain.take 11).map CBlockIndex.getBlockTime).insertionSort (· ≤ ·)
  times.getD (times.length / 2) 0

/-- `MapCheckpoints`, in the order of the heights. -/
abbrev MapCheckpoints := List (Int × Uint256)

def checkpointsCheckBlock (checkpoints : MapCheckpoints) (nHeight : Int) (hash : Uint256) : Bool :=
  match checkpoints.find? (fun checkpoint => checkpoint.1 == nHeight) with
  | none => true
  | some checkpoint => hash == checkpoint.2

def getLastCheckpoint (env : Environment) (checkpoints : MapCheckpoints) : Option CBlockIndex :=
  checkpoints.reverse.findSome? fun checkpoint => env.mapBlockIndex checkpoint.2

/-- The tests made with `fCheckpointsEnabled`. -/
def checkCheckpoints (env : Environment) (checkpoints : MapCheckpoints) (nHeight : Int)
    (hash : Uint256) : Checking Unit :=
  if env.fCheckpointsEnabled then do
    require (checkpointsCheckBlock checkpoints nHeight hash = true)
      (.invalid ⟨100, rejectCheckpoint, "checkpoint mismatch", false⟩)
    require (∀ pcheckpoint ∈ getLastCheckpoint env checkpoints, ¬ nHeight < pcheckpoint.nHeight)
      (.invalid ⟨100, 0, "", false⟩)
  else .ok ()

/-- The chain is empty where `pindexPrev` is null, which an assertion forbids. -/
def contextualCheckBlockHeader (env : Environment) (checkpoints : MapCheckpoints)
    (block : CBlockHeader) (chain : List CBlockIndex) : Checking Unit :=
  if env.blockHash block = env.params.hashGenesisBlock then .ok ()
  else
    match chain with
    | [] => .error .nullPointer
    | pindexPrev :: ancestors =>
        match getNextWorkRequired env.params block.getBlockTime pindexPrev ancestors with
        | none => .error .nullPointer
        | some nBits => do
            require (block.nBits = nBits) (dos 100 "bad-diffbits")
            require (¬ block.getBlockTime ≤ getMedianTimePast (pindexPrev :: ancestors))
              (dos 0 "time-too-old")
            checkCheckpoints env checkpoints (pindexPrev.nHeight + 1) (env.blockHash block)
            require (¬ block.nVersion.toInt < 4) (.invalid ⟨0, rejectObsolete, "bad-version", false⟩)

/-- `CScript() << nHeight` -/
def pushInt (n : Int) : CScript :=
  if n = -1 ∨ (1 ≤ n ∧ n ≤ 16) then [UInt8.ofNat (n + 0x50).toNat]
  else if n = 0 then [op0]
  else pushData (scriptNumSerialize n)

/-- `block.vtx[0].vin[0].scriptSig`, which `CheckBlock` has found to be there. -/
def CBlock.coinbaseScript (block : CBlock) : CScript :=
  ((block.vtx.head?).bind fun tx => tx.vin.head?).elim [] CTxIn.scriptSig

def contextualCheckBlock (env : Environment) (block : CBlock) (pindexPrev : Option CBlockIndex) :
    Checking Unit := do
  let nHeight := pindexPrev.elim 0 fun pindexPrev => pindexPrev.nHeight + 1
  each (fun tx => require (isFinalTx tx nHeight block.header.getBlockTime = true)
    (dos 10 "bad-txns-nonfinal")) block.vtx
  require ((block.header.nVersion.toInt ≥ 2 ∧
      isSuperMajority env 2 pindexPrev env.params.nMajorityEnforceBlockUpgrade = true) →
    (pushInt nHeight).isPrefixOf block.coinbaseScript = true) (dos 100 "bad-cb-height")

/-! ## Chains of accepted headers -/

/-- The entries of a chain, the tip first. A header was checked against the index as it was then;
the entries are linked in the index as it is now. -/
inductive CheckedHeaders (env : Environment) (checkpoints : MapCheckpoints) :
    List CBlockIndex → Prop
  | genesis (pindex : CBlockIndex) (first : env.parent pindex = none)
      (height : pindex.nHeight = 0) : CheckedHeaders env checkpoints [pindex]
  | next (earlier : Environment) (block : CBlockHeader) (pindex pindexPrev : CBlockIndex)
      (ancestors : List CBlockIndex)
      (below : CheckedHeaders env checkpoints (pindexPrev :: ancestors))
      (network : earlier.params = env.params ∧ earlier.blockHash = env.blockHash)
      (regular : env.blockHash block ≠ env.params.hashGenesisBlock)
      (passed : contextualCheckBlockHeader earlier checkpoints block (pindexPrev :: ancestors) =
        .ok ())
      (entry : pindex = .ofHeader block (some (env.blockHash block)) (some block.hashPrevBlock)
        (pindexPrev.nHeight + 1))
      (linked : env.parent pindex = some pindexPrev) :
      CheckedHeaders env checkpoints (pindex :: pindexPrev :: ancestors)

theorem contextualCheckBlockHeader_version (env : Environment) (checkpoints : MapCheckpoints)
    (block : CBlockHeader) (chain : List CBlockIndex)
    (regular : env.blockHash block ≠ env.params.hashGenesisBlock)
    (passed : contextualCheckBlockHeader env checkpoints block chain = .ok ()) :
    4 ≤ block.nVersion.toInt := by
  cases chain with
  | nil =>
      rw [contextualCheckBlockHeader, if_neg regular] at passed
      cases passed
  | cons pindexPrev ancestors =>
      rw [contextualCheckBlockHeader, if_neg regular] at passed
      split at passed
      · cases passed
      · simp only [then_ok, require_ok] at passed
        obtain ⟨-, -, -, version⟩ := passed
        omega

/-- Heights count the entries below. -/
theorem CheckedHeaders.height (env : Environment) (checkpoints : MapCheckpoints)
    (pindex : CBlockIndex) (ancestors : List CBlockIndex)
    (headers : CheckedHeaders env checkpoints (pindex :: ancestors)) :
    pindex.nHeight = ancestors.length := by
  generalize whole : pindex :: ancestors = chain at headers
  induction headers generalizing pindex ancestors with
  | genesis pindex _ height =>
      cases whole
      exact height
  | next _ block pindex pindexPrev ancestors _ _ _ _ entry _ ih =>
      cases whole
      have below := ih pindexPrev ancestors rfl
      rw [entry]
      simp only [CBlockIndex.ofHeader, below, List.length_cons]
      omega

/-- The loop counts every entry above the first one, up to the number required. -/
theorem superMajorityLoop_headers (env : Environment) (checkpoints : MapCheckpoints)
    (nRequired : Nat) (pindex : CBlockIndex) (ancestors : List CBlockIndex)
    (headers : CheckedHeaders env checkpoints (pindex :: ancestors)) (fuel nFound : Nat)
    (enough : nRequired ≤ nFound + ancestors.length) (window : nRequired ≤ nFound + fuel) :
    nRequired ≤ superMajorityLoop env 4 nRequired fuel nFound (some pindex) := by
  generalize whole : pindex :: ancestors = chain at headers
  induction headers generalizing pindex ancestors fuel nFound with
  | genesis pindex _ _ =>
      cases whole
      rw [List.length_nil] at enough
      cases fuel with
      | zero =>
          rw [superMajorityLoop]
          omega
      | succ fuel =>
          rw [superMajorityLoop, if_neg (by omega)]
          omega
  | next earlier block pindex pindexPrev ancestors _ network regular passed entry linked ih =>
      cases whole
      cases fuel with
      | zero =>
          rw [superMajorityLoop]
          omega
      | succ fuel =>
          rw [superMajorityLoop]
          split
          · have version : pindex.nVersion.toInt ≥ 4 := by
              rw [entry]
              apply contextualCheckBlockHeader_version earlier checkpoints block _ _ passed
              rw [network.1, network.2]
              exact regular
            rw [List.length_cons] at enough
            rw [if_pos version, linked]
            exact ih pindexPrev ancestors fuel (nFound + 1) (by omega) (by omega) rfl
          · omega

end RoiCoin
