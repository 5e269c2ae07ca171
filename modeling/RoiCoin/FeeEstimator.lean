import RoiCoin.Lib.Runs
import RoiCoin.Lib.Tally

/-! The counters of the unconfirmed transactions in the fee estimator (`policy/fees.h`,
`policy/fees.cpp`).

What the comparisons of `double`s decide comes with a transaction: for which statistic it is a data
point, and the bucket that `bucketMap` gives. The moving averages are left out, and a vector is a
function of its indices. -/

namespace RoiCoin

/-- `unconfTxs` and `oldUnconfTxs`. `Read` takes between 1 and 1008 confirms. -/
structure TxConfirmStats where
  maxConfirms : Nat
  unconfTxs : Nat → Nat → Nat
  oldUnconfTxs : Nat → Nat
  confirms : 0 < maxConfirms ∧ maxConfirms ≤ 1008

/-- The error messages of `TxConfirmStats::removeTx`. -/
inductive CounterError where
  | blocksAgoNegative
  | removedFromOld (bucketindex : Nat)
  | removedFromSlot (blockIndex bucketindex : Nat)
  deriving DecidableEq, Repr

/-- `MAX_BLOCK_CONFIRMS` -/
def maxBlockConfirms : Nat := 25

namespace TxConfirmStats

/-- After `Initialize` or `Read`. -/
def initial (maxConfirms : Nat) (confirms : 0 < maxConfirms ∧ maxConfirms ≤ 1008) :
    TxConfirmStats :=
  ⟨maxConfirms, fun _ _ => 0, fun _ => 0, confirms⟩

def slot (stats : TxConfirmStats) (nBlockHeight : BitVec 32) : Nat :=
  nBlockHeight.toNat % stats.maxConfirms

def clearCurrent (stats : TxConfirmStats) (nBlockHeight : BitVec 32) : TxConfirmStats :=
  { stats with
    oldUnconfTxs := fun j => stats.oldUnconfTxs j + stats.unconfTxs (stats.slot nBlockHeight) j
    unconfTxs := Function.update stats.unconfTxs (stats.slot nBlockHeight) fun _ => 0 }

/-- `unconfTxs[blockIndex][bucketindex] = count` -/
def setUnconf (stats : TxConfirmStats) (blockIndex bucketindex count : Nat) : TxConfirmStats :=
  { stats with
    unconfTxs := Function.update stats.unconfTxs blockIndex
      (Function.update (stats.unconfTxs blockIndex) bucketindex count) }

def newTx (stats : TxConfirmStats) (nBlockHeight : BitVec 32) (bucketindex : Nat) :
    TxConfirmStats :=
  let blockIndex := stats.slot nBlockHeight
  stats.setUnconf blockIndex bucketindex (stats.unconfTxs blockIndex bucketindex + 1)

/-- The variable `blocksAgo`: the difference of two `unsigned int` as an `int`. -/
def blocksAgo (nBestSeenHeight entryHeight : BitVec 32) : Int :=
  if nBestSeenHeight = 0 then 0 else (nBestSeenHeight - entryHeight).toInt

def removeTx (stats : TxConfirmStats) (entryHeight nBestSeenHeight : BitVec 32)
    (bucketindex : Nat) : TxConfirmStats × Option CounterError :=
  if blocksAgo nBestSeenHeight entryHeight < 0 then (stats, some .blocksAgoNegative)
  else if blocksAgo nBestSeenHeight entryHeight ≥ stats.maxConfirms then
    if stats.oldUnconfTxs bucketindex > 0 then
      ({ stats with
        oldUnconfTxs :=
          Function.update stats.oldUnconfTxs bucketindex (stats.oldUnconfTxs bucketindex - 1) }, none)
    else (stats, some (.removedFromOld bucketindex))
  else
    let blockIndex := stats.slot entryHeight
    if stats.unconfTxs blockIndex bucketindex > 0 then
      (stats.setUnconf blockIndex bucketindex (stats.unconfTxs blockIndex bucketindex - 1), none)
    else (stats, some (.removedFromSlot blockIndex bucketindex))

end TxConfirmStats

/-! ## The estimator -/

inductive Statistic where
  | feeStats
  | priStats
  deriving DecidableEq, Repr

structure TxStatsInfo where
  stats : Option Statistic
  blockHeight : BitVec 32
  bucketIndex : Nat
  deriving DecidableEq

def TxStatsInfo.new : TxStatsInfo := ⟨none, 0, 0⟩

/-- What `processTransaction` uses of a `CTxMemPoolEntry`, and what it decides with `double`s:
`priBucket` of a transaction with no fee or with `isPriDataPoint`, `feeBucket` of one with
`isFeeDataPoint`. -/
structure EstimatorEntry (TxId : Type) where
  hash : TxId
  height : BitVec 32
  wasClearAtEntry : Bool
  priBucket : Option Nat
  feeBucket : Option Nat

structure CBlockPolicyEstimator (TxId : Type) where
  nBestSeenHeight : BitVec 32
  mapMemPoolTxs : AList fun _ : TxId => TxStatsInfo
  stats : Statistic → TxConfirmStats

namespace CBlockPolicyEstimator

variable {TxId : Type} [DecidableEq TxId]

/-- `mapMemPoolTxs[hash] = info` -/
def note (estimator : CBlockPolicyEstimator TxId) (hash : TxId) (info : TxStatsInfo) :
    CBlockPolicyEstimator TxId :=
  { estimator with mapMemPoolTxs := estimator.mapMemPoolTxs.insert hash info }

/-- Write the entry of the transaction, and count it. -/
def record (estimator : CBlockPolicyEstimator TxId) (hash : TxId) (statistic : Statistic)
    (txHeight : BitVec 32) (bucketIndex : Nat) : CBlockPolicyEstimator TxId :=
  { estimator.note hash ⟨some statistic, txHeight, bucketIndex⟩ with
    stats := Function.update estimator.stats statistic
      ((estimator.stats statistic).newTx txHeight bucketIndex) }

/-- `operator[]` of the map makes an entry, also where nothing is recorded. -/
def processTransaction (estimator : CBlockPolicyEstimator TxId) (entry : EstimatorEntry TxId)
    (fCurrentEstimate : Bool) : CBlockPolicyEstimator TxId :=
  let info := (estimator.mapMemPoolTxs.lookup entry.hash).getD TxStatsInfo.new
  if info.stats ≠ none then estimator.note entry.hash info
  else if entry.height < estimator.nBestSeenHeight then estimator.note entry.hash info
  else if !fCurrentEstimate then estimator.note entry.hash info
  else if !entry.wasClearAtEntry then estimator.note entry.hash info
  else
    match entry.priBucket, entry.feeBucket with
    | some bucketIndex, _ => estimator.record entry.hash .priStats entry.height bucketIndex
    | none, some bucketIndex => estimator.record entry.hash .feeStats entry.height bucketIndex
    | none, none => estimator.note entry.hash { info with blockHeight := entry.height }

def removeTx (estimator : CBlockPolicyEstimator TxId) (hash : TxId) :
    CBlockPolicyEstimator TxId × Option CounterError :=
  match estimator.mapMemPoolTxs.lookup hash with
  | none => (estimator, none)
  | some info =>
      let erased := { estimator with mapMemPoolTxs := estimator.mapMemPoolTxs.erase hash }
      match info.stats with
      | none => (erased, none)
      | some statistic =>
          let removed := (estimator.stats statistic).removeTx info.blockHeight
            estimator.nBestSeenHeight info.bucketIndex
          ({ erased with stats := Function.update estimator.stats statistic removed.1 }, removed.2)

/-- `processBlock` without the cutoffs and the averages. -/
def processBlock (estimator : CBlockPolicyEstimator TxId) (nBlockHeight : BitVec 32)
    (fCurrentEstimate : Bool) : CBlockPolicyEstimator TxId :=
  if nBlockHeight ≤ estimator.nBestSeenHeight then estimator
  else if !fCurrentEstimate then { estimator with nBestSeenHeight := nBlockHeight }
  else
    { estimator with
      nBestSeenHeight := nBlockHeight
      stats := fun statistic => (estimator.stats statistic).clearCurrent nBlockHeight }

end CBlockPolicyEstimator

/-! ## Runs -/

/-- The estimator, the height of the chain and the errors so far. -/
structure EstimatorRun (TxId : Type) where
  estimator : CBlockPolicyEstimator TxId
  chainHeight : Nat
  errors : List CounterError

/-- A transaction enters the pool at the height of the chain; a block is connected or disconnected. -/
inductive EstimatorStep (TxId : Type) where
  | processTransaction (hash : TxId) (wasClearAtEntry : Bool) (priBucket feeBucket : Option Nat)
      (fCurrentEstimate : Bool)
  | removeTx (hash : TxId)
  | connect (fCurrentEstimate : Bool)
  | disconnect

namespace EstimatorRun

variable {TxId : Type} [DecidableEq TxId]

/-- `nBestSeenHeight` is what the estimates file has. -/
def start (nFileBestSeenHeight : BitVec 32) (chainHeight : Nat)
    (stats : Statistic → TxConfirmStats) : EstimatorRun TxId :=
  ⟨⟨nFileBestSeenHeight, ∅, stats⟩, chainHeight, []⟩

def next (run : EstimatorRun TxId) : EstimatorStep TxId → EstimatorRun TxId
  | .processTransaction hash wasClearAtEntry priBucket feeBucket fCurrentEstimate =>
      let entry := ⟨hash, BitVec.ofNat 32 run.chainHeight, wasClearAtEntry, priBucket, feeBucket⟩
      { run with estimator := run.estimator.processTransaction entry fCurrentEstimate }
  | .removeTx hash =>
      let removed := run.estimator.removeTx hash
      { run with estimator := removed.1, errors := run.errors ++ removed.2.toList }
  | .connect fCurrentEstimate =>
      { run with
        estimator :=
          run.estimator.processBlock (BitVec.ofNat 32 (run.chainHeight + 1)) fCurrentEstimate
        chainHeight := run.chainHeight + 1 }
  | .disconnect => { run with chainHeight := run.chainHeight - 1 }

/-- No error, and the counters of every bucket add up to the entries recorded for it. -/
def Bookkeeping (run : EstimatorRun TxId) : Prop :=
  run.errors = [] ∧ ∀ statistic bucketIndex,
    (∑ blockIndex ∈ Finset.range (run.estimator.stats statistic).maxConfirms,
      (run.estimator.stats statistic).unconfTxs blockIndex bucketIndex) +
      (run.estimator.stats statistic).oldUnconfTxs bucketIndex =
    (Tally.values run.estimator.mapMemPoolTxs).countP fun info =>
      info.stats = some statistic && info.bucketIndex == bucketIndex

end EstimatorRun

end RoiCoin
