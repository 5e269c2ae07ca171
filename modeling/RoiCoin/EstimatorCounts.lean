import RoiCoin.FeeEstimator

/-! Where the counters of the fee estimator have each transaction, and the steps that keep it so. -/

namespace RoiCoin

namespace TxConfirmStats

/-- The transaction is counted in `oldUnconfTxs`. -/
def isOld (maxConfirms : Nat) (nBestSeenHeight height : BitVec 32) : Bool :=
  decide ((maxConfirms : Int) ≤ blocksAgo nBestSeenHeight height)

/-- Every transaction, with its height and bucket, is counted where `removeTx` looks for it. -/
structure Placed (stats : TxConfirmStats) (nBestSeenHeight : BitVec 32)
    (tracked : List (BitVec 32 × Nat)) : Prop where
  old : ∀ bucket, stats.oldUnconfTxs bucket = tracked.countP fun item =>
    item.2 == bucket && isOld stats.maxConfirms nBestSeenHeight item.1
  unconf : ∀ blockIndex bucket, stats.unconfTxs blockIndex bucket = tracked.countP fun item =>
    (item.2 == bucket && !isOld stats.maxConfirms nBestSeenHeight item.1) &&
      stats.slot item.1 == blockIndex

theorem setUnconf_unconf (stats : TxConfirmStats) (blockIndex bucketindex count : Nat)
    (i j : Nat) : (stats.setUnconf blockIndex bucketindex count).unconfTxs i j =
      if i = blockIndex ∧ j = bucketindex then count else stats.unconfTxs i j := by
  by_cases row : i = blockIndex
  · subst row
    by_cases column : j = bucketindex
    · simp [setUnconf, column]
    · simp [setUnconf, column]
  · simp [setUnconf, row]

theorem clearCurrent_unconf (stats : TxConfirmStats) (nBlockHeight : BitVec 32) (i j : Nat) :
    (stats.clearCurrent nBlockHeight).unconfTxs i j =
      if i = stats.slot nBlockHeight then 0 else stats.unconfTxs i j := by
  by_cases row : i = stats.slot nBlockHeight <;> simp [clearCurrent, row]

@[simp] theorem clearCurrent_maxConfirms (stats : TxConfirmStats) (nBlockHeight : BitVec 32) :
    (stats.clearCurrent nBlockHeight).maxConfirms = stats.maxConfirms := rfl

@[simp] theorem clearCurrent_slot (stats : TxConfirmStats) (nBlockHeight height : BitVec 32) :
    (stats.clearCurrent nBlockHeight).slot height = stats.slot height := rfl

theorem slot_lt (stats : TxConfirmStats) (height : BitVec 32) :
    stats.slot height < stats.maxConfirms := Nat.mod_lt _ stats.confirms.1

theorem placed_initial (maxConfirms : Nat) (confirms : 0 < maxConfirms ∧ maxConfirms ≤ 1008)
    (nBestSeenHeight : BitVec 32) :
    (initial maxConfirms confirms).Placed nBestSeenHeight [] := ⟨fun _ => rfl, fun _ _ => rfl⟩

theorem placed_perm (stats : TxConfirmStats) (nBestSeenHeight : BitVec 32)
    (tracked others : List (BitVec 32 × Nat)) (same : tracked.Perm others)
    (placed : stats.Placed nBestSeenHeight tracked) : stats.Placed nBestSeenHeight others where
  old bucket := (placed.old bucket).trans (same.countP_eq _)
  unconf blockIndex bucket := (placed.unconf blockIndex bucket).trans (same.countP_eq _)

/-- The counters of a bucket add up to its transactions. -/
theorem placed_total (stats : TxConfirmStats) (nBestSeenHeight : BitVec 32)
    (tracked : List (BitVec 32 × Nat)) (placed : stats.Placed nBestSeenHeight tracked)
    (bucket : Nat) :
    (∑ blockIndex ∈ Finset.range stats.maxConfirms, stats.unconfTxs blockIndex bucket) +
      stats.oldUnconfTxs bucket = tracked.countP fun item => item.2 == bucket := by
  have slots := Tally.countP_sorted
    (fun item => item.2 == bucket && !isOld stats.maxConfirms nBestSeenHeight item.1)
    (fun item => stats.slot item.1) stats.maxConfirms tracked
    (fun item _ => stats.slot_lt item.1)
  have parts := Tally.countP_or (fun item : BitVec 32 × Nat => item.2 == bucket)
    (fun item => isOld stats.maxConfirms nBestSeenHeight item.1) (fun _ => true) tracked
  simp only [Bool.and_true, Bool.or_true] at parts
  simp only [placed.unconf, slots, placed.old]
  omega

theorem newTx_placed (stats : TxConfirmStats) (nBestSeenHeight height : BitVec 32) (bucket : Nat)
    (tracked : List (BitVec 32 × Nat)) (placed : stats.Placed nBestSeenHeight tracked)
    (young : isOld stats.maxConfirms nBestSeenHeight height = false) :
    (stats.newTx height bucket).Placed nBestSeenHeight ((height, bucket) :: tracked) where
  old other := by
    have before := placed.old other
    simp [newTx, setUnconf, young, before]
  unconf blockIndex other := by
    have before := placed.unconf blockIndex other
    rw [newTx, setUnconf_unconf, List.countP_cons]
    by_cases here : blockIndex = stats.slot height ∧ other = bucket
    · rw [if_pos here, ← here.1, ← here.2, before]
      simp [setUnconf, slot, young, here.1]
    · have elsewhere : ¬ (bucket = other ∧ stats.slot height = blockIndex) :=
        fun both => here ⟨both.2.symm, both.1.symm⟩
      rw [if_neg here, before]
      simpa [setUnconf, slot, young] using elsewhere

/-- A transaction not above the best height is taken from the counter that has it. -/
theorem removeTx_placed (stats : TxConfirmStats) (nBestSeenHeight height : BitVec 32) (bucket : Nat)
    (tracked : List (BitVec 32 × Nat))
    (placed : stats.Placed nBestSeenHeight ((height, bucket) :: tracked))
    (below : 0 ≤ blocksAgo nBestSeenHeight height) :
    (stats.removeTx height nBestSeenHeight bucket).2 = none ∧
      (stats.removeTx height nBestSeenHeight bucket).1.Placed nBestSeenHeight tracked ∧
      (stats.removeTx height nBestSeenHeight bucket).1.maxConfirms = stats.maxConfirms := by
  have old := placed.old
  have unconf := placed.unconf
  simp only [List.countP_cons] at old unconf
  cases aged : isOld stats.maxConfirms nBestSeenHeight height with
  | true =>
      have counted := old bucket
      have there : blocksAgo nBestSeenHeight height ≥ stats.maxConfirms := of_decide_eq_true aged
      simp only [aged, beq_self_eq_true, Bool.and_self, if_true] at counted
      have removed : stats.removeTx height nBestSeenHeight bucket = ({ stats with
          oldUnconfTxs := Function.update stats.oldUnconfTxs bucket
            (stats.oldUnconfTxs bucket - 1) }, none) := by
        rw [removeTx, if_neg (by omega), if_pos there, if_pos (by omega)]
      rw [removed]
      refine ⟨rfl, ?_, rfl⟩
      constructor
      · intro other
        have before := old other
        by_cases same : other = bucket
        · simp [same, counted]
        · simpa [same, Ne.symm same] using before
      · intro blockIndex other
        simpa [aged, slot] using unconf blockIndex other
  | false =>
      have counted := unconf (stats.slot height) bucket
      have there : ¬ blocksAgo nBestSeenHeight height ≥ stats.maxConfirms := of_decide_eq_false aged
      simp only [aged, beq_self_eq_true, Bool.not_false, Bool.and_self, if_true] at counted
      have removed : stats.removeTx height nBestSeenHeight bucket = (stats.setUnconf
          (stats.slot height) bucket (stats.unconfTxs (stats.slot height) bucket - 1), none) := by
        rw [removeTx, if_neg (by omega), if_neg there, if_pos (by omega)]
      rw [removed]
      refine ⟨rfl, ?_, rfl⟩
      constructor
      · intro other
        simpa [aged, setUnconf] using old other
      · intro blockIndex other
        have before := unconf blockIndex other
        rw [setUnconf_unconf]
        by_cases here : blockIndex = stats.slot height ∧ other = bucket
        · rw [if_pos here, counted, here.1, here.2]
          simp [setUnconf, slot]
        · have elsewhere : ¬ (bucket = other ∧ stats.slot height = blockIndex) :=
            fun both => here ⟨both.2.symm, both.1.symm⟩
          rw [if_neg here, before]
          simp only [aged, Bool.not_false, Bool.and_true, setUnconf, slot]
          simpa [slot] using elsewhere

/-- The slot of the new height goes to `oldUnconfTxs`. -/
theorem clearCurrent_placed (stats : TxConfirmStats) (nBestSeenHeight nBlockHeight : BitVec 32)
    (tracked : List (BitVec 32 × Nat)) (placed : stats.Placed nBestSeenHeight tracked)
    (moves : ∀ item ∈ tracked, isOld stats.maxConfirms nBlockHeight item.1 =
      (isOld stats.maxConfirms nBestSeenHeight item.1 ||
        stats.slot item.1 == stats.slot nBlockHeight)) :
    (stats.clearCurrent nBlockHeight).Placed nBlockHeight tracked where
  old bucket := by
    have parts := Tally.countP_or (fun item : BitVec 32 × Nat => item.2 == bucket)
      (fun item => isOld stats.maxConfirms nBestSeenHeight item.1)
      (fun item => stats.slot item.1 == stats.slot nBlockHeight) tracked
    calc (stats.clearCurrent nBlockHeight).oldUnconfTxs bucket
        = stats.oldUnconfTxs bucket + stats.unconfTxs (stats.slot nBlockHeight) bucket := rfl
      _ = tracked.countP fun item => item.2 == bucket &&
            (isOld stats.maxConfirms nBestSeenHeight item.1 ||
              stats.slot item.1 == stats.slot nBlockHeight) := by
          rw [placed.old, placed.unconf, parts]
      _ = _ := by
          apply List.countP_congr
          intro item member
          rw [clearCurrent_maxConfirms, moves item member]
  unconf blockIndex bucket := by
    rw [clearCurrent_unconf]
    split
    · rename_i cleared
      apply Eq.symm
      rw [List.countP_eq_zero]
      intro item member
      rw [clearCurrent_maxConfirms, clearCurrent_slot, moves item member, cleared]
      cases stats.slot item.1 == stats.slot nBlockHeight <;> simp
    · rename_i kept
      rw [placed.unconf]
      apply List.countP_congr
      intro item member
      rw [clearCurrent_maxConfirms, clearCurrent_slot, moves item member]
      by_cases same : stats.slot item.1 = blockIndex
      · simp [same, kept]
      · simp [same]

/-- A new best height that makes nothing old moves nothing. -/
theorem unmoved_placed (stats : TxConfirmStats) (nBestSeenHeight nBlockHeight : BitVec 32)
    (tracked : List (BitVec 32 × Nat)) (placed : stats.Placed nBestSeenHeight tracked)
    (same : ∀ item ∈ tracked, isOld stats.maxConfirms nBlockHeight item.1 =
      isOld stats.maxConfirms nBestSeenHeight item.1) : stats.Placed nBlockHeight tracked where
  old bucket := by
    rw [placed.old]
    apply List.countP_congr
    intro item member
    rw [same item member]
  unconf blockIndex bucket := by
    rw [placed.unconf]
    apply List.countP_congr
    intro item member
    rw [same item member]

/-! ## What a new height makes old -/

theorem blocksAgo_small (nBestSeenHeight height : BitVec 32) (seen : nBestSeenHeight ≠ 0)
    (best : nBestSeenHeight.toNat < 2 ^ 31) (entry : height.toNat < 2 ^ 31) :
    blocksAgo nBestSeenHeight height = (nBestSeenHeight.toNat : Int) - height.toNat := by
  rw [blocksAgo, if_neg seen, BitVec.toInt_sub, BitVec.toInt_eq_toNat_of_lt (by omega),
    BitVec.toInt_eq_toNat_of_lt (by omega)]
  apply Int.bmod_eq_of_le <;> omega

theorem isOld_iff (stats : TxConfirmStats) (nBestSeenHeight height : BitVec 32)
    (best : nBestSeenHeight.toNat < 2 ^ 31) (entry : height.toNat < 2 ^ 31) :
    isOld stats.maxConfirms nBestSeenHeight height = true ↔
      height.toNat + stats.maxConfirms ≤ nBestSeenHeight.toNat := by
  have some := stats.confirms.1
  rw [isOld, decide_eq_true_iff]
  by_cases seen : nBestSeenHeight = 0
  · subst seen
    simp [blocksAgo]
    omega
  · rw [blocksAgo_small nBestSeenHeight height seen best entry]
    omega

/-- Going up by no more than the ring, a slot is met again just at its length. -/
theorem slot_again (stats : TxConfirmStats) (height nBlockHeight : BitVec 32)
    (before : height.toNat < nBlockHeight.toNat)
    (near : nBlockHeight.toNat ≤ height.toNat + stats.maxConfirms) :
    stats.slot height = stats.slot nBlockHeight ↔
      nBlockHeight.toNat = height.toNat + stats.maxConfirms := by
  constructor
  · intro same
    have divides := Nat.dvd_of_mod_eq_zero (Nat.sub_mod_eq_zero_of_mod_eq same.symm)
    have least := Nat.le_of_dvd (by omega) divides
    omega
  · intro whole
    rw [slot, slot, whole, Nat.add_mod_right]

end TxConfirmStats

/-! ## The estimator -/

/-- Height and bucket of a transaction recorded for the statistic. -/
def TxStatsInfo.trackedFor (statistic : Statistic) (info : TxStatsInfo) :
    Option (BitVec 32 × Nat) :=
  if info.stats = some statistic then some (info.blockHeight, info.bucketIndex) else none

namespace CBlockPolicyEstimator

open TxConfirmStats

variable {TxId : Type} [DecidableEq TxId]

def tracked (estimator : CBlockPolicyEstimator TxId) (statistic : Statistic) :
    List (BitVec 32 × Nat) :=
  (Tally.values estimator.mapMemPoolTxs).filterMap (TxStatsInfo.trackedFor statistic)

/-- What is recorded, without one transaction. -/
def others (estimator : CBlockPolicyEstimator TxId) (hash : TxId) (statistic : Statistic) :
    List (BitVec 32 × Nat) :=
  (Tally.values (estimator.mapMemPoolTxs.erase hash)).filterMap (TxStatsInfo.trackedFor statistic)

def noted (estimator : CBlockPolicyEstimator TxId) (hash : TxId) : TxStatsInfo :=
  (estimator.mapMemPoolTxs.lookup hash).getD TxStatsInfo.new

theorem tracked_others (estimator : CBlockPolicyEstimator TxId) (hash : TxId)
    (statistic : Statistic) : (estimator.tracked statistic).Perm
      (((estimator.noted hash).trackedFor statistic).toList ++ estimator.others hash statistic) := by
  cases found : estimator.mapMemPoolTxs.lookup hash with
  | none =>
      have same := Tally.values_absent estimator.mapMemPoolTxs hash found
      simp [tracked, others, noted, found, same, TxStatsInfo.trackedFor, TxStatsInfo.new]
  | some info =>
      have parts := (Tally.values_erase estimator.mapMemPoolTxs hash info found).filterMap
        (TxStatsInfo.trackedFor statistic)
      rw [List.filterMap_cons] at parts
      rw [tracked, noted, found, Option.getD_some]
      cases recorded : info.trackedFor statistic with
      | none => simpa [recorded, others] using parts
      | some item => simpa [recorded, others] using parts

theorem note_others (estimator : CBlockPolicyEstimator TxId) (hash : TxId) (info : TxStatsInfo)
    (statistic : Statistic) : (estimator.note hash info).tracked statistic =
      (info.trackedFor statistic).toList ++ estimator.others hash statistic := by
  rw [tracked, note, Tally.values_insert, List.filterMap_cons, others]
  cases info.trackedFor statistic <;> rfl

/-- `processTransaction` changes nothing that is recorded, or it records a transaction that is not
below the best height. -/
theorem processTransaction_cases (estimator : CBlockPolicyEstimator TxId)
    (entry : EstimatorEntry TxId) (fCurrentEstimate : Bool) :
    (∃ info, estimator.processTransaction entry fCurrentEstimate = estimator.note entry.hash info ∧
      ∀ statistic, info.trackedFor statistic =
        (estimator.noted entry.hash).trackedFor statistic) ∨
    ∃ statistic bucketIndex, (estimator.noted entry.hash).stats = none ∧
      ¬ entry.height < estimator.nBestSeenHeight ∧
      estimator.processTransaction entry fCurrentEstimate =
        estimator.record entry.hash statistic entry.height bucketIndex := by
  rw [processTransaction]
  split
  · exact .inl ⟨_, rfl, fun _ => rfl⟩
  rename_i untracked
  rw [ne_eq, not_not] at untracked
  split
  · exact .inl ⟨_, rfl, fun _ => rfl⟩
  rename_i above
  split
  · exact .inl ⟨_, rfl, fun _ => rfl⟩
  split
  · exact .inl ⟨_, rfl, fun _ => rfl⟩
  split
  · exact .inr ⟨.priStats, _, untracked, above, rfl⟩
  · exact .inr ⟨.feeStats, _, untracked, above, rfl⟩
  · refine .inl ⟨_, rfl, ?_⟩
    intro statistic
    simp [TxStatsInfo.trackedFor, noted, untracked]

end CBlockPolicyEstimator

/-! ## The run -/

namespace EstimatorRun

open TxConfirmStats CBlockPolicyEstimator

variable {TxId : Type}

/-- A recorded transaction is not above the best height when it is removed. A new best height, an
`int`, meets no recorded transaction at its height or above in the slot that it clears; where it clears
none, no recorded transaction gets old by it. -/
def Meets [DecidableEq TxId] (run : EstimatorRun TxId) : EstimatorStep TxId → Prop
  | .processTransaction _ _ _ _ _ => True
  | .removeTx hash =>
      ∀ info, run.estimator.mapMemPoolTxs.lookup hash = some info → info.stats ≠ none →
        run.estimator.nBestSeenHeight = 0 ∨ info.blockHeight ≤ run.estimator.nBestSeenHeight
  | .connect fCurrentEstimate =>
      run.chainHeight + 1 < 2 ^ 31 ∧
        (run.estimator.nBestSeenHeight.toNat < run.chainHeight + 1 →
          ∀ statistic, ∀ info ∈ Tally.values run.estimator.mapMemPoolTxs,
            info.stats = some statistic →
              if fCurrentEstimate then
                info.blockHeight.toNat ≥ run.chainHeight + 1 →
                  info.blockHeight.toNat % (run.estimator.stats statistic).maxConfirms ≠
                    (run.chainHeight + 1) % (run.estimator.stats statistic).maxConfirms
              else
                run.chainHeight + 1 ≠
                  info.blockHeight.toNat + (run.estimator.stats statistic).maxConfirms)
  | .disconnect => True

/-- Heights are `int`s, and a recorded transaction is not below the chain until a block was seen that
is not. -/
structure Fits (run : EstimatorRun TxId) (item : BitVec 32 × Nat) : Prop where
  entry : item.1.toNat < 2 ^ 31
  best : run.estimator.nBestSeenHeight.toNat < 2 ^ 31
  reached : run.chainHeight ≤ run.estimator.nBestSeenHeight.toNat ∨ run.chainHeight ≤ item.1.toNat

structure Kept (run : EstimatorRun TxId) : Prop where
  noError : run.errors = []
  chain : run.chainHeight < 2 ^ 31
  placed : ∀ statistic, (run.estimator.stats statistic).Placed run.estimator.nBestSeenHeight
    (run.estimator.tracked statistic)
  fits : ∀ statistic, ∀ item ∈ run.estimator.tracked statistic, run.Fits item

theorem kept_bookkeeping (run : EstimatorRun TxId) (kept : run.Kept) : run.Bookkeeping := by
  refine ⟨kept.noError, ?_⟩
  intro statistic bucketIndex
  rw [placed_total _ _ _ (kept.placed statistic), tracked, List.countP_filterMap]
  apply List.countP_congr
  intro info member
  by_cases recorded : info.stats = some statistic <;>
    simp [TxStatsInfo.trackedFor, recorded]

theorem kept_start (nFileBestSeenHeight : BitVec 32) (chainHeight : Nat)
    (small : chainHeight < 2 ^ 31) (maxConfirms : Statistic → Nat)
    (confirms : ∀ statistic, 0 < maxConfirms statistic ∧ maxConfirms statistic ≤ 1008) :
    (start nFileBestSeenHeight chainHeight
      fun statistic => initial (maxConfirms statistic) (confirms statistic) :
      EstimatorRun TxId).Kept where
  noError := rfl
  chain := small
  placed statistic := placed_initial (maxConfirms statistic) (confirms statistic) nFileBestSeenHeight
  fits statistic item member := by cases member

theorem mem_tracked (estimator : CBlockPolicyEstimator TxId) (statistic : Statistic)
    (item : BitVec 32 × Nat) (member : item ∈ estimator.tracked statistic) :
    ∃ info ∈ Tally.values estimator.mapMemPoolTxs, info.stats = some statistic ∧
      info.blockHeight = item.1 := by
  obtain ⟨info, there, recorded⟩ := List.mem_filterMap.mp member
  rw [TxStatsInfo.trackedFor] at recorded
  split at recorded
  · rename_i statisticInfo
    rw [Option.some.injEq] at recorded
    exact ⟨info, there, statisticInfo, by rw [← recorded]⟩
  · cases recorded

/-- A block above the best height is one above it, or next to what is recorded below it. -/
theorem connect_near (run : EstimatorRun TxId) (item : BitVec 32 × Nat) (maxConfirms : Nat)
    (some : 0 < maxConfirms) (fits : run.Fits item)
    (acting : run.estimator.nBestSeenHeight.toNat < run.chainHeight + 1)
    (young : ¬ item.1.toNat + maxConfirms ≤ run.estimator.nBestSeenHeight.toNat)
    (below : item.1.toNat < run.chainHeight + 1) :
    run.chainHeight + 1 ≤ item.1.toNat + maxConfirms := by
  rcases fits.reached with best | entry
  · omega
  · omega

theorem fits_same (run after : EstimatorRun TxId) (item : BitVec 32 × Nat)
    (chain : after.chainHeight = run.chainHeight)
    (best : after.estimator.nBestSeenHeight = run.estimator.nBestSeenHeight)
    (fits : run.Fits item) : after.Fits item := by
  constructor
  · exact fits.entry
  · simpa only [best] using fits.best
  · simpa only [best, chain] using fits.reached

/-- A step that only reorders what is recorded. -/
theorem kept_perm (run after : EstimatorRun TxId) (kept : run.Kept) (noError : after.errors = [])
    (chain : after.chainHeight = run.chainHeight)
    (best : after.estimator.nBestSeenHeight = run.estimator.nBestSeenHeight)
    (stats : after.estimator.stats = run.estimator.stats)
    (same : ∀ statistic, (run.estimator.tracked statistic).Perm
      (after.estimator.tracked statistic)) : after.Kept := by
  constructor
  case noError => exact noError
  case chain => simpa only [chain] using kept.chain
  case placed =>
    intro statistic
    rw [stats, best]
    exact placed_perm _ _ _ _ (same statistic) (kept.placed statistic)
  case fits =>
    intro statistic item member
    have there := kept.fits statistic item ((same statistic).mem_iff.mpr member)
    exact fits_same run after item chain best there

/-- What a block above the best height does. -/
theorem processBlock_acting (estimator : CBlockPolicyEstimator TxId) (nBlockHeight : BitVec 32)
    (fCurrentEstimate : Bool) (acting : ¬ nBlockHeight ≤ estimator.nBestSeenHeight) :
    (estimator.processBlock nBlockHeight fCurrentEstimate).tracked = estimator.tracked ∧
      (estimator.processBlock nBlockHeight fCurrentEstimate).nBestSeenHeight = nBlockHeight ∧
      ∀ statistic, (estimator.processBlock nBlockHeight fCurrentEstimate).stats statistic =
        if fCurrentEstimate then (estimator.stats statistic).clearCurrent nBlockHeight
        else estimator.stats statistic := by
  rw [processBlock, if_neg acting]
  cases fCurrentEstimate <;> exact ⟨rfl, rfl, fun _ => rfl⟩

variable [DecidableEq TxId]

/-- The height of the chain is that of its transactions. -/
theorem height_toNat (height : Nat) (small : height < 2 ^ 31) :
    (BitVec.ofNat 32 height).toNat = height := by
  rw [BitVec.toNat_ofNat, Nat.mod_eq_of_lt (by omega)]

/-- What is recorded once the transaction is. -/
theorem record_tracked (estimator : CBlockPolicyEstimator TxId) (hash : TxId)
    (recorded statistic : Statistic) (height : BitVec 32) (bucketIndex : Nat) :
    (estimator.record hash recorded height bucketIndex).tracked statistic =
      (if recorded = statistic then [(height, bucketIndex)] else []) ++
        estimator.others hash statistic := by
  have noted : (estimator.record hash recorded height bucketIndex).tracked statistic = _ :=
    note_others estimator hash ⟨some recorded, height, bucketIndex⟩ statistic
  by_cases same : recorded = statistic <;> simpa [TxStatsInfo.trackedFor, same] using noted

theorem processTransaction_kept (run : EstimatorRun TxId) (entry : EstimatorEntry TxId)
    (atHeight : entry.height = BitVec.ofNat 32 run.chainHeight) (fCurrentEstimate : Bool)
    (kept : run.Kept) :
    { run with
      estimator := run.estimator.processTransaction entry fCurrentEstimate }.Kept := by
  have height : entry.height.toNat = run.chainHeight := by
    rw [atHeight, height_toNat _ kept.chain]
  have before := tracked_others run.estimator entry.hash
  rcases processTransaction_cases run.estimator entry fCurrentEstimate with
    ⟨info, done, same⟩ | ⟨recorded, bucketIndex, untracked, above, done⟩
  · rw [done]
    refine kept_perm run _ kept kept.noError rfl rfl rfl ?_
    intro statistic
    rw [note_others, same]
    exact before statistic
  · rw [done]
    have best : run.estimator.nBestSeenHeight.toNat ≤ run.chainHeight := by
      rw [BitVec.lt_def, height] at above
      omega
    have chain := kept.chain
    have entrySmall : entry.height.toNat < 2 ^ 31 := by omega
    have bestSmall : run.estimator.nBestSeenHeight.toNat < 2 ^ 31 := by omega
    have earlier : ∀ statistic, (run.estimator.tracked statistic).Perm
        (run.estimator.others entry.hash statistic) := by
      intro statistic
      simpa [TxStatsInfo.trackedFor, untracked] using before statistic
    constructor
    case noError => exact kept.noError
    case chain => exact chain
    case placed =>
      intro statistic
      have placed := placed_perm _ _ _ _ (earlier statistic) (kept.placed statistic)
      rw [record_tracked]
      by_cases same : recorded = statistic
      · subst same
        have young : isOld (run.estimator.stats recorded).maxConfirms
            run.estimator.nBestSeenHeight entry.height = false := by
          rw [Bool.eq_false_iff, ne_eq, isOld_iff _ _ _ bestSmall entrySmall, height]
          have some := (run.estimator.stats recorded).confirms.1
          omega
        simpa [record, note] using newTx_placed _ _ _ bucketIndex _ placed young
      · simpa [record, note, same, Function.update_of_ne (Ne.symm same)] using placed
    case fits =>
      intro statistic item member
      rw [record_tracked, List.mem_append] at member
      rcases member with new | old
      · have this : item = (entry.height, bucketIndex) := by
          by_cases same : recorded = statistic
          · simpa [same] using new
          · simp [same] at new
        rw [this]
        exact ⟨entrySmall, bestSmall, .inr (Nat.le_of_eq height.symm)⟩
      · have there := kept.fits statistic item ((earlier statistic).mem_iff.mpr old)
        exact fits_same run _ item rfl rfl there

/-- A recorded transaction that `removeTx` meets is not above the best height. -/
theorem removed_below (run : EstimatorRun TxId) (hash : TxId) (meets : run.Meets (.removeTx hash))
    (info : TxStatsInfo) (found : run.estimator.mapMemPoolTxs.lookup hash = some info)
    (recorded : info.stats ≠ none) (fits : run.Fits (info.blockHeight, info.bucketIndex)) :
    0 ≤ blocksAgo run.estimator.nBestSeenHeight info.blockHeight := by
  by_cases seen : run.estimator.nBestSeenHeight = 0
  · rw [blocksAgo, if_pos seen]
  · have under := (meets info found recorded).resolve_left seen
    have entry : info.blockHeight.toNat < 2 ^ 31 := fits.entry
    rw [BitVec.le_def] at under
    rw [blocksAgo_small _ _ seen fits.best entry]
    omega

theorem removeTx_kept (run : EstimatorRun TxId) (hash : TxId)
    (meets : run.Meets (.removeTx hash)) (kept : run.Kept) : (run.next (.removeTx hash)).Kept := by
  have before := tracked_others run.estimator hash
  rw [next]
  cases found : run.estimator.mapMemPoolTxs.lookup hash with
  | none =>
      have nothing : run.estimator.removeTx hash = (run.estimator, none) := by
        simp [CBlockPolicyEstimator.removeTx, found]
      rw [nothing]
      exact kept_perm run _ kept (by simpa using kept.noError) rfl rfl rfl fun _ => List.Perm.refl _
  | some info =>
      cases recorded : info.stats with
      | none =>
          have erased : run.estimator.removeTx hash = ({ run.estimator with
              mapMemPoolTxs := run.estimator.mapMemPoolTxs.erase hash }, none) := by
            simp [CBlockPolicyEstimator.removeTx, found, recorded]
          rw [erased]
          refine kept_perm run _ kept (by simpa using kept.noError) rfl rfl rfl ?_
          intro statistic
          simpa [tracked, others, noted, found, TxStatsInfo.trackedFor, recorded] using before statistic
      | some statistic =>
          have split : ∀ other, (run.estimator.tracked other).Perm
              ((if statistic = other then [(info.blockHeight, info.bucketIndex)] else []) ++
                run.estimator.others hash other) := by
            intro other
            have parts := before other
            by_cases same : statistic = other <;>
              simpa [noted, found, TxStatsInfo.trackedFor, recorded, same] using parts
          have here := split statistic
          rw [if_pos rfl] at here
          have fits := kept.fits statistic (info.blockHeight, info.bucketIndex)
            (here.mem_iff.mpr List.mem_cons_self)
          have below := removed_below run hash meets info found (by simp [recorded]) fits
          have removal := removeTx_placed (run.estimator.stats statistic) _ info.blockHeight
            info.bucketIndex _ (placed_perm _ _ _ _ here (kept.placed statistic)) below
          constructor
          case noError =>
            simp [CBlockPolicyEstimator.removeTx, found, recorded, removal.1, kept.noError]
          case chain => exact kept.chain
          case placed =>
            intro other
            have placed := placed_perm _ _ _ _ (split other) (kept.placed other)
            by_cases same : statistic = other
            · subst same
              simpa [CBlockPolicyEstimator.removeTx, found, recorded, tracked, others]
                using removal.2.1
            · simpa [CBlockPolicyEstimator.removeTx, found, recorded, tracked, others, same,
                Function.update_of_ne (Ne.symm same)] using placed
          case fits =>
            intro other item member
            have inside : item ∈ run.estimator.others hash other := by
              simpa [CBlockPolicyEstimator.removeTx, found, recorded, tracked, others] using member
            have there := kept.fits other item
              ((split other).mem_iff.mpr (List.mem_append_right _ inside))
            constructor
            · exact there.entry
            · simpa [CBlockPolicyEstimator.removeTx, found, recorded] using there.best
            · simpa [CBlockPolicyEstimator.removeTx, found, recorded] using there.reached

/-- Where a new best height clears its slot, what is recorded in that slot is just what gets old. -/
theorem connect_clears (run : EstimatorRun TxId) (statistic : Statistic)
    (meets : run.Meets (.connect true)) (kept : run.Kept)
    (acting : run.estimator.nBestSeenHeight.toNat < run.chainHeight + 1)
    (item : BitVec 32 × Nat) (member : item ∈ run.estimator.tracked statistic) :
    isOld (run.estimator.stats statistic).maxConfirms (BitVec.ofNat 32 (run.chainHeight + 1))
        item.1 =
      (isOld (run.estimator.stats statistic).maxConfirms run.estimator.nBestSeenHeight item.1 ||
        (run.estimator.stats statistic).slot item.1 ==
          (run.estimator.stats statistic).slot (BitVec.ofNat 32 (run.chainHeight + 1))) := by
  have height := height_toNat _ meets.1
  have some := (run.estimator.stats statistic).confirms.1
  have fits := kept.fits statistic item member
  obtain ⟨info, there, recorded, same⟩ := mem_tracked run.estimator statistic item member
  have apart := meets.2 acting statistic info there recorded
  rw [if_pos rfl, same] at apart
  rw [Bool.eq_iff_iff, Bool.or_eq_true, beq_iff_eq, isOld_iff _ _ _ fits.best fits.entry,
    isOld_iff _ _ _ (by rw [height]; exact meets.1) fits.entry, height]
  by_cases above : item.1.toNat ≥ run.chainHeight + 1
  · have other : ¬ (run.estimator.stats statistic).slot item.1 =
        (run.estimator.stats statistic).slot (BitVec.ofNat 32 (run.chainHeight + 1)) := by
      rw [slot, slot, height]
      exact apart above
    simp only [other, or_false]
    omega
  · by_cases old : item.1.toNat + (run.estimator.stats statistic).maxConfirms ≤
        run.estimator.nBestSeenHeight.toNat
    · simp only [old, true_or, iff_true]
      omega
    · have near := connect_near run item _ some fits acting old (by omega)
      rw [slot_again _ _ _ (by omega) (by omega), height]
      omega

/-- Where it clears none, nothing gets old. -/
theorem connect_leaves (run : EstimatorRun TxId) (statistic : Statistic)
    (meets : run.Meets (.connect false)) (kept : run.Kept)
    (acting : run.estimator.nBestSeenHeight.toNat < run.chainHeight + 1)
    (item : BitVec 32 × Nat) (member : item ∈ run.estimator.tracked statistic) :
    isOld (run.estimator.stats statistic).maxConfirms (BitVec.ofNat 32 (run.chainHeight + 1))
        item.1 =
      isOld (run.estimator.stats statistic).maxConfirms run.estimator.nBestSeenHeight item.1 := by
  have height := height_toNat _ meets.1
  have some := (run.estimator.stats statistic).confirms.1
  have fits := kept.fits statistic item member
  obtain ⟨info, there, recorded, same⟩ := mem_tracked run.estimator statistic item member
  have apart := meets.2 acting statistic info there recorded
  simp only [Bool.false_eq_true, if_false, same] at apart
  rw [Bool.eq_iff_iff, isOld_iff _ _ _ fits.best fits.entry,
    isOld_iff _ _ _ (by rw [height]; exact meets.1) fits.entry, height]
  by_cases old : item.1.toNat + (run.estimator.stats statistic).maxConfirms ≤
      run.estimator.nBestSeenHeight.toNat
  · omega
  · by_cases above : item.1.toNat ≥ run.chainHeight + 1
    · omega
    · have near := connect_near run item _ some fits acting old (by omega)
      omega

theorem connect_placed (run : EstimatorRun TxId) (fCurrentEstimate : Bool) (statistic : Statistic)
    (meets : run.Meets (.connect fCurrentEstimate)) (kept : run.Kept)
    (acting : run.estimator.nBestSeenHeight.toNat < run.chainHeight + 1) :
    (if fCurrentEstimate then
        (run.estimator.stats statistic).clearCurrent (BitVec.ofNat 32 (run.chainHeight + 1))
      else run.estimator.stats statistic).Placed (BitVec.ofNat 32 (run.chainHeight + 1))
      (run.estimator.tracked statistic) := by
  have placed := kept.placed statistic
  cases fCurrentEstimate with
  | true => exact clearCurrent_placed _ _ _ _ placed (connect_clears run statistic meets kept acting)
  | false => exact unmoved_placed _ _ _ _ placed (connect_leaves run statistic meets kept acting)

theorem connect_kept (run : EstimatorRun TxId) (fCurrentEstimate : Bool)
    (meets : run.Meets (.connect fCurrentEstimate)) (kept : run.Kept) :
    (run.next (.connect fCurrentEstimate)).Kept := by
  have height := height_toNat _ meets.1
  rw [next]
  by_cases ignored : BitVec.ofNat 32 (run.chainHeight + 1) ≤ run.estimator.nBestSeenHeight
  · have same : run.estimator.processBlock (BitVec.ofNat 32 (run.chainHeight + 1)) fCurrentEstimate =
        run.estimator := by rw [processBlock, if_pos ignored]
    rw [BitVec.le_def, height] at ignored
    rw [same]
    exact {
      noError := kept.noError
      chain := meets.1
      placed := kept.placed
      fits := fun statistic item member =>
        have there := kept.fits statistic item member
        ⟨there.entry, there.best, .inl ignored⟩ }
  · obtain ⟨tracked, best, stats⟩ := processBlock_acting run.estimator _ fCurrentEstimate ignored
    have acting : run.estimator.nBestSeenHeight.toNat < run.chainHeight + 1 := by
      rw [BitVec.le_def, height] at ignored
      omega
    constructor
    case noError => exact kept.noError
    case chain => exact meets.1
    case placed =>
      intro statistic
      rw [tracked, best, stats]
      exact connect_placed run fCurrentEstimate statistic meets kept acting
    case fits =>
      intro statistic item member
      rw [tracked] at member
      have there := kept.fits statistic item member
      constructor
      · exact there.entry
      · rw [best, height]
        exact meets.1
      · rw [best, height]
        exact .inl (Nat.le_refl _)

theorem next_kept (run : EstimatorRun TxId) (step : EstimatorStep TxId) (kept : run.Kept)
    (meets : run.Meets step) : (run.next step).Kept := by
  cases step with
  | processTransaction hash wasClearAtEntry priBucket feeBucket fCurrentEstimate =>
      exact processTransaction_kept run _ rfl fCurrentEstimate kept
  | removeTx hash => exact removeTx_kept run hash meets kept
  | connect fCurrentEstimate => exact connect_kept run fCurrentEstimate meets kept
  | disconnect =>
      exact {
        noError := kept.noError
        chain := Nat.lt_of_le_of_lt (Nat.sub_le _ 1) kept.chain
        placed := kept.placed
        fits := fun statistic item member =>
          have there := kept.fits statistic item member
          ⟨there.entry, there.best, there.reached.imp (Nat.le_trans (Nat.sub_le _ 1))
            (Nat.le_trans (Nat.sub_le _ 1))⟩ }

/-- Where every step of a run meets the condition, the counters agree with the recorded transactions
in every state of the run, and no error is met. -/
theorem counters_agree (nFileBestSeenHeight : BitVec 32) (chainHeight : Nat)
    (small : chainHeight < 2 ^ 31) (maxConfirms : Statistic → Nat)
    (confirms : ∀ statistic, 0 < maxConfirms statistic ∧ maxConfirms statistic ≤ 1008)
    (steps : List (EstimatorStep TxId))
    (meets : Runs.EachStep next Meets (start nFileBestSeenHeight chainHeight
      fun statistic => initial (maxConfirms statistic) (confirms statistic)) steps) :
    Runs.Always next Bookkeeping (start nFileBestSeenHeight chainHeight
      fun statistic => initial (maxConfirms statistic) (confirms statistic)) steps :=
  Runs.always_of_each next Bookkeeping Kept Meets kept_bookkeeping next_kept _ steps
    (kept_start nFileBestSeenHeight chainHeight small maxConfirms confirms) meets

/-- A transaction is recorded, and removed after the next block. -/
theorem counters_agree_fresh :
    Runs.Always next Bookkeeping (start 0 7 fun _ => initial maxBlockConfirms (by decide) :
      EstimatorRun Nat)
      [.processTransaction 1 true none (some 3) true, .connect true, .removeTx 1] :=
  counters_agree 0 7 (by decide) (fun _ => maxBlockConfirms) (fun _ => by decide)
    [.processTransaction 1 true none (some 3) true, .connect true, .removeTx 1] (by
      refine ⟨trivial, ⟨by decide, ?_⟩, ?_, trivial⟩
      · intro acting statistic info member recorded
        rw [List.mem_singleton.mp member]
        intro above
        exact absurd above (by decide)
      · intro info found recorded
        rw [← Option.some.inj found]
        exact .inr (by decide))

/-- An estimates file of height 100 with a chain of height 200: a transaction is recorded and leaves
the pool before the next block. -/
theorem stale_estimates :
    ¬ Runs.Always next Bookkeeping (start 100 200 fun _ => initial maxBlockConfirms (by decide) :
      EstimatorRun Nat)
      [.processTransaction 1 true none (some 3) true, .removeTx 1] := by
  intro always
  have errors := always.2.2.1
  have seen : ((start 100 200 fun _ => initial maxBlockConfirms (by decide) :
      EstimatorRun Nat).next (.processTransaction 1 true none (some 3) true) |>.next
        (.removeTx 1)).errors = [.blocksAgoNegative] := by decide
  rw [seen] at errors
  cases errors

end EstimatorRun

end RoiCoin
