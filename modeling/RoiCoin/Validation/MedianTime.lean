import RoiCoin.Lib.OrderStatistics
import RoiCoin.Validation.ContextualChecks

/-! The median of the last eleven times along a chain.

One time enters the window and, from the twelfth block on, the oldest leaves it. The time that
enters is above the median, so that no more times than before lie below the old median. -/

namespace RoiCoin

open Checked OrderStatistics

/-- A chain, the tip first, in which each time is above the median time of the entries below. -/
inductive TimedChain : List CBlockIndex → Prop
  | genesis (pindex : CBlockIndex) : TimedChain [pindex]
  | next (pindex pindexPrev : CBlockIndex) (ancestors : List CBlockIndex)
      (chain : TimedChain (pindexPrev :: ancestors))
      (later : getMedianTimePast (pindexPrev :: ancestors) < pindex.getBlockTime) :
      TimedChain (pindex :: pindexPrev :: ancestors)

/-- The times that the median is taken of. -/
def lastTimes (chain : List CBlockIndex) : List Int := (chain.take 11).map CBlockIndex.getBlockTime

theorem median_ranked (chain : List CBlockIndex) :
    getMedianTimePast chain = ranked (lastTimes chain) ((lastTimes chain).length / 2) 0 := by
  simp [getMedianTimePast, ranked, lastTimes]

theorem lastTimes_cons (pindex : CBlockIndex) (chain : List CBlockIndex) :
    lastTimes (pindex :: chain) = pindex.getBlockTime :: (lastTimes chain).take 10 := by
  simp [lastTimes, ← List.map_take, List.take_take]

/-- One block: a time above the median does not lower the median. -/
theorem median_time_step (pindex : CBlockIndex) (chain : List CBlockIndex) (nonempty : chain ≠ [])
    (later : getMedianTimePast chain < pindex.getBlockTime) :
    getMedianTimePast chain ≤ getMedianTimePast (pindex :: chain) := by
  have some : 0 < chain.length := List.length_pos_iff.mpr nonempty
  have window : (lastTimes chain).length = min 11 chain.length := by
    simp [lastTimes]
  have moved : (lastTimes (pindex :: chain)).length = min 10 chain.length + 1 := by
    simp [lastTimes]
  rw [median_ranked] at later ⊢
  rw [median_ranked (pindex :: chain)]
  rw [lastTimes_cons] at moved ⊢
  apply ranked_le_ranked
  · exact List.take_sublist 10 (lastTimes chain)
  · omega
  · exact later.le
  · omega
  · omega

theorem TimedChain.suffix {chain suffix : List CBlockIndex} (timed : TimedChain chain)
    (part : suffix <:+ chain) (nonempty : suffix ≠ []) : TimedChain suffix := by
  induction timed with
  | genesis pindex =>
      rcases List.suffix_cons_iff.mp part with rfl | lower
      · exact .genesis pindex
      · exact absurd (List.suffix_nil.mp lower) nonempty
  | next pindex pindexPrev ancestors chain later ih =>
      rcases List.suffix_cons_iff.mp part with rfl | lower
      · exact .next pindex pindexPrev ancestors chain later
      · exact ih lower

/-- Headers that pass the check against their parent make such a chain. -/
theorem CheckedHeaders.timed (env : Environment) (checkpoints : MapCheckpoints)
    (chain : List CBlockIndex) (headers : CheckedHeaders env checkpoints chain) :
    TimedChain chain := by
  induction headers with
  | genesis pindex first height => exact .genesis pindex
  | next earlier block pindex pindexPrev ancestors below network regular passed entry linked ih =>
      refine .next pindex pindexPrev ancestors ih ?_
      rw [← network.1, ← network.2] at regular
      rw [contextualCheckBlockHeader, if_neg regular] at passed
      split at passed
      · cases passed
      · simp only [then_ok, require_ok] at passed
        rw [entry]
        exact not_le.mp passed.2.1

/-- Along a chain the median time does not decrease from parent to child. -/
theorem median_time_nondecreasing (chain : List CBlockIndex) (timed : TimedChain chain)
    (pindex pindexPrev : CBlockIndex) (ancestors : List CBlockIndex)
    (part : pindex :: pindexPrev :: ancestors <:+ chain) :
    getMedianTimePast (pindexPrev :: ancestors) ≤
      getMedianTimePast (pindex :: pindexPrev :: ancestors) := by
  cases timed.suffix part (by simp) with
  | next _ _ _ below later => exact median_time_step pindex (pindexPrev :: ancestors) (by simp) later

def timedHeader (nTime : BitVec 32) : CBlockHeader where
  nVersion := 4
  hashPrevBlock := 0
  hashMerkleRoot := 0
  nTime := nTime
  nBits := 0
  nNonce := 0
  nStartLocation := 0
  nFinalCalculation := 0

/-- An entry of which only the time matters. -/
def timedEntry (nTime : BitVec 32) : CBlockIndex := .ofHeader (timedHeader nTime) none none 0

/-- The last time is below its parent's, and above the median. -/
def timedEntries : List CBlockIndex :=
  [timedEntry 910, timedEntry 950, timedEntry 900, timedEntry 100]

theorem timedEntries_timed : TimedChain timedEntries := by
  apply TimedChain.next
  · apply TimedChain.next
    · apply TimedChain.next
      · exact .genesis _
      · decide +kernel
    · decide +kernel
  · decide +kernel

theorem median_time_nondecreasing_four :
    getMedianTimePast [timedEntry 950, timedEntry 900, timedEntry 100] ≤
      getMedianTimePast [timedEntry 910, timedEntry 950, timedEntry 900, timedEntry 100] :=
  median_time_nondecreasing timedEntries timedEntries_timed _ _ _ List.suffix_rfl

end RoiCoin
