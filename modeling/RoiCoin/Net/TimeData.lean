import Mathlib.Data.List.Sort
import RoiCoin.Amount
import RoiCoin.Lib.OrderStatistics
import RoiCoin.Lib.Runs

/-! The clock offsets that peers report (`timedata.h`, `timedata.cpp`). -/

namespace RoiCoin

/-- `CMedianFilter<int64_t>`; there is always a value. -/
structure CMedianFilter where
  vValues : List Int
  vSorted : List Int
  nSize : Nat
  some : vSorted ≠ []

namespace CMedianFilter

def create (size : Nat) (initialValue : Int) : CMedianFilter :=
  ⟨[initialValue], [initialValue], size, List.cons_ne_nil _ _⟩

/-- A full window loses its oldest value. -/
def window (filter : CMedianFilter) (value : Int) : List Int :=
  (if filter.vValues.length = filter.nSize then filter.vValues.drop 1 else filter.vValues) ++ [value]

theorem window_sorted_some (filter : CMedianFilter) (value : Int) :
    (filter.window value).insertionSort (· ≤ ·) ≠ [] := by
  rw [← List.length_pos_iff, List.length_insertionSort, window, List.length_append]
  exact Nat.lt_add_left _ Nat.one_pos

def input (filter : CMedianFilter) (value : Int) : CMedianFilter :=
  ⟨filter.window value, (filter.window value).insertionSort (· ≤ ·), filter.nSize,
    filter.window_sorted_some value⟩

def median (filter : CMedianFilter) : Int :=
  let size := filter.vSorted.length
  if size % 2 = 1 then filter.vSorted.getD (size / 2) 0
  else
    (wrap64 (filter.vSorted.getD (size / 2 - 1) 0 + filter.vSorted.getD (size / 2) 0)).tdiv 2

def size (filter : CMedianFilter) : Nat := filter.vValues.length

end CMedianFilter

def timedataMaxSamples : Nat := 200

/-- `abs64`, as the machine computes it. -/
def abs64 (n : Int) : Int := if n ≥ 0 then n else wrap64 (-n)

/-- The negation in `abs64` overflows. -/
def abs64Overflows (n : Int) : Bool := decide (n < 0) && decide (2 ^ 63 ≤ -n)

/-- The variables of `AddTimeData`; the last two only note overflows of `abs64`, on the median that
becomes the offset and in the search for an offset close to zero. -/
structure TimeData (Addr : Type) where
  setKnown : List Addr
  vTimeOffsets : CMedianFilter
  nTimeOffset : Int
  fDone : Bool
  offsetOverflow : Bool
  matchOverflow : Bool

namespace TimeData

variable {Addr : Type} [DecidableEq Addr]

def start : TimeData Addr := ⟨[], .create timedataMaxSamples 0, 0, false, false, false⟩

/-- A value that is not zero and within five minutes of it. -/
def isMatch (nOffset : Int) : Bool := decide (nOffset ≠ 0) && decide (abs64 nOffset < 5 * 60)

/-- The new offset, once there are enough samples and their number is odd. -/
def update (st : TimeData Addr) : TimeData Addr :=
  let nMedian := st.vTimeOffsets.median
  let noted := { st with offsetOverflow := st.offsetOverflow || abs64Overflows nMedian }
  if abs64 nMedian < 70 * 60 then { noted with nTimeOffset := nMedian }
  else if st.fDone = true then { noted with nTimeOffset := 0 }
  else
    { noted with
      nTimeOffset := 0
      fDone := !st.vTimeOffsets.vSorted.any isMatch
      matchOverflow := st.matchOverflow || st.vTimeOffsets.vSorted.any abs64Overflows }

def addTimeData (st : TimeData Addr) (ip : Addr) (nOffsetSample : Int) : TimeData Addr :=
  if st.setKnown.length = timedataMaxSamples then st
  else if ip ∈ st.setKnown then st
  else
    let st :=
      { st with
        setKnown := ip :: st.setKnown, vTimeOffsets := st.vTimeOffsets.input nOffsetSample }
    if st.vTimeOffsets.size ≥ 5 ∧ st.vTimeOffsets.size % 2 = 1 then st.update else st

/-- `AddTimeData` once for each call, the first one first. -/
def afterCalls (calls : List (Addr × Int)) : TimeData Addr :=
  calls.foldl (fun st call => st.addTimeData call.1 call.2) start

end TimeData

open OrderStatistics

/-! ## Magnitudes -/

theorem abs64_small (n bound : Int) (least : -2 ^ 63 < n) (below : abs64 n < bound) :
    -bound < n ∧ n < bound := by
  rw [abs64] at below
  split at below
  · omega
  · rw [wrap64] at below
    omega

theorem abs64Overflows_iff (n : Int) (least : -2 ^ 63 ≤ n) :
    abs64Overflows n = true ↔ n = -2 ^ 63 := by
  rw [abs64Overflows, Bool.and_eq_true, decide_eq_true_eq, decide_eq_true_eq]
  omega

namespace TimeData

variable {Addr : Type} [DecidableEq Addr]

/-- The samples that are not ignored, with the peers they come from. -/
def taken (calls : List (Addr × Int)) : List (Addr × Int) :=
  calls.foldl (fun taken call =>
    if taken.length = timedataMaxSamples ∨ call.1 ∈ taken.map Prod.fst then taken
    else taken ++ [call]) []

/-- The samples together with the initial zero. -/
def samples (calls : List (Addr × Int)) : List Int := 0 :: (taken calls).map Prod.snd

/-- The moments at which the offset may change. -/
def Decides (calls : List (Addr × Int)) : Prop :=
  5 ≤ (samples calls).length ∧ (samples calls).length % 2 = 1 ∧
    (samples calls).length ≤ timedataMaxSamples

/-- The middle one of the sorted samples. -/
def exactMedian (calls : List (Addr × Int)) : Int :=
  ranked (samples calls) ((samples calls).length / 2) 0

/-- What is promised after a sequence of calls. -/
structure Bounded (calls : List (Addr × Int)) : Prop where
  small : -(70 * 60) < (afterCalls calls).nTimeOffset ∧ (afterCalls calls).nTimeOffset < 70 * 60
  quiet : (afterCalls calls).offsetOverflow = false
  median : (afterCalls calls).nTimeOffset = 0 ∨ ∃ before, before <+: calls ∧ Decides before ∧
    (afterCalls calls).nTimeOffset = exactMedian before

/-- At most half of the samples are the least number of 64 bits, when the offset may change. -/
def FewLeast (calls : List (Addr × Int)) : Prop :=
  Decides calls → 2 * (samples calls).count (-2 ^ 63) ≤ (samples calls).length

/-! ## The filter holds the samples -/

theorem taken_append (calls : List (Addr × Int)) (call : Addr × Int) :
    taken (calls ++ [call]) =
      if (taken calls).length = timedataMaxSamples ∨ call.1 ∈ (taken calls).map Prod.fst
      then taken calls else taken calls ++ [call] := by
  rw [taken, List.foldl_append]
  rfl

theorem afterCalls_append (calls : List (Addr × Int)) (call : Addr × Int) :
    afterCalls (calls ++ [call]) = (afterCalls calls).addTimeData call.1 call.2 := by
  rw [afterCalls, List.foldl_append]
  rfl

/-- What the variables are, after every sequence of calls. -/
structure Holds (calls : List (Addr × Int)) : Prop where
  known : ∀ ip, ip ∈ (afterCalls calls).setKnown ↔ ip ∈ (taken calls).map Prod.fst
  count : (afterCalls calls).setKnown.length = (taken calls).length
  few : (taken calls).length ≤ timedataMaxSamples
  values : (afterCalls calls).vTimeOffsets.vValues =
    if (taken calls).length < timedataMaxSamples then samples calls else (taken calls).map Prod.snd
  sorted : (afterCalls calls).vTimeOffsets.vSorted =
    (afterCalls calls).vTimeOffsets.vValues.insertionSort (· ≤ ·)
  size : (afterCalls calls).vTimeOffsets.nSize = timedataMaxSamples

/-- A call whose sample is ignored, or whose sample is taken and enters the filter. -/
theorem addTimeData_cases (calls : List (Addr × Int)) (holds : Holds calls) (call : Addr × Int) :
    (taken (calls ++ [call]) = taken calls ∧ afterCalls (calls ++ [call]) = afterCalls calls) ∨
      (taken (calls ++ [call]) = taken calls ++ [call] ∧
        (taken calls).length < timedataMaxSamples ∧ call.1 ∉ (taken calls).map Prod.fst ∧
        ∃ st : TimeData Addr,
          st = { afterCalls calls with
            setKnown := call.1 :: (afterCalls calls).setKnown
            vTimeOffsets := (afterCalls calls).vTimeOffsets.input call.2 } ∧
          afterCalls (calls ++ [call]) =
            if st.vTimeOffsets.size ≥ 5 ∧ st.vTimeOffsets.size % 2 = 1 then st.update else st) := by
  have few := holds.few
  rw [taken_append, afterCalls_append, addTimeData, holds.count]
  by_cases full : (taken calls).length = timedataMaxSamples
  · exact .inl ⟨if_pos (.inl full), if_pos full⟩
  · rw [if_neg full]
    by_cases known : call.1 ∈ (taken calls).map Prod.fst
    · exact .inl ⟨if_pos (.inr known), if_pos ((holds.known call.1).mpr known)⟩
    · rw [if_neg fun already => known ((holds.known call.1).mp already), if_neg (by simp [full, known])]
      exact .inr ⟨rfl, by omega, known, _, rfl, rfl⟩

/-- The window after a sample is taken. -/
theorem window_taken (calls : List (Addr × Int)) (holds : Holds calls) (call : Addr × Int)
    (fresh : taken (calls ++ [call]) = taken calls ++ [call])
    (room : (taken calls).length < timedataMaxSamples) :
    (afterCalls calls).vTimeOffsets.window call.2 =
      if (taken (calls ++ [call])).length < timedataMaxSamples then samples (calls ++ [call])
      else (taken (calls ++ [call])).map Prod.snd := by
  have limit : timedataMaxSamples = 200 := rfl
  have length : (samples calls).length = (taken calls).length + 1 := by simp [samples]
  have grown : (taken (calls ++ [call])).length = (taken calls).length + 1 := by simp [fresh]
  rw [CMedianFilter.window, holds.values, if_pos room, holds.size, length, grown]
  by_cases last : (taken calls).length + 1 = timedataMaxSamples
  · rw [if_pos last, if_neg (by omega), fresh, List.map_append]
    rfl
  · rw [if_neg last, if_pos (by omega), samples, samples, fresh, List.map_append]
    rfl

omit [DecidableEq Addr] in
theorem update_keeps (st : TimeData Addr) :
    st.update.setKnown = st.setKnown ∧ st.update.vTimeOffsets = st.vTimeOffsets := by
  rw [update]
  dsimp only
  split_ifs <;> exact ⟨rfl, rfl⟩

theorem holds_after (calls : List (Addr × Int)) : Holds calls := by
  induction calls using List.reverseRecOn with
  | nil => exact ⟨fun ip => Iff.rfl, rfl, Nat.zero_le _, rfl, rfl, rfl⟩
  | append_singleton calls call ih =>
      rcases addTimeData_cases calls ih call with ⟨same, still⟩ | ⟨fresh, room, new, st, next, after⟩
      · have samples_same : samples (calls ++ [call]) = samples calls := by rw [samples, same, samples]
        constructor
        · rw [same, still]
          exact ih.known
        · rw [same, still]
          exact ih.count
        · rw [same]
          exact ih.few
        · rw [same, still, samples_same]
          exact ih.values
        · rw [still]
          exact ih.sorted
        · rw [still]
          exact ih.size
      · have kept : (afterCalls (calls ++ [call])).setKnown = st.setKnown ∧
            (afterCalls (calls ++ [call])).vTimeOffsets = st.vTimeOffsets := by
          rw [after]
          split
          · exact update_keeps st
          · exact ⟨rfl, rfl⟩
        constructor
        · intro ip
          rw [kept.1, next, fresh, List.map_append, List.mem_append, List.mem_cons, ih.known]
          simp [or_comm]
        · rw [kept.1, next, fresh, List.length_cons, ih.count, List.length_append]
          rfl
        · rw [fresh, List.length_append, List.length_singleton]
          exact room
        · rw [kept.2, next]
          exact window_taken calls ih call fresh room
        · rw [kept.2, next]
          rfl
        · rw [kept.2, next]
          exact ih.size

/-! ## One call -/

theorem samples_fit (calls : List (Addr × Int))
    (fit : ∀ call ∈ calls, -2 ^ 63 ≤ call.2 ∧ call.2 < 2 ^ 63) :
    ∀ sample ∈ samples calls, -2 ^ 63 ≤ sample := by
  have kept : ∀ call ∈ taken calls, call ∈ calls := by
    clear fit
    induction calls using List.reverseRecOn with
    | nil => exact List.forall_mem_nil _
    | append_singleton calls call ih =>
        intro other member
        rw [taken_append] at member
        split at member
        · exact List.mem_append_left _ (ih other member)
        · rcases List.mem_append.mp member with old | new
          · exact List.mem_append_left _ (ih other old)
          · exact List.mem_append_right _ new
  intro sample member
  rcases List.mem_cons.mp member with zero | other
  · rw [zero]
    decide
  · obtain ⟨call, inside, same⟩ := List.mem_map.mp other
    rw [← same]
    exact (fit call (kept call inside)).1

/-- The median is the least number of 64 bits exactly if more than half of the samples are. -/
theorem exactMedian_least (calls : List (Addr × Int))
    (fit : ∀ call ∈ calls, -2 ^ 63 ≤ call.2 ∧ call.2 < 2 ^ 63) (decides : Decides calls) :
    -2 ^ 63 < exactMedian calls ↔ 2 * (samples calls).count (-2 ^ 63) ≤ (samples calls).length := by
  have inside : (samples calls).length / 2 < (samples calls).length := by
    have many := decides.1
    omega
  have ranks := le_ranked_iff (samples calls) ((samples calls).length / 2) inside 0 (-2 ^ 63 + 1)
  have counts : (samples calls).countP (· < -2 ^ 63 + 1) = (samples calls).count (-2 ^ 63) := by
    rw [List.count]
    apply List.countP_congr
    intro sample member
    have least := samples_fit calls fit sample member
    rw [decide_eq_true_eq, beq_iff_eq]
    omega
  rw [counts] at ranks
  have odd := decides.2.1
  rw [← Int.add_one_le_iff, exactMedian, ranks]
  omega

theorem exactMedian_bottom (calls : List (Addr × Int))
    (fit : ∀ call ∈ calls, -2 ^ 63 ≤ call.2 ∧ call.2 < 2 ^ 63) (decides : Decides calls) :
    -2 ^ 63 ≤ exactMedian calls := by
  have inside : (samples calls).length / 2 < (samples calls).length := by
    have many := decides.1
    omega
  rw [exactMedian, le_ranked_iff _ _ inside, none_less (samples_fit calls fit)]
  exact Nat.zero_le _

/-- A call whose sample is taken at a moment that decides. -/
theorem decides_update (calls : List (Addr × Int)) (call : Addr × Int)
    (fresh : taken (calls ++ [call]) = taken calls ++ [call])
    (room : (taken calls).length < timedataMaxSamples) (st : TimeData Addr)
    (next : st = { afterCalls calls with
      setKnown := call.1 :: (afterCalls calls).setKnown
      vTimeOffsets := (afterCalls calls).vTimeOffsets.input call.2 }) :
    (st.vTimeOffsets.size ≥ 5 ∧ st.vTimeOffsets.size % 2 = 1 ↔ Decides (calls ++ [call])) ∧
      (Decides (calls ++ [call]) → st.vTimeOffsets.median = exactMedian (calls ++ [call])) := by
  have limit : timedataMaxSamples = 200 := rfl
  have window := window_taken calls (holds_after calls) call fresh room
  have grown : (taken (calls ++ [call])).length = (taken calls).length + 1 := by simp [fresh]
  have length : (samples (calls ++ [call])).length = (taken calls).length + 2 := by
    simp [samples, grown]
  have values : st.vTimeOffsets.vValues = (afterCalls calls).vTimeOffsets.window call.2 := by
    rw [next]
    rfl
  have sorted : st.vTimeOffsets.vSorted = st.vTimeOffsets.vValues.insertionSort (· ≤ ·) := by
    rw [next]
    rfl
  have size : st.vTimeOffsets.size = if (taken calls).length + 1 < timedataMaxSamples
      then (taken calls).length + 2 else (taken calls).length + 1 := by
    rw [CMedianFilter.size, values, window, grown]
    split
    · exact length
    · rw [List.length_map, grown]
  have decides : st.vTimeOffsets.size ≥ 5 ∧ st.vTimeOffsets.size % 2 = 1 ↔
      Decides (calls ++ [call]) := by
    rw [Decides, size, length]
    split <;> omega
  refine ⟨decides, fun moment => ?_⟩
  have early : (taken calls).length + 1 < timedataMaxSamples := by
    have bound := moment.2.2
    rw [length] at bound
    omega
  rw [grown, if_pos early] at window
  have odd := moment.2.1
  rw [CMedianFilter.median, sorted, values, window, exactMedian, ranked]
  simp only [List.length_insertionSort]
  rw [if_pos odd]

omit [DecidableEq Addr] in
theorem update_offset (st : TimeData Addr) :
    st.update.nTimeOffset =
        (if abs64 st.vTimeOffsets.median < 70 * 60 then st.vTimeOffsets.median else 0) ∧
      st.update.offsetOverflow = (st.offsetOverflow || abs64Overflows st.vTimeOffsets.median) := by
  rw [update]
  dsimp only
  split_ifs <;> exact ⟨rfl, rfl⟩

theorem bounded_same (calls : List (Addr × Int)) (call : Addr × Int) (bounded : Bounded calls)
    (offset : (afterCalls (calls ++ [call])).nTimeOffset = (afterCalls calls).nTimeOffset)
    (quiet : (afterCalls (calls ++ [call])).offsetOverflow = (afterCalls calls).offsetOverflow) :
    Bounded (calls ++ [call]) where
  small := by
    rw [offset]
    exact bounded.small
  quiet := by
    rw [quiet]
    exact bounded.quiet
  median := by
    rw [offset]
    rcases bounded.median with zero | ⟨before, part, decides, same⟩
    · exact .inl zero
    · exact .inr ⟨before, part.trans (List.prefix_append calls [call]), decides, same⟩

/-- The promise survives a call exactly if not more than half of the samples are the least number
when the offset may change. -/
theorem bounded_next (calls : List (Addr × Int)) (call : Addr × Int)
    (fit : ∀ other ∈ calls ++ [call], -2 ^ 63 ≤ other.2 ∧ other.2 < 2 ^ 63)
    (bounded : Bounded calls) (few : FewLeast calls) :
    Bounded (calls ++ [call]) ↔ FewLeast (calls ++ [call]) := by
  rcases addTimeData_cases calls (holds_after calls) call with
    ⟨same, still⟩ | ⟨fresh, room, _, st, next, after⟩
  · have samples_same : samples (calls ++ [call]) = samples calls := by rw [samples, same, samples]
    constructor
    · intro _
      rw [FewLeast, Decides, samples_same]
      exact few
    · intro _
      exact bounded_same calls call bounded (by rw [still]) (by rw [still])
  · obtain ⟨moment, median⟩ := decides_update calls call fresh room st next
    by_cases decides : Decides (calls ++ [call])
    · rw [if_pos (moment.mpr decides)] at after
      obtain ⟨offset, overflow⟩ := update_offset st
      have quiet : st.offsetOverflow = false := by
        rw [next]
        exact bounded.quiet
      rw [← after, median decides] at offset overflow
      rw [quiet, Bool.false_or] at overflow
      have least := exactMedian_least (calls ++ [call]) fit decides
      have bottom := exactMedian_bottom (calls ++ [call]) fit decides
      constructor
      · intro promised _
        rw [← least]
        have none := promised.quiet
        rw [overflow, Bool.eq_false_iff, ne_eq, abs64Overflows_iff _ bottom] at none
        omega
      · intro minority
        have above := least.mpr (minority decides)
        refine ⟨?_, ?_, ?_⟩
        · rw [offset]
          split
          · rename_i below
            exact abs64_small _ _ above below
          · decide
        · rw [overflow, Bool.eq_false_iff, ne_eq, abs64Overflows_iff _ bottom]
          omega
        · rw [offset]
          split
          · exact .inr ⟨_, List.prefix_refl _, decides, rfl⟩
          · exact .inl rfl
    · rw [if_neg fun due => decides (moment.mp due)] at after
      constructor
      · intro _ due
        exact absurd due decides
      · intro _
        exact bounded_same calls call bounded (by rw [after, next]) (by rw [after, next])

/-! ## Sequences of calls -/

/-- For every sequence of calls with samples of 64 bits: the offset stays within seventy minutes,
without an overflow, and is zero or a median, exactly if the least number of 64 bits is never more
than half of the samples when the offset may change. -/
theorem time_offset_bounded_iff (calls : List (Addr × Int))
    (fit : ∀ call ∈ calls, -2 ^ 63 ≤ call.2 ∧ call.2 < 2 ^ 63) :
    (∀ before, before <+: calls → Bounded before) ↔
      ∀ before, before <+: calls → FewLeast before := by
  apply Runs.histories_iff
  · constructor
    · intro _ decides
      have many : 5 ≤ 1 := decides.1
      omega
    · intro _
      have zero : (afterCalls ([] : List (Addr × Int))).nTimeOffset = 0 := rfl
      exact ⟨by omega, rfl, .inl zero⟩
  · intro before call part bounded few
    apply bounded_next before call _ bounded few
    intro other member
    exact fit other (part.subset member)

theorem time_offset_bounded_iff_once :
    (∀ before, before <+: [((1 : Nat), 60), (2, -2 ^ 63)] → Bounded before) ↔
      ∀ before, before <+: [((1 : Nat), 60), (2, -2 ^ 63)] → FewLeast before :=
  time_offset_bounded_iff [((1 : Nat), 60), (2, -2 ^ 63)] (by decide)

/-- Four peers whose clocks are off by the least number of 64 bits. -/
def leastOffsets : List (Nat × Int) := [1, 2, 3, 4].map fun ip => (ip, -2 ^ 63)

/-- Their median passes the check for seventy minutes. -/
theorem time_offset_unbounded : (afterCalls leastOffsets).nTimeOffset = -2 ^ 63 ∧
    (afterCalls leastOffsets).offsetOverflow = true ∧ ¬ Bounded leastOffsets := by
  have least : (afterCalls leastOffsets).nTimeOffset = -2 ^ 63 := by decide +kernel
  refine ⟨least, by decide +kernel, fun bounded => ?_⟩
  have small := bounded.small
  omega

end TimeData

end RoiCoin
