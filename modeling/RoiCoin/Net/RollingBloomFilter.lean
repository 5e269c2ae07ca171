import RoiCoin.Net.BloomRuns

/-! The rolling filter (`CRollingBloomFilter`): two bloom filters cleared in turn. -/

namespace RoiCoin

open Checked RollingWindow

/-- The floating-point computations of the constructor. -/
structure FilterSizes where
  /-- `-1 / LN2SQUARED * nElements * log(nFPRate)` -/
  idealBits : BitVec 32 → BitVec 32
  /-- A number times `LN2` -/
  timesLn2 : Nat → BitVec 32
  timesLn2_zero : timesLn2 0 = 0

/-- The private constructor. -/
def CBloomFilter.unrestricted (sizes : FilterSizes) (nElements nTweak : BitVec 32) :
    Filtering CBloomFilter := do
  let vData : Bytes := List.replicate ((sizes.idealBits nElements).toNat / 8) 0
  require (nElements ≠ 0#32) .divisionByZero
  return ⟨vData, false, true, sizes.timesLn2 (vData.length * 8 / nElements.toNat), nTweak,
    bloomUpdateNone, []⟩

structure CRollingBloomFilter where
  nBloomSize : BitVec 32
  nInsertions : BitVec 32
  b1 : CBloomFilter
  b2 : CBloomFilter
  deriving DecidableEq, Repr

namespace CRollingBloomFilter

/-- The new tweak is the result of `GetRand`. -/
def reset (rolling : CRollingBloomFilter) (nNewTweak : BitVec 32) : CRollingBloomFilter :=
  { rolling with
    b1 := rolling.b1.reset nNewTweak
    b2 := rolling.b2.reset nNewTweak
    nInsertions := 0#32 }

def create (sizes : FilterSizes) (nElements nNewTweak : BitVec 32) :
    Filtering CRollingBloomFilter := do
  let b1 ← CBloomFilter.unrestricted sizes (nElements * 2#32) 0
  let b2 ← CBloomFilter.unrestricted sizes (nElements * 2#32) 0
  return reset ⟨nElements * 2#32, 0, b1, b2⟩ nNewTweak

def insert (rolling : CRollingBloomFilter) (vKey : Bytes) : Filtering CRollingBloomFilter := do
  let b1 := if rolling.nInsertions = 0#32 then rolling.b1.clear else rolling.b1
  let b2 :=
    if rolling.nInsertions ≠ 0#32 ∧ rolling.nInsertions = rolling.nBloomSize / 2#32 then
      rolling.b2.clear
    else rolling.b2
  let b1 ← b1.insert vKey
  let b2 ← b2.insert vKey
  let nInsertions := rolling.nInsertions + 1#32
  return { rolling with
    b1, b2, nInsertions := if nInsertions = rolling.nBloomSize then 0#32 else nInsertions }

def contains (rolling : CRollingBloomFilter) (vKey : Bytes) : Filtering Bool :=
  if rolling.nInsertions < rolling.nBloomSize / 2#32 then rolling.b2.contains vKey
  else rolling.b1.contains vKey

/-! ## The two filters as a window -/

def generations (rolling : CRollingBloomFilter) : Generations Bytes :=
  ⟨rolling.nInsertions.toNat, rolling.b1.inserted, rolling.b2.inserted⟩

/-- Both filters answer for what was put into them, and these are the newest keys. -/
structure Windowed (nElements : Nat) (history : List Bytes) (rolling : CRollingBloomFilter) :
    Prop where
  nBloomSize : rolling.nBloomSize.toNat = 2 * nElements
  sound1 : rolling.b1.Sound
  sound2 : rolling.b2.Sound
  clearable1 : rolling.b1.Clearable
  clearable2 : rolling.b2.Clearable
  tracks : Tracks nElements history rolling.generations

theorem half_size (nBloomSize : BitVec 32) (nElements : Nat)
    (size : nBloomSize.toNat = 2 * nElements) : (nBloomSize / 2#32).toNat = nElements := by
  rw [BitVec.toNat_udiv, size]
  simp

/-- A filter that is cleared or kept before a key is put in. -/
theorem refill_ok (filter : CBloomFilter) (clears : Prop) [Decidable clears] (vKey : Bytes)
    (sound : filter.Sound) (clearable : filter.Clearable) :
    ∃ next, (if clears then filter.clear else filter).insert vKey = .ok next ∧ next.Sound ∧
      next.Clearable ∧
      next.inserted = vKey :: (if clears then [] else filter.inserted) := by
  by_cases cleared : clears
  · simp only [if_pos cleared]
    obtain ⟨next, put, follows, inserted⟩ :=
      CBloomFilter.insert_ok filter.clear vKey (CBloomFilter.clear_sound filter clearable)
    refine ⟨next, put, follows.sound, ?_, inserted⟩
    apply (CBloomFilter.clearable_congr filter next _ follows.nHashFuncs).mpr clearable
    simpa [CBloomFilter.clear] using follows.size
  · simp only [if_neg cleared]
    obtain ⟨next, put, follows, inserted⟩ := CBloomFilter.insert_ok filter vKey sound
    refine ⟨next, put, follows.sound, ?_, inserted⟩
    exact (CBloomFilter.clearable_congr filter next follows.size follows.nHashFuncs).mpr clearable

/-- An insertion does to the keys of the two filters what one does to the window. -/
theorem insert_windowed (nElements : Nat) (history : List Bytes) (rolling : CRollingBloomFilter)
    (vKey : Bytes) (windowed : Windowed nElements history rolling) :
    ∃ next, rolling.insert vKey = .ok next ∧ Windowed nElements (vKey :: history) next := by
  have size := windowed.nBloomSize
  have half := half_size rolling.nBloomSize nElements size
  have bounded : rolling.nInsertions.toNat < 2 * nElements := windowed.tracks.bounded
  have word := rolling.nBloomSize.isLt
  obtain ⟨b1, put1, sound1, clearable1, inserted1⟩ :=
    refill_ok rolling.b1 (rolling.nInsertions = 0#32) vKey windowed.sound1 windowed.clearable1
  obtain ⟨b2, put2, sound2, clearable2, inserted2⟩ :=
    refill_ok rolling.b2
      (rolling.nInsertions ≠ 0#32 ∧ rolling.nInsertions = rolling.nBloomSize / 2#32) vKey
      windowed.sound2 windowed.clearable2
  have none : rolling.nInsertions = 0#32 ↔ rolling.nInsertions.toNat = 0 := by
    rw [← BitVec.toNat_inj, BitVec.toNat_ofNat, Nat.zero_mod]
  have midway : rolling.nInsertions = rolling.nBloomSize / 2#32 ↔
      rolling.nInsertions.toNat = nElements := by
    rw [← BitVec.toNat_inj, half]
  have counted : (rolling.nInsertions + 1#32).toNat = rolling.nInsertions.toNat + 1 := by
    rw [BitVec.toNat_add, BitVec.toNat_ofNat]
    omega
  have wraps : rolling.nInsertions + 1#32 = rolling.nBloomSize ↔
      rolling.nInsertions.toNat + 1 = 2 * nElements := by
    rw [← BitVec.toNat_inj, counted, size]
  let next : CRollingBloomFilter := { rolling with
    b1, b2
    nInsertions :=
      if rolling.nInsertions + 1#32 = rolling.nBloomSize then 0#32 else rolling.nInsertions + 1#32 }
  refine ⟨next, ?_, size, sound1, sound2, clearable1, clearable2, ?_⟩
  · simp only [insert, put1, put2, bind, Except.bind]
    rfl
  · have same : next.generations =
        RollingWindow.insert nElements rolling.generations vKey := by
      simp only [next, generations, RollingWindow.insert, inserted1, inserted2, none, midway, wraps,
        ne_eq, apply_ite BitVec.toNat, counted, BitVec.toNat_ofNat, Nat.zero_mod]
      congr
    rw [same]
    exact tracks_insert nElements history rolling.generations vKey windowed.tracks

theorem reset_windowed (nElements : Nat) (positive : 0 < nElements)
    (rolling : CRollingBloomFilter) (nNewTweak : BitVec 32)
    (size : rolling.nBloomSize.toNat = 2 * nElements) (clearable1 : rolling.b1.Clearable)
    (clearable2 : rolling.b2.Clearable) : Windowed nElements [] (rolling.reset nNewTweak) where
  nBloomSize := size
  sound1 := CBloomFilter.reset_sound rolling.b1 nNewTweak clearable1
  sound2 := CBloomFilter.reset_sound rolling.b2 nNewTweak clearable2
  clearable1 := (CBloomFilter.reset_clearable rolling.b1 nNewTweak).mpr clearable1
  clearable2 := (CBloomFilter.reset_clearable rolling.b2 nNewTweak).mpr clearable2
  tracks := tracks_start nElements positive

/-- What the private constructor makes; without data there are no hash functions. -/
theorem unrestricted_ok (sizes : FilterSizes) (nElements nTweak : BitVec 32)
    (nonzero : nElements ≠ 0#32) :
    ∃ filter, CBloomFilter.unrestricted sizes nElements nTweak = .ok filter ∧
      filter.Clearable := by
  have allowed := require_of (nElements ≠ 0#32) FilterFault.divisionByZero nonzero
  refine ⟨_, by simp only [CBloomFilter.unrestricted, allowed, bind, Except.bind]; rfl, ?_⟩
  by_cases empty : (sizes.idealBits nElements).toNat / 8 = 0
  · right
    simp only [List.length_replicate, empty, Nat.zero_mul, Nat.zero_div]
    exact sizes.timesLn2_zero
  · left
    simpa using empty

theorem contains_windowed (nElements : Nat) (history : List Bytes)
    (rolling : CRollingBloomFilter) (windowed : Windowed nElements history rolling)
    (vKey : Bytes) (recent : vKey ∈ history.take nElements) :
    rolling.contains vKey = .ok true := by
  have found := window_current nElements history rolling.generations windowed.tracks vKey recent
  have early : rolling.nInsertions < rolling.nBloomSize / 2#32 ↔
      rolling.generations.count < nElements := by
    rw [BitVec.lt_def, half_size rolling.nBloomSize nElements windowed.nBloomSize]
    rfl
  simp only [contains, current, early] at found ⊢
  split at found
  · rename_i first
    rw [if_pos first]
    exact CBloomFilter.contains_inserted rolling.b2 vKey windowed.sound2 found
  · rename_i second
    rw [if_neg second]
    exact CBloomFilter.contains_inserted rolling.b1 vKey windowed.sound1 found

theorem contains_answers (rolling : CRollingBloomFilter) (vKey : Bytes)
    (sound1 : rolling.b1.Sound) (sound2 : rolling.b2.Sound) :
    ∃ found, rolling.contains vKey = .ok found := by
  rw [contains]
  split
  · exact CBloomFilter.contains_ok rolling.b2 vKey sound2
  · exact CBloomFilter.contains_ok rolling.b1 vKey sound1

/-! ## Runs -/

inductive RollingStep where
  | insert (vKey : Bytes)
  | reset (nNewTweak : BitVec 32)

def step (rolling : CRollingBloomFilter) : RollingStep → Filtering CRollingBloomFilter
  | .insert vKey => rolling.insert vKey
  | .reset nNewTweak => .ok (rolling.reset nNewTweak)

def run (rolling : CRollingBloomFilter) : List RollingStep → Filtering CRollingBloomFilter
  | [] => .ok rolling
  | op :: ops => do
      let rolling ← rolling.step op
      rolling.run ops

/-- The keys put in since the last reset, after the given ones, the newest first. -/
def historyOf (history : List Bytes) : List RollingStep → List Bytes
  | [] => history
  | .insert vKey :: ops => historyOf (vKey :: history) ops
  | .reset _ :: ops => historyOf [] ops

theorem run_windowed (nElements : Nat) (positive : 0 < nElements) (history : List Bytes)
    (rolling : CRollingBloomFilter) (ops : List RollingStep)
    (windowed : Windowed nElements history rolling) :
    ∃ last, rolling.run ops = .ok last ∧ Windowed nElements (historyOf history ops) last := by
  induction ops generalizing history rolling with
  | nil => exact ⟨rolling, rfl, windowed⟩
  | cons op ops ih =>
      cases op with
      | insert vKey =>
          obtain ⟨next, put, stays⟩ := insert_windowed nElements history rolling vKey windowed
          obtain ⟨last, rest, ends⟩ := ih (vKey :: history) next stays
          refine ⟨last, ?_, ends⟩
          simp only [run, step, put, bind, Except.bind]
          exact rest
      | reset nNewTweak =>
          have stays := reset_windowed nElements positive rolling nNewTweak windowed.nBloomSize
            windowed.clearable1 windowed.clearable2
          obtain ⟨last, rest, ends⟩ := ih [] (rolling.reset nNewTweak) stays
          exact ⟨last, rest, ends⟩

/-- The constructor divides by zero where twice the capacity is zero. -/
theorem create_fails (sizes : FilterSizes) (nElements nNewTweak : BitVec 32)
    (zero : nElements * 2#32 = 0#32) :
    create sizes nElements nNewTweak = .error .divisionByZero := by
  simp only [create, CBloomFilter.unrestricted, zero, require, bind, Except.bind, ne_eq,
    not_true_eq_false, if_false]

theorem create_windowed (sizes : FilterSizes) (nElements nNewTweak : BitVec 32)
    (positive : 0 < nElements.toNat) (small : nElements.toNat < 2 ^ 31) :
    ∃ rolling, create sizes nElements nNewTweak = .ok rolling ∧
      Windowed nElements.toNat [] rolling := by
  have twice : (nElements * 2#32).toNat = 2 * nElements.toNat := by
    rw [BitVec.toNat_mul, BitVec.toNat_ofNat]
    omega
  have nonzero : nElements * 2#32 ≠ 0#32 := by
    intro zero
    rw [zero, BitVec.toNat_ofNat] at twice
    omega
  obtain ⟨filter, made, clearable⟩ := unrestricted_ok sizes (nElements * 2#32) 0 nonzero
  refine ⟨reset ⟨nElements * 2#32, 0, filter, filter⟩ nNewTweak, ?_, ?_⟩
  · simp only [create, made, bind, Except.bind]
    rfl
  · exact reset_windowed nElements.toNat positive ⟨nElements * 2#32, 0, filter, filter⟩ nNewTweak
      twice clearable clearable

end CRollingBloomFilter

/-- Sizes for a false positive rate of one in a hundred. -/
def onePercentSizes : FilterSizes where
  idealBits nElements := BitVec.ofNat 32 (nElements.toNat * 9585 / 1000)
  timesLn2 n := BitVec.ofNat 32 (n * 693147 / 1000000)
  timesLn2_zero := rfl

end RoiCoin
