import RoiCoin.Net.BloomMembership
import RoiCoin.Lib.RollingWindow

/-! Runs of a loaded bloom filter, and the rolling filter (`CRollingBloomFilter`). -/

namespace RoiCoin

open Checked

namespace CBloomFilter

/-! ## Clearing -/

/-- A filter that may be cleared: it has data, or uses no hash functions. -/
def Clearable (filter : CBloomFilter) : Prop := filter.vData ≠ [] ∨ filter.nHashFuncs = 0

instance (filter : CBloomFilter) : Decidable filter.Clearable :=
  inferInstanceAs (Decidable (_ ∨ _))

theorem clearable_congr (first filter : CBloomFilter)
    (size : filter.vData.length = first.vData.length)
    (nHashFuncs : filter.nHashFuncs = first.nHashFuncs) :
    filter.Clearable ↔ first.Clearable := by
  rw [Clearable, Clearable, nHashFuncs, ← List.length_pos_iff, ← List.length_pos_iff, size]

theorem clear_clearable (filter : CBloomFilter) : filter.clear.Clearable ↔ filter.Clearable :=
  clearable_congr filter filter.clear (by simp [clear]) rfl

theorem reset_clearable (filter : CBloomFilter) (nNewTweak : BitVec 32) :
    (filter.reset nNewTweak).Clearable ↔ filter.Clearable :=
  clearable_congr filter (filter.reset nNewTweak) (by simp [reset, clear]) rfl

theorem clear_sound (filter : CBloomFilter) (clearable : filter.Clearable) :
    filter.clear.Sound where
  ready := by
    refine Or.inr (clearable.imp (fun some => ?_) (fun none => ?_))
    · simpa [clear] using some
    · simp [clear, none]
  filled some := absurd rfl some
  bits := Or.inr fun vKey member => by simp [clear] at member

theorem reset_sound (filter : CBloomFilter) (nNewTweak : BitVec 32)
    (clearable : filter.Clearable) : (filter.reset nNewTweak).Sound where
  ready := (clear_sound filter clearable).ready
  filled some := absurd rfl some
  bits := Or.inr fun vKey member => by simp [reset, clear] at member

/-- A filter without data does not accept a key after it was cleared. -/
theorem insert_cleared (filter : CBloomFilter) (vKey : Bytes) (none : ¬ filter.Clearable)
    (full : filter.isFull = false) : filter.insert vKey = .error .divisionByZero := by
  rw [Clearable, not_or, not_not] at none
  have hashes : filter.nHashFuncs.toNat ≠ 0 := by
    intro zero
    exact none.2 (BitVec.eq_of_toNat_eq zero)
  obtain ⟨left, some⟩ := Nat.exists_eq_succ_of_ne_zero hashes
  have faults : filter.hash 0 vKey = .error .divisionByZero := by
    rw [hash, none.1]
    rfl
  rw [insert, full, some]
  simp only [insertLoop, faults, bind, Except.bind, Bool.false_eq_true, if_false]

theorem load_sound (vData : Bytes) (nHashFuncs nTweak : BitVec 32) (nFlags : UInt8)
    (filter : CBloomFilter) (loaded : load vData nHashFuncs nTweak nFlags = some filter) :
    filter.Sound ∧ filter.vData = vData ∧ filter.nHashFuncs = nHashFuncs := by
  simp only [load, Option.ite_none_right_eq_some, Option.some.injEq] at loaded
  obtain ⟨_, same⟩ := loaded
  subst same
  refine ⟨⟨?_, fun some => absurd rfl some, Or.inr ?_⟩, rfl, rfl⟩
  · by_cases none : vData = []
    · exact Or.inl (by simp [updateEmptyFull, none])
    · exact Or.inr (Or.inl none)
  · intro vKey member
    simp [updateEmptyFull] at member

/-! ## Runs -/

inductive FilterStep where
  | insert (vKey : Bytes)
  | contains (vKey : Bytes)
  | isRelevantAndUpdate (tx : CTransaction)
  | clear
  | reset (nNewTweak : BitVec 32)

def FilterStep.clears : FilterStep → Bool
  | .clear | .reset _ => true
  | _ => false

section Steps

variable (getHash : CTransaction → Uint256) (fDatacarrier : Bool) (nMaxDatacarrierBytes : Nat)

def step (filter : CBloomFilter) : FilterStep → Filtering CBloomFilter
  | .insert vKey => filter.insert vKey
  | .contains vKey => (filter.contains vKey).map fun _ => filter
  | .isRelevantAndUpdate tx =>
      (filter.isRelevantAndUpdate getHash fDatacarrier nMaxDatacarrierBytes tx).map Prod.fst
  | .clear => .ok filter.clear
  | .reset nNewTweak => .ok (filter.reset nNewTweak)

def advance (state : Filtering CBloomFilter) (op : FilterStep) : Filtering CBloomFilter :=
  state.bind fun filter => filter.step getHash fDatacarrier nMaxDatacarrierBytes op

/-- The operations so far did not fail, none would fail now, and every key put in since the filter
was loaded or cleared is found. -/
def Serves (state : Filtering CBloomFilter) : Prop :=
  ∃ filter, state = .ok filter ∧
    (∀ vKey ∈ filter.inserted, filter.contains vKey = .ok true) ∧
    ∀ op, ∃ next, filter.step getHash fDatacarrier nMaxDatacarrierBytes op = .ok next

/-- A sound filter with as much data and as many hash functions as the first one. -/
def SoundLike (first : CBloomFilter) (state : Filtering CBloomFilter) : Prop :=
  ∃ filter, state = .ok filter ∧ filter.Sound ∧ filter.vData.length = first.vData.length ∧
    filter.nHashFuncs = first.nHashFuncs

/-- What a step makes of a sound filter. -/
theorem step_sound (filter : CBloomFilter) (op : FilterStep) (sound : filter.Sound)
    (allowed : op.clears = false ∨ filter.Clearable) :
    ∃ next, filter.step getHash fDatacarrier nMaxDatacarrierBytes op = .ok next ∧ next.Sound ∧
      next.vData.length = filter.vData.length ∧ next.nHashFuncs = filter.nHashFuncs := by
  cases op with
  | insert vKey =>
      obtain ⟨next, put, follows, _⟩ := insert_ok filter vKey sound
      exact ⟨next, put, follows.sound, follows.size, follows.nHashFuncs⟩
  | contains vKey =>
      obtain ⟨found, asked⟩ := contains_ok filter vKey sound
      exact ⟨filter, by simp [step, asked, Except.map], sound, rfl, rfl⟩
  | isRelevantAndUpdate tx =>
      obtain ⟨next, found, updated, follows⟩ :=
        isRelevantAndUpdate_ok getHash fDatacarrier nMaxDatacarrierBytes filter tx sound
      exact ⟨next, by simp [step, updated, Except.map], follows.sound, follows.size,
        follows.nHashFuncs⟩
  | clear =>
      have clearable := allowed.resolve_left (by simp [FilterStep.clears])
      exact ⟨filter.clear, rfl, clear_sound filter clearable, by simp [clear], rfl⟩
  | reset nNewTweak =>
      have clearable := allowed.resolve_left (by simp [FilterStep.clears])
      exact ⟨filter.reset nNewTweak, rfl, reset_sound filter nNewTweak clearable,
        by simp [reset, clear], rfl⟩

/-- No operation fails on a sound filter, one that clears it included. -/
theorem sound_serves (filter : CBloomFilter) (sound : filter.Sound) :
    Serves getHash fDatacarrier nMaxDatacarrierBytes (.ok filter) := by
  refine ⟨filter, rfl, fun vKey member => contains_inserted filter vKey sound member, ?_⟩
  intro op
  by_cases clears : op.clears = true
  · cases op with
    | clear => exact ⟨filter.clear, rfl⟩
    | reset nNewTweak => exact ⟨filter.reset nNewTweak, rfl⟩
    | insert vKey => simp [FilterStep.clears] at clears
    | contains vKey => simp [FilterStep.clears] at clears
    | isRelevantAndUpdate tx => simp [FilterStep.clears] at clears
  · obtain ⟨next, taken, _⟩ := step_sound getHash fDatacarrier nMaxDatacarrierBytes filter op sound
      (Or.inl (by simpa using clears))
    exact ⟨next, taken⟩

theorem cleared_fails (filter next : CBloomFilter) (op : FilterStep) (clears : op.clears = true)
    (taken : filter.step getHash fDatacarrier nMaxDatacarrierBytes op = .ok next)
    (none : ¬ filter.Clearable) :
    ¬ Serves getHash fDatacarrier nMaxDatacarrierBytes (.ok next) := by
  have left : next.isFull = false ∧ ¬ next.Clearable := by
    cases op with
    | clear =>
        cases Except.ok.inj taken
        exact ⟨rfl, mt (clear_clearable filter).mp none⟩
    | reset nNewTweak =>
        cases Except.ok.inj taken
        exact ⟨rfl, mt (reset_clearable filter nNewTweak).mp none⟩
    | insert vKey => simp [FilterStep.clears] at clears
    | contains vKey => simp [FilterStep.clears] at clears
    | isRelevantAndUpdate tx => simp [FilterStep.clears] at clears
  intro serves
  obtain ⟨filter', same, _, all⟩ := serves
  cases Except.ok.inj same
  obtain ⟨after, put⟩ := all (.insert [])
  rw [step, insert_cleared next [] left.2 left.1] at put
  cases put

/-- A sound filter serves throughout a run exactly if it has data, or uses no hash functions, or
is not cleared. -/
theorem serves_iff (filter : CBloomFilter) (sound : filter.Sound) (ops : List FilterStep) :
    Runs.Always (advance getHash fDatacarrier nMaxDatacarrierBytes)
        (Serves getHash fDatacarrier nMaxDatacarrierBytes) (.ok filter) ops ↔
      filter.Clearable ∨ ∀ op ∈ ops, op.clears = false := by
  have steps := Runs.always_iff (advance getHash fDatacarrier nMaxDatacarrierBytes)
    (Serves getHash fDatacarrier nMaxDatacarrierBytes) (SoundLike filter)
    (fun _ op => op.clears = false ∨ filter.Clearable) ?_ ?_ ?_ (.ok filter) ops
    ⟨filter, rfl, sound, rfl, rfl⟩
  · rw [steps, Runs.eachStep_iff]
    by_cases clearable : filter.Clearable
    · simp [clearable]
    · simp [clearable]
  · intro state like
    obtain ⟨now, rfl, sound, _⟩ := like
    exact sound_serves getHash fDatacarrier nMaxDatacarrierBytes now sound
  · intro state op like allowed
    obtain ⟨now, rfl, sound, size, nHashFuncs⟩ := like
    obtain ⟨next, taken, stays, sameSize, sameFuncs⟩ :=
      step_sound getHash fDatacarrier nMaxDatacarrierBytes now op sound
        (allowed.imp_right (clearable_congr filter now size nHashFuncs).mpr)
    exact ⟨next, taken, stays, sameSize.trans size, sameFuncs.trans nHashFuncs⟩
  · intro state op like refused serves
    obtain ⟨now, rfl, sound, size, nHashFuncs⟩ := like
    rw [not_or, Bool.not_eq_false, ← clearable_congr filter now size nHashFuncs] at refused
    have again := serves
    obtain ⟨next, taken, _⟩ := serves
    rw [taken] at again
    exact cleared_fails getHash fDatacarrier nMaxDatacarrierBytes now next op refused.1 taken
      refused.2 again

end Steps

end CBloomFilter

end RoiCoin
