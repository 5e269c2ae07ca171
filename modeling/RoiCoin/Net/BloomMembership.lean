import RoiCoin.Net.BloomFilter
import RoiCoin.Lib.Runs

/-! A bloom filter finds what was put into it, and its operations do not fail, as long as a filter
without data is not cleared. -/

namespace RoiCoin

open Checked PackedBits

namespace CBloomFilter

/-- All bits of the key are set. -/
def HasBits (filter : CBloomFilter) (vKey : Bytes) : Prop :=
  ∀ i < filter.nHashFuncs.toNat, testBit filter.vData (filter.position i vKey) = true

/-- No operation of the filter reduces modulo zero, and the flags and bits show every key. -/
structure Sound (filter : CBloomFilter) : Prop where
  ready : filter.isFull = true ∨ filter.vData ≠ [] ∨ filter.nHashFuncs.toNat = 0
  filled : filter.inserted ≠ [] → filter.isFull = true ∨ filter.isEmpty = false
  bits : filter.isFull = true ∨ ∀ vKey ∈ filter.inserted, filter.HasBits vKey

/-- A sound filter that followed by more insertions. -/
structure Follows (filter next : CBloomFilter) : Prop where
  sound : next.Sound
  size : next.vData.length = filter.vData.length
  nHashFuncs : next.nHashFuncs = filter.nHashFuncs
  keeps : ∀ vKey ∈ filter.inserted, vKey ∈ next.inserted

theorem follows_refl (filter : CBloomFilter) (sound : filter.Sound) : Follows filter filter :=
  ⟨sound, rfl, rfl, fun _ member => member⟩

theorem follows_trans (first second third : CBloomFilter) (early : Follows first second)
    (late : Follows second third) : Follows first third where
  sound := late.sound
  size := late.size.trans early.size
  nHashFuncs := late.nHashFuncs.trans early.nHashFuncs
  keeps vKey member := late.keeps vKey (early.keeps vKey member)

/-! ## Positions -/

theorem bits_positive (filter : CBloomFilter) (some : filter.vData ≠ []) :
    0 < filter.vData.length * 8 := by
  have positive := List.length_pos_of_ne_nil some
  omega

theorem hash_ok (filter : CBloomFilter) (i : Nat) (vKey : Bytes) (some : filter.vData ≠ []) :
    filter.hash i vKey = .ok (filter.position i vKey) := by
  have positive := bits_positive filter some
  rw [hash, if_neg (by omega)]

theorem position_inside (filter : CBloomFilter) (i : Nat) (vKey : Bytes)
    (some : filter.vData ≠ []) : filter.position i vKey < filter.vData.length * 8 :=
  Nat.mod_lt _ (bits_positive filter some)

/-- A position depends on the tweak and on how much data there is. -/
theorem position_congr (filter next : CBloomFilter) (i : Nat) (vKey : Bytes)
    (size : next.vData.length = filter.vData.length) (nTweak : next.nTweak = filter.nTweak) :
    next.position i vKey = filter.position i vKey := by
  rw [position, position, size, nTweak]

/-! ## Insertion -/

theorem insertLoop_step (vKey : Bytes) (left i : Nat) (filter : CBloomFilter) (nIndex : Nat)
    (hashed : filter.hash i vKey = .ok nIndex) (inside : nIndex < filter.vData.length * 8) :
    insertLoop vKey (left + 1) i filter =
      insertLoop vKey left (i + 1) { filter with vData := setBit filter.vData nIndex } := by
  have bound := require_of (nIndex >>> 3 < filter.vData.length) FilterFault.outOfBounds
    (byte_inside filter.vData nIndex inside)
  simp only [insertLoop, hashed, bind, Except.bind, bound]

/-- What the loop of `insert` makes of the data. -/
theorem insertLoop_ok (vKey : Bytes) (left i : Nat) (filter : CBloomFilter)
    (ready : filter.vData ≠ [] ∨ left = 0) :
    ∃ vData, insertLoop vKey left i filter = .ok { filter with vData } ∧
      vData.length = filter.vData.length ∧
      (∀ n, testBit filter.vData n = true → testBit vData n = true) ∧
      ∀ j, i ≤ j → j < i + left → testBit vData (filter.position j vKey) = true := by
  induction left generalizing i filter with
  | zero => exact ⟨filter.vData, rfl, rfl, fun _ set => set, fun j _ _ => by omega⟩
  | succ left ih =>
      have some : filter.vData ≠ [] := ready.resolve_right (Nat.succ_ne_zero left)
      have inside := position_inside filter i vKey some
      let marked : CBloomFilter :=
        { filter with vData := setBit filter.vData (filter.position i vKey) }
      have size : marked.vData.length = filter.vData.length := length_setBit _ _
      have more : marked.vData ≠ [] := by
        have positive := List.length_pos_of_ne_nil some
        exact List.ne_nil_of_length_pos (by omega)
      obtain ⟨vData, loop, length, keeps, sets⟩ := ih (i + 1) marked (Or.inl more)
      refine ⟨vData, ?_, length.trans size, ?_, ?_⟩
      · exact (insertLoop_step vKey left i filter _ (hash_ok filter i vKey some) inside).trans loop
      · intro n set
        exact keeps n (testBit_setBit_of filter.vData _ n set)
      · intro j low high
        by_cases now : j = i
        · subst now
          exact keeps _ (testBit_setBit_self filter.vData _ inside)
        · have later := sets j (by omega) (by omega)
          rwa [position_congr filter marked j vKey size rfl] at later

theorem insert_ok (filter : CBloomFilter) (vKey : Bytes) (sound : filter.Sound) :
    ∃ next, filter.insert vKey = .ok next ∧ Follows filter next ∧
      next.inserted = vKey :: filter.inserted := by
  by_cases full : filter.isFull = true
  · refine ⟨{ filter with inserted := vKey :: filter.inserted }, ?_, ?_, rfl⟩
    · rw [insert, if_pos full]
    · have stays : Sound { filter with inserted := vKey :: filter.inserted } :=
        ⟨Or.inl full, fun _ => Or.inl full, Or.inl full⟩
      exact ⟨stays, rfl, rfl, fun other member => List.mem_cons_of_mem vKey member⟩
  · have ready := sound.ready.resolve_left full
    obtain ⟨vData, loop, size, keeps, sets⟩ :=
      insertLoop_ok vKey filter.nHashFuncs.toNat 0 filter ready
    let next : CBloomFilter :=
      { filter with vData := vData, isEmpty := false, inserted := vKey :: filter.inserted }
    have positions := fun i other => position_congr filter next i other size rfl
    refine ⟨next, ?_, ⟨⟨?_, fun _ => Or.inr rfl, Or.inr ?_⟩, size, rfl, ?_⟩, rfl⟩
    · rw [insert, if_neg full, loop]
      rfl
    · refine Or.inr (ready.imp_left ?_)
      intro some
      have positive := List.length_pos_of_ne_nil some
      exact List.ne_nil_of_length_pos (size ▸ positive)
    · intro other member i early
      rw [positions i other]
      rcases List.mem_cons.mp member with same | old
      · rw [same]
        exact sets i (Nat.zero_le i) (by simpa using early)
      · exact keeps _ (sound.bits.resolve_left full other old i early)
    · exact fun other member => List.mem_cons_of_mem vKey member

/-! ## Queries -/

theorem containsLoop_step (filter : CBloomFilter) (vKey : Bytes) (left i nIndex : Nat)
    (hashed : filter.hash i vKey = .ok nIndex) (inside : nIndex < filter.vData.length * 8) :
    filter.containsLoop vKey (left + 1) i =
      if testBit filter.vData nIndex then filter.containsLoop vKey left (i + 1) else .ok false := by
  have bound := require_of (nIndex >>> 3 < filter.vData.length) FilterFault.outOfBounds
    (byte_inside filter.vData nIndex inside)
  simp only [containsLoop, hashed, bind, Except.bind, bound]
  rfl

theorem containsLoop_ok (filter : CBloomFilter) (vKey : Bytes) (left i : Nat)
    (ready : filter.vData ≠ [] ∨ left = 0) :
    ∃ found, filter.containsLoop vKey left i = .ok found ∧
      ((∀ j, i ≤ j → j < i + left → testBit filter.vData (filter.position j vKey) = true) →
        found = true) := by
  induction left generalizing i with
  | zero => exact ⟨true, rfl, fun _ => rfl⟩
  | succ left ih =>
      have some : filter.vData ≠ [] := ready.resolve_right (Nat.succ_ne_zero left)
      have inside := position_inside filter i vKey some
      rw [containsLoop_step filter vKey left i _ (hash_ok filter i vKey some) inside]
      by_cases set : testBit filter.vData (filter.position i vKey) = true
      · rw [if_pos set]
        obtain ⟨found, loop, finds⟩ := ih (i + 1) (Or.inl some)
        refine ⟨found, loop, fun all => finds ?_⟩
        intro j low high
        exact all j (by omega) (by omega)
      · rw [if_neg set]
        refine ⟨false, rfl, fun all => ?_⟩
        exact absurd (all i (Nat.le_refl i) (by omega)) set

theorem contains_ok (filter : CBloomFilter) (vKey : Bytes) (sound : filter.Sound) :
    ∃ found, filter.contains vKey = .ok found := by
  rw [contains]
  by_cases full : filter.isFull = true
  · exact ⟨true, if_pos full⟩
  · rw [if_neg full]
    by_cases empty : filter.isEmpty = true
    · exact ⟨false, if_pos empty⟩
    · rw [if_neg empty]
      obtain ⟨found, loop, _⟩ := containsLoop_ok filter vKey filter.nHashFuncs.toNat 0
        (sound.ready.resolve_left full)
      exact ⟨found, loop⟩

theorem contains_inserted (filter : CBloomFilter) (vKey : Bytes) (sound : filter.Sound)
    (member : vKey ∈ filter.inserted) : filter.contains vKey = .ok true := by
  rw [contains]
  by_cases full : filter.isFull = true
  · exact if_pos full
  · have filled := (sound.filled (List.ne_nil_of_mem member)).resolve_left full
    have bits := sound.bits.resolve_left full vKey member
    obtain ⟨found, loop, finds⟩ := containsLoop_ok filter vKey filter.nHashFuncs.toNat 0
      (sound.ready.resolve_left full)
    have yes : found = true := by
      apply finds
      intro j _ high
      exact bits j (by simpa using high)
    rw [if_neg full, if_neg (by simp [filled]), loop, yes]

/-! ## Relevant transactions -/

theorem matchesScript_ok (filter : CBloomFilter) (sound : filter.Sound) (fuel : Nat)
    (pc : CScript) : ∃ found, filter.matchesScript fuel pc = .ok found := by
  induction fuel generalizing pc with
  | zero => exact ⟨false, rfl⟩
  | succ fuel ih =>
      rw [matchesScript]
      cases getOp pc with
      | none => exact ⟨false, rfl⟩
      | some op =>
          obtain ⟨found, answer⟩ := contains_ok filter op.vch sound
          by_cases pushed : op.vch.length ≠ 0
          · simp only [if_pos pushed, answer, bind, Except.bind]
            cases found with
            | true => exact ⟨true, rfl⟩
            | false => exact ih op.rest
          · simp only [if_neg pushed]
            exact ih op.rest

theorem matchInputs_ok (filter : CBloomFilter) (sound : filter.Sound) (vin : List CTxIn) :
    ∃ found, filter.matchInputs vin = .ok found := by
  induction vin with
  | nil => exact ⟨false, rfl⟩
  | cons txin vin ih =>
      obtain ⟨spends, outpoint⟩ := contains_ok filter txin.prevout.write sound
      obtain ⟨found, script⟩ :=
        matchesScript_ok filter sound txin.scriptSig.length txin.scriptSig
      simp only [matchInputs, containsOutPoint, outpoint, script, bind, Except.bind]
      cases spends with
      | true => exact ⟨true, rfl⟩
      | false =>
          cases found with
          | true => exact ⟨true, rfl⟩
          | false => exact ih

theorem matchOutputs_ok (fDatacarrier : Bool) (nMaxDatacarrierBytes : Nat) (hash : Uint256)
    (i : Nat) (vout : List CTxOut) (filter : CBloomFilter) (fFound : Bool)
    (sound : filter.Sound) :
    ∃ next found,
      matchOutputs fDatacarrier nMaxDatacarrierBytes hash i vout filter fFound =
        .ok (next, found) ∧ Follows filter next := by
  induction vout generalizing i filter fFound with
  | nil => exact ⟨filter, .ok fFound, rfl, follows_refl filter sound⟩
  | cons txout vout ih =>
      obtain ⟨matched, script⟩ :=
        matchesScript_ok filter sound txout.scriptPubKey.length txout.scriptPubKey
      simp only [matchOutputs, script, bind, Except.bind]
      cases matched with
      | false => exact ih (i + 1) filter fFound sound
      | true =>
          cases updatesWith fDatacarrier nMaxDatacarrierBytes filter.nFlags txout.scriptPubKey with
          | error fault => exact ⟨filter, .error fault, rfl, follows_refl filter sound⟩
          | ok updates =>
              cases updates with
              | false => exact ih (i + 1) filter true sound
              | true =>
                  obtain ⟨after, put, follows, _⟩ :=
                    insert_ok filter (COutPoint.write ⟨hash, BitVec.ofNat 32 i⟩) sound
                  obtain ⟨next, found, rest, later⟩ := ih (i + 1) after true follows.sound
                  refine ⟨next, found, ?_, follows_trans filter after next follows later⟩
                  simp only [if_true, insertOutPoint, put]
                  exact rest

theorem isRelevantAndUpdate_ok (getHash : CTransaction → Uint256) (fDatacarrier : Bool)
    (nMaxDatacarrierBytes : Nat) (filter : CBloomFilter) (tx : CTransaction)
    (sound : filter.Sound) :
    ∃ next found,
      filter.isRelevantAndUpdate getHash fDatacarrier nMaxDatacarrierBytes tx =
        .ok (next, found) ∧ Follows filter next := by
  rw [isRelevantAndUpdate]
  by_cases full : filter.isFull = true
  · exact ⟨filter, .ok true, if_pos full, follows_refl filter sound⟩
  · rw [if_neg full]
    by_cases empty : filter.isEmpty = true
    · exact ⟨filter, .ok false, if_pos empty, follows_refl filter sound⟩
    · rw [if_neg empty]
      obtain ⟨fFound, asked⟩ := contains_ok filter (writeUint256 (getHash tx)) sound
      obtain ⟨next, found, outputs, follows⟩ := matchOutputs_ok fDatacarrier nMaxDatacarrierBytes
        (getHash tx) 0 tx.vout filter fFound sound
      obtain ⟨spends, inputs⟩ := matchInputs_ok next follows.sound tx.vin
      simp only [containsHash, asked, outputs, bind, Except.bind]
      cases found with
      | error fault => exact ⟨next, .error fault, rfl, follows⟩
      | ok found =>
          cases found with
          | true => exact ⟨next, .ok true, rfl, follows⟩
          | false =>
              refine ⟨next, .ok spends, ?_, follows⟩
              simp only [inputs]
              rfl

end CBloomFilter

end RoiCoin
