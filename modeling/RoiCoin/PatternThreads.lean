import RoiCoin.PatternSearch

/-! How the threads of a search divide the work (`patternsearch.cpp`).

The loops for special processors advance by eight lanes; their hash and cipher are taken as eight
independent ones. -/

namespace RoiCoin

namespace PatternSearch

def sha512ParallelN : Nat := 8
def aesParallelN : Nat := 8

/-- The indices of a thread whose loop advances by `lanes`; nothing is done about what the division
leaves over. -/
def stridedRange (lanes total threadNumber totalThreads : Nat) : List Nat :=
  let searchNumber := total / totalThreads
  (List.range' (threadNumber * searchNumber) ((searchNumber + lanes - 1) / lanes) lanes).flatMap
    fun k => List.range' k lanes

/-- The start locations of a thread of `aesSearch` that is not stopped. -/
def aesLocations (threadNumber totalThreads : Nat) : List Nat :=
  threadRange comparisonSize chunks threadNumber totalThreads

/-- The start locations of a thread of `aesSearchAESNI`. -/
def aesniLocations (threadNumber totalThreads : Nat) : List Nat :=
  stridedRange aesParallelN comparisonSize threadNumber totalThreads

variable (primitives : Primitives) (midHash : Uint256)

/-- What a thread writes into the scratchpad. -/
def sha512FillerAVX2 (threadNumber totalThreads : Nat) : List (Nat × Bytes) :=
  (stridedRange sha512ParallelN chunks threadNumber totalThreads).map fun i =>
    (i * chunkSize % 2 ^ 32, hashIndexed primitives midHash i)

/-- No index is visited by two threads, and the visited ones are those below `total`. -/
structure Partitions (visited : Nat → List Nat) (totalThreads total : Nat) : Prop where
  disjoint : ∀ i < totalThreads, ∀ j < totalThreads, i ≠ j → ∀ k ∈ visited i, k ∉ visited j
  covers : ∀ k < total, ∃ i < totalThreads, k ∈ visited i
  inside : ∀ i < totalThreads, ∀ k ∈ visited i, k < total

/-! ## Ranges -/

theorem threadRange_disjoint (total leftOver totalThreads i j k : Nat) (first : i < totalThreads)
    (second : j < totalThreads) (different : i ≠ j)
    (member : k ∈ threadRange total leftOver i totalThreads) :
    k ∉ threadRange total leftOver j totalThreads := by
  simp only [threadRange, List.mem_range'_1] at member ⊢
  revert member
  generalize total / totalThreads = share
  intro member other
  -- the thread in front is not the last one, so that it stops where the next one starts
  rcases Nat.lt_or_gt_of_ne different with before | after
  · have next : (i + 1) * share ≤ j * share := Nat.mul_le_mul_right share before
    rw [Nat.succ_mul] at next
    rw [if_neg (by omega)] at member
    omega
  · have next : (j + 1) * share ≤ i * share := Nat.mul_le_mul_right share after
    rw [Nat.succ_mul] at next
    rw [if_neg (by omega : ¬ j + 1 = totalThreads)] at other
    omega

theorem mem_stridedRange (lanes total threadNumber totalThreads k : Nat) (positive : 0 < lanes) :
    k ∈ stridedRange lanes total threadNumber totalThreads ↔
      threadNumber * (total / totalThreads) ≤ k ∧ k < threadNumber * (total / totalThreads) +
        lanes * ((total / totalThreads + lanes - 1) / lanes) := by
  have one_step : ∀ first, k ∈ List.range' first lanes ↔ first ≤ k ∧ k < first + lanes :=
    fun first => List.mem_range'_1
  simp only [stridedRange, List.mem_flatMap, one_step]
  simp only [List.mem_range']
  generalize threadNumber * (total / totalThreads) = start
  generalize (total / totalThreads + lanes - 1) / lanes = count
  constructor
  · rintro ⟨_, ⟨step, within, rfl⟩, least, most⟩
    have next : lanes * (step + 1) ≤ lanes * count := Nat.mul_le_mul_left lanes within
    rw [Nat.mul_succ] at next
    omega
  · rintro ⟨least, most⟩
    have rest := Nat.div_add_mod (k - start) lanes
    have bound := Nat.mod_lt (k - start) positive
    have within : (k - start) / lanes < count := by
      rw [Nat.div_lt_iff_lt_mul positive, Nat.mul_comm]
      omega
    exact ⟨start + lanes * ((k - start) / lanes), ⟨_, within, rfl⟩, by omega, by omega⟩

/-- The share of a thread, filled up to whole steps of its loop. -/
def filledShare (lanes share : Nat) : Nat := lanes * ((share + lanes - 1) / lanes)

theorem mem_stridedRange_iff (lanes total totalThreads k : Nat) (positive : 0 < lanes)
    (threads : 0 < totalThreads) (share_positive : 0 < total / totalThreads) :
    (∃ threadNumber < totalThreads, k ∈ stridedRange lanes total threadNumber totalThreads) ↔
      k < (totalThreads - 1) * (total / totalThreads) +
        filledShare lanes (total / totalThreads) := by
  simp only [mem_stridedRange lanes total _ totalThreads k positive, filledShare]
  revert share_positive
  generalize total / totalThreads = share
  intro share_positive
  have fills : share ≤ lanes * ((share + lanes - 1) / lanes) := by
    have rest := Nat.div_add_mod (share + lanes - 1) lanes
    have bound := Nat.mod_lt (share + lanes - 1) positive
    omega
  constructor
  · rintro ⟨threadNumber, within, -, small⟩
    have fits : threadNumber * share ≤ (totalThreads - 1) * share :=
      Nat.mul_le_mul_right share (by omega)
    omega
  · intro small
    by_cases early : k < (totalThreads - 1) * share
    · have rest := Nat.div_add_mod k share
      have bound := Nat.mod_lt k share_positive
      have number : k / share < totalThreads - 1 := (Nat.div_lt_iff_lt_mul share_positive).mpr early
      rw [Nat.mul_comm] at rest
      exact ⟨k / share, by omega, by omega, by omega⟩
    · exact ⟨totalThreads - 1, by omega, by omega, small⟩

/-! ## The search -/

theorem bound_unique (visited : Nat → List Nat) (totalThreads total reached : Nat)
    (whole : ∀ k, (∃ i < totalThreads, k ∈ visited i) ↔ k < reached)
    (partitions : Partitions visited totalThreads total) : reached = total := by
  have inside : ∀ k < reached, k < total := by
    intro k small
    obtain ⟨i, within, member⟩ := (whole k).mpr small
    exact partitions.inside i within k member
  have covered : ∀ k < total, k < reached := fun k small => (whole k).mp (partitions.covers k small)
  by_contra different
  rcases Nat.lt_or_gt_of_ne different with below | above
  · exact Nat.lt_irrefl _ (covered reached below)
  · exact Nat.lt_irrefl _ (inside total above)

/-- The remainder of the last thread is the one of `chunks`. -/
theorem aesLocations_partition (totalThreads : Nat) (threads : 0 < totalThreads) :
    Partitions (aesLocations · totalThreads) totalThreads comparisonSize ↔
      totalThreads ∣ chunks - comparisonSize := by
  have whole := fun k => mem_threadRange_iff comparisonSize chunks totalThreads k threads
  have quotient := Nat.div_add_mod comparisonSize totalThreads
  have smaller : comparisonSize ≤ chunks := by decide
  rw [← Nat.modEq_iff_dvd' smaller, Nat.ModEq]
  constructor
  · intro partitions
    have reached := bound_unique _ _ _ _ whole partitions
    omega
  · intro same
    rw [← same, quotient] at whole
    exact {
      disjoint := fun i first j second different k member =>
        threadRange_disjoint _ _ _ i j k first second different member
      covers := fun k small => (whole k).mpr small
      inside := fun i within k member => (whole k).mp ⟨i, within, member⟩ }

theorem filledShare_le (lanes share : Nat) (positive : 0 < lanes) :
    share ≤ filledShare lanes share := by
  have rest := Nat.div_add_mod (share + lanes - 1) lanes
  have bound := Nat.mod_lt (share + lanes - 1) positive
  rw [filledShare]
  omega

theorem filledShare_dvd (lanes share : Nat) (positive : 0 < lanes) :
    filledShare lanes share = share ↔ lanes ∣ share := by
  rw [filledShare]
  constructor
  · intro whole
    exact ⟨_, whole.symm⟩
  · rintro ⟨steps, rfl⟩
    have count : (lanes * steps + lanes - 1) / lanes = steps := by
      have split : lanes * steps + lanes - 1 = lanes * steps + (lanes - 1) := by omega
      rw [split, Nat.mul_add_div positive, Nat.div_eq_of_lt (by omega), Nat.add_zero]
    rw [count]

theorem aesniLocations_partition (totalThreads : Nat) (threads : 0 < totalThreads) :
    Partitions (aesniLocations · totalThreads) totalThreads comparisonSize ↔
      totalThreads ∣ comparisonSize / aesParallelN := by
  have lanes : 0 < aesParallelN := by decide
  have product : comparisonSize = aesParallelN * (comparisonSize / aesParallelN) := by decide
  have member := fun i k => mem_stridedRange aesParallelN comparisonSize i totalThreads k lanes
  have fills := filledShare_le aesParallelN (comparisonSize / totalThreads) lanes
  constructor
  · intro partitions
    have share_positive : 0 < comparisonSize / totalThreads := by
      apply Nat.pos_of_ne_zero
      intro none
      obtain ⟨i, -, visited⟩ := partitions.covers 0 (by decide)
      have range := (member i 0).mp visited
      rw [none] at range
      have empty : aesParallelN * ((0 + aesParallelN - 1) / aesParallelN) = 0 := by decide
      omega
    have reached := bound_unique _ _ _ _ (fun k => mem_stridedRange_iff aesParallelN comparisonSize
      totalThreads k lanes threads share_positive) partitions
    by_cases alone : totalThreads = 1
    · rw [alone]
      exact Nat.one_dvd _
    · -- the second thread starts where the first one must have stopped
      have stops : filledShare aesParallelN (comparisonSize / totalThreads) =
          comparisonSize / totalThreads := by
        by_contra overlap
        apply partitions.disjoint 0 (by omega) 1 (by omega) (by decide)
          (comparisonSize / totalThreads)
        · refine (member 0 _).mpr ⟨by omega, ?_⟩
          rw [← filledShare]
          omega
        · refine (member 1 _).mpr ⟨by omega, ?_⟩
          rw [← filledShare]
          omega
      obtain ⟨steps, share⟩ := (filledShare_dvd _ _ lanes).mp stops
      rw [stops, ← Nat.succ_mul, Nat.succ_eq_add_one, Nat.sub_add_cancel threads] at reached
      refine ⟨steps, ?_⟩
      rw [share] at reached
      rw [← reached, Nat.mul_left_comm, Nat.mul_div_cancel_left _ lanes]
  · rintro ⟨steps, divided⟩
    have total : comparisonSize = totalThreads * (aesParallelN * steps) := by
      rw [product, divided, Nat.mul_left_comm]
    have share : comparisonSize / totalThreads = aesParallelN * steps := by
      rw [total, Nat.mul_div_cancel_left _ threads]
    have steps_positive : 0 < steps := by
      apply Nat.pos_of_ne_zero
      rintro rfl
      rw [Nat.mul_zero, Nat.mul_zero] at total
      cases total
    have share_positive : 0 < comparisonSize / totalThreads := by
      rw [share]
      exact Nat.mul_pos lanes steps_positive
    have filled := (filledShare_dvd _ _ lanes).mpr ⟨steps, share⟩
    have whole := fun k => mem_stridedRange_iff aesParallelN comparisonSize totalThreads k lanes
      threads share_positive
    have reached : (totalThreads - 1) * (comparisonSize / totalThreads) +
        comparisonSize / totalThreads = comparisonSize := by
      rw [← Nat.succ_mul, Nat.succ_eq_add_one, Nat.sub_add_cancel threads, share, total]
    rw [filled, reached] at whole
    refine ⟨?_, fun k small => (whole k).mpr small, fun i within k visited =>
      (whole k).mp ⟨i, within, visited⟩⟩
    intro i _ j _ different k here there
    have first := (member i k).mp here
    have second := (member j k).mp there
    rw [← filledShare, filled] at first second
    rcases Nat.lt_or_gt_of_ne different with before | after
    · have next := Nat.mul_le_mul_right (comparisonSize / totalThreads) before
      rw [Nat.succ_mul] at next
      omega
    · have next := Nat.mul_le_mul_right (comparisonSize / totalThreads) after
      rw [Nat.succ_mul] at next
      omega

theorem search_partition (totalThreads : Nat) (threads : 0 < totalThreads) :
    (Partitions (aesLocations · totalThreads) totalThreads comparisonSize ↔
      totalThreads ∣ chunks - comparisonSize) ∧
    (Partitions (aesniLocations · totalThreads) totalThreads comparisonSize ↔
      totalThreads ∣ comparisonSize / aesParallelN) ∧
    (Partitions (aesLocations · totalThreads) totalThreads comparisonSize ∧
      Partitions (aesniLocations · totalThreads) totalThreads comparisonSize ↔
      totalThreads ∣ comparisonSize / aesParallelN) := by
  have plain := aesLocations_partition totalThreads threads
  have special := aesniLocations_partition totalThreads threads
  refine ⟨plain, special, ?_⟩
  rw [plain, special]
  constructor
  · exact fun both => both.2
  · intro divides
    exact ⟨divides.trans (by decide), divides⟩

theorem search_partition_four :
    (Partitions (aesLocations · 4) 4 comparisonSize ↔ 4 ∣ chunks - comparisonSize) ∧
    (Partitions (aesniLocations · 4) 4 comparisonSize ↔ 4 ∣ comparisonSize / aesParallelN) ∧
    (Partitions (aesLocations · 4) 4 comparisonSize ∧
      Partitions (aesniLocations · 4) 4 comparisonSize ↔ 4 ∣ comparisonSize / aesParallelN) :=
  search_partition 4 (by decide)

/-- Eleven threads read outside the scratchpad; the lanes of three threads overlap. -/
theorem eleven_and_three_threads :
    (∃ k ∈ aesLocations 10 11, comparisonSize ≤ k) ∧
    ¬ Partitions (aesLocations · 11) 11 comparisonSize ∧
    ¬ Partitions (aesniLocations · 3) 3 comparisonSize := by
  refine ⟨⟨comparisonSize, ?_, le_rfl⟩, ?_, ?_⟩
  · rw [aesLocations, threadRange, List.mem_range'_1]
    decide
  · rw [aesLocations_partition 11 (by decide)]
    decide
  · rw [aesniLocations_partition 3 (by decide)]
    decide

/-! ## The filler -/

/-- The writes stay inside the scratchpad, reach every chunk and leave in each the hash of its
index, as those of `SHA512Filler` do, whatever the order of either. -/
structure FillsLikeScalar (totalThreads : Nat) (writes : List (Nat × Bytes)) : Prop where
  inside : ∀ entry ∈ writes, entry.1 + entry.2.length ≤ psuedoRandomDataSize
  reached : ∀ i < chunks, ∃ entry ∈ writes, entry.1 = i * chunkSize ∧ entry.2.length = chunkSize
  hashes : ∀ scratchpad, ∀ i < chunks,
    Memory.read (Memory.fill scratchpad writes) (i * chunkSize) chunkSize =
      hashIndexed primitives midHash i
  scalar : ∀ scratchpad scalarWrites, List.Perm scalarWrites
      ((List.range totalThreads).flatMap fun threadNumber =>
        sha512Filler primitives midHash threadNumber totalThreads) →
    ∀ address < psuedoRandomDataSize, Memory.fill scratchpad writes address =
      Memory.fill scratchpad scalarWrites address

variable {primitives midHash}

/-- The scalar filler fills the scratchpad for every number of threads. -/
theorem scalar_filled (totalThreads : Nat) (threads : 0 < totalThreads)
    (writes : List (Nat × Bytes)) (ordered : writes.Perm
      ((List.range totalThreads).flatMap fun threadNumber =>
        sha512Filler primitives midHash threadNumber totalThreads))
    (scratchpad : Nat → UInt8) (address : Nat) (inside : address < psuedoRandomDataSize) :
    Memory.fill scratchpad writes address = filledByte primitives midHash address := by
  have ranges := fun i => mem_threadRange_iff chunks chunks totalThreads i threads
  rw [Nat.div_add_mod] at ranges
  exact fill_chunks writes (mem_writes _ totalThreads chunks writes ranges ordered) scratchpad
    address inside

/-- Writes of all chunks and no others do what the scalar filler does. -/
theorem fillsLikeScalar_chunks (totalThreads : Nat) (threads : 0 < totalThreads)
    (writes : List (Nat × Bytes)) (written : ∀ entry, entry ∈ writes ↔
      ∃ i < chunks, entry = (i * chunkSize % 2 ^ 32, hashIndexed primitives midHash i)) :
    FillsLikeScalar primitives midHash totalThreads writes := by
  obtain ⟨-, chunk_count, chunk_size, -⟩ := sizes
  have data_size : psuedoRandomDataSize = 1073741824 := rfl
  have filled := fill_chunks writes written
  have offset : ∀ i < chunks, i * chunkSize % 2 ^ 32 = i * chunkSize := by
    intro i small
    rw [chunk_size]
    omega
  constructor
  · intro entry member
    obtain ⟨i, small, rfl⟩ := (written entry).mp member
    dsimp only
    rw [hashIndexed_length, offset i small, chunk_size]
    omega
  · intro i small
    exact ⟨_, (written _).mpr ⟨i, small, rfl⟩, offset i small, hashIndexed_length primitives midHash i⟩
  · intro scratchpad i small
    rw [← chunk_filled, Nat.mul_comm, Memory.read, Memory.read]
    apply List.map_congr_left
    intro j member
    rw [List.mem_range] at member
    apply filled
    rw [chunk_size] at member ⊢
    omega
  · intro scratchpad scalarWrites ordered address inside
    rw [filled scratchpad address inside,
      scalar_filled totalThreads threads scalarWrites ordered scratchpad address inside]

/-- The filler does this exactly if what its last step goes beyond the last share is what the
division leaves over. -/
theorem sha512FillerAVX2_scalar (primitives : Primitives) (midHash : Uint256) (totalThreads : Nat)
    (threads : 0 < totalThreads) :
    (∀ writes, List.Perm writes ((List.range totalThreads).flatMap fun threadNumber =>
        sha512FillerAVX2 primitives midHash threadNumber totalThreads) →
      FillsLikeScalar primitives midHash totalThreads writes) ↔
    totalThreads ≤ chunks ∧ chunks % totalThreads =
      filledShare sha512ParallelN (chunks / totalThreads) - chunks / totalThreads := by
  obtain ⟨-, chunk_count, chunk_size, -⟩ := sizes
  have data_size : psuedoRandomDataSize = 1073741824 := rfl
  have lanes : 0 < sha512ParallelN := by decide
  have fills := filledShare_le sha512ParallelN (chunks / totalThreads) lanes
  have quotient := Nat.div_add_mod chunks totalThreads
  have shares : totalThreads * (chunks / totalThreads) =
      (totalThreads - 1) * (chunks / totalThreads) + chunks / totalThreads := by
    rw [← Nat.succ_mul, Nat.succ_eq_add_one, Nat.sub_add_cancel threads]
  constructor
  · intro alike
    have filler := alike _ (List.Perm.refl _)
    have share_positive : 0 < chunks / totalThreads := by
      apply Nat.pos_of_ne_zero
      intro none
      obtain ⟨entry, member, -⟩ := filler.reached 0 (by decide)
      obtain ⟨threadNumber, -, written⟩ := List.mem_flatMap.mp member
      obtain ⟨i, visited, -⟩ := List.mem_map.mp written
      have range := (mem_stridedRange sha512ParallelN chunks threadNumber totalThreads i lanes).mp
        visited
      rw [none] at range
      have empty : sha512ParallelN * ((0 + sha512ParallelN - 1) / sha512ParallelN) = 0 := by decide
      omega
    have ranges := fun i => mem_stridedRange_iff sha512ParallelN chunks totalThreads i lanes threads
      share_positive
    have written := @mem_writes primitives midHash _ totalThreads _ _ ranges (List.Perm.refl _)
    have not_beyond : ¬ chunks < (totalThreads - 1) * (chunks / totalThreads) +
        filledShare sha512ParallelN (chunks / totalThreads) := by
      intro beyond
      have outside := filler.inside _ ((written _).mpr ⟨chunks, beyond, rfl⟩)
      dsimp only at outside
      rw [hashIndexed_length, chunk_count, chunk_size] at outside
      omega
    have not_before : ¬ (totalThreads - 1) * (chunks / totalThreads) +
        filledShare sha512ParallelN (chunks / totalThreads) < chunks := by
      intro before
      obtain ⟨entry, member, offset, -⟩ := filler.reached _ before
      obtain ⟨i, small, rfl⟩ := (written entry).mp member
      dsimp only at offset
      rw [chunk_size] at offset
      omega
    have few : totalThreads ≤ chunks := by
      by_contra many
      rw [Nat.div_eq_of_lt (by omega)] at share_positive
      omega
    exact ⟨few, by omega⟩
  · rintro ⟨few, left⟩ writes ordered
    have share_positive : 0 < chunks / totalThreads := Nat.div_pos few threads
    have ranges := fun i => mem_stridedRange_iff sha512ParallelN chunks totalThreads i lanes threads
      share_positive
    have reached : (totalThreads - 1) * (chunks / totalThreads) +
        filledShare sha512ParallelN (chunks / totalThreads) = chunks := by omega
    rw [reached] at ranges
    exact fillsLikeScalar_chunks totalThreads threads writes
      (mem_writes _ totalThreads chunks writes ranges ordered)

theorem sha512FillerAVX2_scalar_nine :
    (∀ writes, List.Perm writes ((List.range 9).flatMap fun threadNumber =>
        sha512FillerAVX2 plainPrimitives 0 threadNumber 9) →
      FillsLikeScalar plainPrimitives 0 9 writes) ↔
    9 ≤ chunks ∧ chunks % 9 = filledShare sha512ParallelN (chunks / 9) - chunks / 9 :=
  sha512FillerAVX2_scalar plainPrimitives 0 9 (by decide)

theorem three_threads_outside : ∃ entry ∈ sha512FillerAVX2 plainPrimitives 0 2 3,
    psuedoRandomDataSize ≤ entry.1 := by
  have visited : chunks + 1 ∈ stridedRange sha512ParallelN chunks 2 3 := by
    rw [mem_stridedRange _ _ _ _ _ (by decide)]
    decide
  refine ⟨_, List.mem_map_of_mem visited, ?_⟩
  decide

/-- The last of three threads writes behind the end of the scratchpad. -/
theorem three_threads_unlike_scalar :
    ¬ ∀ writes, List.Perm writes ((List.range 3).flatMap fun threadNumber =>
        sha512FillerAVX2 plainPrimitives 0 threadNumber 3) →
      FillsLikeScalar plainPrimitives 0 3 writes := by
  intro alike
  obtain ⟨entry, member, outside⟩ := three_threads_outside
  have fits := (alike _ (List.Perm.refl _)).inside entry
    (List.mem_flatMap.mpr ⟨2, by decide, member⟩)
  obtain ⟨i, -, rfl⟩ := List.mem_map.mp member
  dsimp only at fits outside
  rw [hashIndexed_length] at fits
  rw [sizes.2.2.1] at fits outside
  omega

end PatternSearch

end RoiCoin
