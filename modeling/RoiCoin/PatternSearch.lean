import RoiCoin.Lib.Memory
import RoiCoin.Serialize
import RoiCoin.ArithUint256

/-! The search for proof-of-work patterns and its verification (`patternsearch.cpp`).

The scratchpad is a memory of bytes; offsets are computed in 32 bits as in the source. The threads'
writes and results come in any order. The variants for special processors are left out. -/

namespace RoiCoin

namespace PatternSearch

def psuedoRandomDataSize : Nat := 2 ^ 30
def cacheMemorySize : Nat := 2 ^ 12
def chunks : Nat := 2 ^ (30 - 6)
def chunkSize : Nat := 2 ^ 6
def comparisonSize : Nat := 2 ^ (30 - 12)
def aesIterations : Nat := 15

/-- SHA-512 and AES-256 in CBC mode, on whole blocks. -/
structure Primitives where
  sha512 : Bytes → Bytes
  aesCbc : (key iv data : Bytes) → Bytes
  sha512_length : ∀ data, (sha512 data).length = 64
  aesCbc_length : ∀ key iv data, data.length % 16 = 0 → (aesCbc key iv data).length = data.length

variable (primitives : Primitives) (midHash : Uint256)

/-- The hash of `midHash` with its first four bytes overwritten by an index. -/
def hashIndexed (i : Nat) : Bytes :=
  primitives.sha512 (writeLE 4 i ++ (writeLE 32 midHash.toNat).drop 4)

/-- `cache32[i]` -/
def cache32 (cache : Bytes) (i : Nat) : BitVec 32 := BitVec.ofNat 32 (readLE (Memory.word 4 cache i))

/-- Words of `width` bytes, combined one by one. -/
def xorWords (width count : Nat) (cache : Bytes) (other : Nat → Bytes) : Bytes :=
  (List.range count).flatMap fun i =>
    List.zipWith (fun a b => a ^^^ b) (Memory.word width cache i) (other i)

/-- The last 32 bytes are the key and the last 16 the initial vector. -/
def encrypt (cache : Bytes) : Bytes :=
  primitives.aesCbc ((cache.drop (cacheMemorySize - 32)).take 32)
    ((cache.drop (cacheMemorySize - 16)).take 16) cache

/-! ## The search -/

/-- The indices of a thread; the last one also takes what `total` leaves over. -/
def threadRange (total leftOver threadNumber totalThreads : Nat) : List Nat :=
  let remainder := if threadNumber + 1 = totalThreads then leftOver % totalThreads else 0
  List.range' (threadNumber * (total / totalThreads)) (total / totalThreads + remainder)

/-- What a thread writes into the scratchpad. -/
def sha512Filler (threadNumber totalThreads : Nat) : List (Nat × Bytes) :=
  (threadRange chunks chunks threadNumber totalThreads).map fun i =>
    (i * chunkSize % 2 ^ 32, hashIndexed primitives midHash i)

/-- One of the AES iterations on the cache. -/
def searchRound (data : Nat → UInt8) (cache : Bytes) : Bytes :=
  let nextLocation := (cache32 cache (cacheMemorySize / 4 - 1)).toNat % comparisonSize
  encrypt primitives (xorWords 8 (cacheMemorySize / 8) cache fun i =>
    Memory.read data (8 * (nextLocation * cacheMemorySize % 2 ^ 32 / 8 + i)) 8)

def searchLocation (data : Nat → UInt8) (k : Nat) : Option (BitVec 32 × BitVec 32) :=
  let cache := (searchRound primitives data)^[aesIterations]
    (Memory.read data (k * cacheMemorySize % 2 ^ 32) cacheMemorySize)
  if (cache32 cache (cacheMemorySize / 4 - 1)).toNat % comparisonSize < 1000 then
    some (BitVec.ofNat 32 k, cache32 cache (cacheMemorySize / 4 - 2))
  else none

/-- What a thread adds to the results when it is not stopped. The remainder is that of `chunks`. -/
def aesSearch (data : Nat → UInt8) (threadNumber totalThreads : Nat) :
    List (BitVec 32 × BitVec 32) :=
  (threadRange comparisonSize chunks threadNumber totalThreads).filterMap
    (searchLocation primitives data)

/-- A run of `pattern_search`: the threads' writes fill the scratchpad in some order, and then their
results are added in some order. -/
structure Search (totalThreads : Nat) (scratchpad : Nat → UInt8)
    (results : List (BitVec 32 × BitVec 32)) where
  writes : List (Nat × Bytes)
  filled : writes.Perm ((List.range totalThreads).flatMap fun threadNumber =>
    sha512Filler primitives midHash threadNumber totalThreads)
  added : results.Perm ((List.range totalThreads).flatMap fun threadNumber =>
    aesSearch primitives (Memory.fill scratchpad writes) threadNumber totalThreads)

/-! ## Verification -/

/-- The part of the scratchpad at a location, computed anew. -/
def recompute (location : Nat) : Bytes :=
  let startLocation := location * cacheMemorySize % 2 ^ 32 / chunkSize
  (List.range (cacheMemorySize / chunkSize)).flatMap fun i =>
    hashIndexed primitives midHash (startLocation + i)

def verifyRound (cache : Bytes) : Bytes :=
  let next := recompute primitives midHash
    ((cache32 cache (cacheMemorySize / 4 - 1)).toNat % comparisonSize)
  encrypt primitives (xorWords 4 (cacheMemorySize / 4) cache fun i => Memory.word 4 next i)

/-- Both encryption libraries that `-useevp` chooses between are AES-256 in CBC mode. -/
def patternVerify (a b : BitVec 32) : Bool :=
  if a.toNat ≥ comparisonSize then false
  else
    let cache := (verifyRound primitives midHash)^[aesIterations]
      (recompute primitives midHash a.toNat)
    let solution := (cache32 cache (cacheMemorySize / 4 - 1)).toNat % comparisonSize
    let proofOfCalculation := cache32 cache (cacheMemorySize / 4 - 2)
    solution < 1000 && proofOfCalculation == b

/-! ## The filled scratchpad -/

/-- The byte at an offset of the filled scratchpad. -/
def filledByte (address : Nat) : UInt8 :=
  (hashIndexed primitives midHash (address / chunkSize)).getD (address % chunkSize) 0

theorem hashIndexed_length (i : Nat) : (hashIndexed primitives midHash i).length = chunkSize :=
  primitives.sha512_length _

theorem chunk_filled (i : Nat) :
    Memory.read (filledByte primitives midHash) (chunkSize * i) chunkSize =
      hashIndexed primitives midHash i := by
  apply List.ext_getElem
  · rw [Memory.read_length, hashIndexed_length]
  · intro j left right
    rw [hashIndexed_length] at right
    have positive : 0 < chunkSize := by decide
    rw [Memory.read_getElem, filledByte, Nat.mul_add_div positive, Nat.mul_add_mod,
      Nat.div_eq_of_lt right, Nat.mod_eq_of_lt right, Nat.add_zero, List.getD_eq_getElem?_getD,
      List.getElem?_eq_getElem, Option.getD_some]

theorem sizes : cacheMemorySize = 4096 ∧ chunks = 16777216 ∧ chunkSize = 64 ∧
    comparisonSize = 262144 := ⟨rfl, rfl, rfl, rfl⟩

/-- A location of the filled scratchpad holds what the verifier computes for it. -/
theorem location_filled (location : Nat) (inside : location < comparisonSize) :
    Memory.read (filledByte primitives midHash) (location * cacheMemorySize % 2 ^ 32)
      cacheMemorySize = recompute primitives midHash location := by
  obtain ⟨cache_size, -, chunk_size, comparison_size⟩ := sizes
  have offset : location * cacheMemorySize % 2 ^ 32 = chunkSize * (location * 64) := by
    rw [cache_size, chunk_size]
    omega
  have start : chunkSize * (location * 64) / chunkSize = location * 64 :=
    Nat.mul_div_cancel_left _ (by decide)
  have whole : cacheMemorySize = chunkSize * (cacheMemorySize / chunkSize) := by decide
  rw [recompute, offset, start]
  calc
    _ = Memory.read (filledByte primitives midHash) (chunkSize * (location * 64))
          (chunkSize * (cacheMemorySize / chunkSize)) := by rw [← whole]
    _ = (List.range (cacheMemorySize / chunkSize)).flatMap fun i =>
          Memory.read (filledByte primitives midHash) (chunkSize * (location * 64) + chunkSize * i)
            chunkSize := (Memory.flatMap_read _ _ _ _).symm
    _ = _ := by
      apply List.flatMap_congr
      intro i _
      rw [← Nat.mul_add, chunk_filled]

/-- The threads visit the indices up to the last share and what the last one adds to it. -/
theorem mem_threadRange_iff (total leftOver totalThreads k : Nat) (positive : 0 < totalThreads) :
    (∃ threadNumber < totalThreads, k ∈ threadRange total leftOver threadNumber totalThreads) ↔
      k < totalThreads * (total / totalThreads) + leftOver % totalThreads := by
  simp only [threadRange, List.mem_range'_1]
  generalize total / totalThreads = share
  constructor
  · rintro ⟨threadNumber, within, -, small⟩
    have fits : (threadNumber + 1) * share ≤ totalThreads * share := Nat.mul_le_mul_right share within
    rw [Nat.succ_mul] at fits
    split at small <;> omega
  · intro small
    by_cases early : k < (totalThreads - 1) * share
    · have share_positive : 0 < share := by
        apply Nat.pos_of_ne_zero
        rintro rfl
        omega
      have rest := Nat.div_add_mod k share
      have bound := Nat.mod_lt k share_positive
      have number : k / share < totalThreads - 1 := (Nat.div_lt_iff_lt_mul share_positive).mpr early
      rw [Nat.mul_comm] at rest
      exact ⟨k / share, by omega, by omega, by omega⟩
    · have whole : totalThreads * share = (totalThreads - 1) * share + share := by
        rw [← Nat.succ_mul]
        congr 1
        omega
      have last : totalThreads - 1 + 1 = totalThreads := by omega
      refine ⟨totalThreads - 1, by omega, by omega, ?_⟩
      rw [if_pos last]
      omega

/-- With threads that divide the work, each index belongs to one of them. -/
theorem mem_threadRange (total leftOver totalThreads k : Nat) (divides : totalThreads ∣ total)
    (none_left : totalThreads ∣ leftOver) (positive : 0 < total) :
    (∃ threadNumber < totalThreads, k ∈ threadRange total leftOver threadNumber totalThreads) ↔
      k < total := by
  have threads : 0 < totalThreads := Nat.pos_of_dvd_of_pos divides positive
  rw [mem_threadRange_iff total leftOver totalThreads k threads, Nat.mul_div_cancel' divides,
    Nat.mod_eq_zero_of_dvd none_left, Nat.add_zero]

variable {primitives midHash}

/-- However the writes of all chunks are ordered, the scratchpad is filled. -/
theorem fill_chunks (writes : List (Nat × Bytes)) (written : ∀ entry, entry ∈ writes ↔
      ∃ i < chunks, entry = (i * chunkSize % 2 ^ 32, hashIndexed primitives midHash i))
    (scratchpad : Nat → UInt8) (address : Nat) (inside : address < psuedoRandomDataSize) :
    Memory.fill scratchpad writes address = filledByte primitives midHash address := by
  obtain ⟨-, chunk_count, chunk_size, -⟩ := sizes
  have data_size : psuedoRandomDataSize = 1073741824 := rfl
  apply Memory.fill_covered
  · intro entry member
    obtain ⟨i, small, rfl⟩ := (written entry).mp member
    intro j cell here
    obtain ⟨within, value⟩ := List.getElem?_eq_some_iff.mp here
    have length := hashIndexed_length primitives midHash i
    dsimp only at here within value ⊢
    rw [length] at within
    have quotient : (i * chunkSize % 2 ^ 32 + j) / chunkSize = i := by
      rw [chunk_size] at within ⊢
      omega
    have position : (i * chunkSize % 2 ^ 32 + j) % chunkSize = j := by
      rw [chunk_size] at within ⊢
      omega
    rw [filledByte, quotient, position, List.getD_eq_getElem?_getD, here, Option.getD_some]
  · right
    have chunk : address / chunkSize < chunks := by
      rw [chunk_size]
      omega
    refine ⟨_, (written _).mpr ⟨address / chunkSize, chunk, rfl⟩, ?_, ?_⟩
    · rw [chunk_size] at chunk ⊢
      dsimp only
      omega
    · dsimp only
      rw [hashIndexed_length]
      rw [chunk_size] at chunk ⊢
      omega

/-- The writes of the threads are those of their indices. -/
theorem mem_writes (visited : Nat → List Nat) (totalThreads total : Nat)
    (writes : List (Nat × Bytes)) (ranges : ∀ i, (∃ threadNumber < totalThreads,
      i ∈ visited threadNumber) ↔ i < total)
    (ordered : writes.Perm ((List.range totalThreads).flatMap fun threadNumber =>
      (visited threadNumber).map fun i =>
        (i * chunkSize % 2 ^ 32, hashIndexed primitives midHash i))) (entry : Nat × Bytes) :
    entry ∈ writes ↔
      ∃ i < total, entry = (i * chunkSize % 2 ^ 32, hashIndexed primitives midHash i) := by
  simp only [ordered.mem_iff, List.mem_flatMap, List.mem_range, List.mem_map]
  constructor
  · rintro ⟨threadNumber, within, i, member, rfl⟩
    exact ⟨i, (ranges i).mp ⟨threadNumber, within, member⟩, rfl⟩
  · rintro ⟨i, small, rfl⟩
    obtain ⟨threadNumber, within, member⟩ := (ranges i).mpr small
    exact ⟨threadNumber, within, i, member, rfl⟩

theorem scratchpad_filled (totalThreads : Nat) (scratchpad : Nat → UInt8)
    (results : List (BitVec 32 × BitVec 32)) (divides : totalThreads ∣ comparisonSize)
    (search : Search primitives midHash totalThreads scratchpad results) (address : Nat)
    (inside : address < psuedoRandomDataSize) :
    Memory.fill scratchpad search.writes address = filledByte primitives midHash address := by
  have chunks_divided : totalThreads ∣ chunks := divides.trans (by decide)
  have ranges := fun i =>
    mem_threadRange chunks chunks totalThreads i chunks_divided chunks_divided (by decide)
  exact fill_chunks search.writes (mem_writes _ totalThreads chunks search.writes ranges
    search.filled) scratchpad address inside

/-! ## One round and all rounds -/

theorem encrypt_length (cache : Bytes) (size : cache.length = cacheMemorySize) :
    (encrypt primitives cache).length = cacheMemorySize := by
  rw [encrypt, primitives.aesCbc_length, size]
  rw [size]
  rfl

/-- Words of any width are combined byte by byte. -/
theorem xorWords_eq (width count : Nat) (cache next : Bytes) (whole : width * count = cacheMemorySize)
    (size : cache.length = cacheMemorySize) (next_size : next.length = cacheMemorySize) :
    xorWords width count cache (fun i => Memory.word width next i) =
      List.zipWith (fun a b => a ^^^ b) cache next :=
  Memory.flatMap_word _ width count cache next (size.trans whole.symm) (next_size.trans whole.symm)

theorem recompute_length (location : Nat) :
    (recompute primitives midHash location).length = cacheMemorySize := by
  rw [recompute, List.length_flatMap]
  simp only [hashIndexed_length, List.map_const', List.length_range, List.sum_replicate]
  rfl

theorem verifyRound_length (cache : Bytes) (size : cache.length = cacheMemorySize) :
    (verifyRound primitives midHash cache).length = cacheMemorySize := by
  rw [verifyRound, xorWords_eq 4 _ cache _ rfl size (recompute_length _)]
  apply encrypt_length
  rw [List.length_zipWith, size, recompute_length, Nat.min_self]

/-- The scratchpad, read where the verifier computes a location anew. -/
theorem read_location (data : Nat → UInt8)
    (filled : ∀ address < psuedoRandomDataSize, data address = filledByte primitives midHash address)
    (location : Nat) (inside : location < comparisonSize) :
    Memory.read data (location * cacheMemorySize % 2 ^ 32) cacheMemorySize =
      recompute primitives midHash location := by
  obtain ⟨cache_size, -, -, comparison_size⟩ := sizes
  have data_size : psuedoRandomDataSize = 1073741824 := rfl
  rw [← location_filled primitives midHash location inside, Memory.read, Memory.read]
  apply List.map_congr_left
  intro i member
  rw [List.mem_range] at member
  apply filled
  rw [cache_size] at member ⊢
  omega

/-- The miner and the verifier do the same in a round. -/
theorem searchRound_eq (data : Nat → UInt8)
    (filled : ∀ address < psuedoRandomDataSize, data address = filledByte primitives midHash address)
    (cache : Bytes) (size : cache.length = cacheMemorySize) :
    searchRound primitives data cache = verifyRound primitives midHash cache := by
  obtain ⟨cache_size, -, -, comparison_size⟩ := sizes
  have inside : (cache32 cache (cacheMemorySize / 4 - 1)).toNat % comparisonSize < comparisonSize :=
    Nat.mod_lt _ (by decide)
  rw [searchRound, verifyRound]
  generalize (cache32 cache (cacheMemorySize / 4 - 1)).toNat % comparisonSize = location at inside ⊢
  have next := read_location data filled location inside
  have words : ∀ i < cacheMemorySize / 8,
      Memory.read data (8 * (location * cacheMemorySize % 2 ^ 32 / 8 + i)) 8 =
        Memory.word 8 (recompute primitives midHash location) i := by
    intro i within
    have offset : 8 * (location * cacheMemorySize % 2 ^ 32 / 8 + i) =
        location * cacheMemorySize % 2 ^ 32 + 8 * i := by
      rw [cache_size]
      omega
    have whole : cacheMemorySize = 8 * (cacheMemorySize / 8) := by decide
    rw [← next, offset]
    exact (Memory.word_read data _ 8 (cacheMemorySize / 8) i within).symm
  have xored : (xorWords 8 (cacheMemorySize / 8) cache fun i =>
      Memory.read data (8 * (location * cacheMemorySize % 2 ^ 32 / 8 + i)) 8) =
        xorWords 8 (cacheMemorySize / 8) cache fun i =>
          Memory.word 8 (recompute primitives midHash location) i := by
    apply List.flatMap_congr
    intro i member
    dsimp only
    rw [words i (List.mem_range.mp member)]
  rw [xored, xorWords_eq 8 _ cache _ rfl size (recompute_length _),
    xorWords_eq 4 _ cache _ rfl size (recompute_length _)]

theorem rounds_eq (data : Nat → UInt8)
    (filled : ∀ address < psuedoRandomDataSize, data address = filledByte primitives midHash address)
    (n : Nat) (cache : Bytes) (size : cache.length = cacheMemorySize) :
    (searchRound primitives data)^[n] cache = (verifyRound primitives midHash)^[n] cache ∧
      ((verifyRound primitives midHash)^[n] cache).length = cacheMemorySize := by
  induction n with
  | zero =>
      rw [Function.iterate_zero, Function.iterate_zero]
      exact ⟨rfl, size⟩
  | succ n ih =>
      rw [Function.iterate_succ_apply', Function.iterate_succ_apply', ih.1,
        searchRound_eq data filled _ ih.2]
      exact ⟨rfl, verifyRound_length _ ih.2⟩

/-- A location is among the results with the value that the verifier asks for. -/
theorem searchLocation_iff (data : Nat → UInt8)
    (filled : ∀ address < psuedoRandomDataSize, data address = filledByte primitives midHash address)
    (k : Nat) (inside : k < comparisonSize) (a b : BitVec 32) :
    searchLocation primitives data k = some (a, b) ↔
      a = BitVec.ofNat 32 k ∧ patternVerify primitives midHash a b = true := by
  obtain ⟨-, -, -, comparison_size⟩ := sizes
  have number : (BitVec.ofNat 32 k).toNat = k := by
    rw [BitVec.toNat_ofNat, Nat.mod_eq_of_lt (by omega)]
  have rounds := rounds_eq data filled aesIterations (recompute primitives midHash k)
    (recompute_length k)
  rw [searchLocation, read_location data filled k inside, rounds.1]
  generalize cached : (verifyRound primitives midHash)^[aesIterations]
    (recompute primitives midHash k) = cache
  have verified : patternVerify primitives midHash (BitVec.ofNat 32 k) b =
      (decide ((cache32 cache (cacheMemorySize / 4 - 1)).toNat % comparisonSize < 1000) &&
        cache32 cache (cacheMemorySize / 4 - 2) == b) := by
    rw [patternVerify, number, if_neg (Nat.not_le.mpr inside), cached]
  constructor
  · intro found
    split_ifs at found with small
    obtain ⟨rfl, rfl⟩ := Prod.mk.inj (Option.some.inj found)
    refine ⟨rfl, ?_⟩
    rw [verified, decide_eq_true small, beq_self_eq_true, Bool.true_and]
  · rintro ⟨rfl, accepted⟩
    rw [verified, Bool.and_eq_true, decide_eq_true_eq, beq_iff_eq] at accepted
    rw [if_pos accepted.1, accepted.2]

/-- A search that is not stopped results in the pairs that the verifier accepts, for every number
of threads that divides the locations and every order of the threads' steps. -/
theorem search_finds_verified (totalThreads : Nat) (scratchpad : Nat → UInt8)
    (results : List (BitVec 32 × BitVec 32)) (divides : totalThreads ∣ comparisonSize)
    (search : Search primitives midHash totalThreads scratchpad results) (a b : BitVec 32) :
    (a, b) ∈ results ↔ patternVerify primitives midHash a b = true := by
  have filled := scratchpad_filled totalThreads scratchpad results divides search
  have ranges : ∀ k, (∃ threadNumber < totalThreads,
      k ∈ threadRange comparisonSize chunks threadNumber totalThreads) ↔ k < comparisonSize := fun k =>
    mem_threadRange comparisonSize chunks totalThreads k divides (divides.trans (by decide)) (by decide)
  simp only [search.added.mem_iff, List.mem_flatMap, List.mem_range, aesSearch, List.mem_filterMap]
  constructor
  · rintro ⟨threadNumber, within, k, member, found⟩
    have inside := (ranges k).mp ⟨threadNumber, within, member⟩
    exact ((searchLocation_iff _ filled k inside a b).mp found).2
  · intro accepted
    have inside : a.toNat < comparisonSize := by
      by_contra outside
      rw [patternVerify, if_pos (Nat.not_lt.mp outside)] at accepted
      cases accepted
    obtain ⟨threadNumber, within, member⟩ := (ranges a.toNat).mpr inside
    refine ⟨threadNumber, within, a.toNat, member, ?_⟩
    rw [searchLocation_iff _ filled a.toNat inside]
    exact ⟨by rw [BitVec.ofNat_toNat, BitVec.setWidth_eq], accepted⟩

/-- Primitives that hash to zeros and leave the data as it is. -/
def plainPrimitives : Primitives where
  sha512 _ := List.replicate 64 0
  aesCbc _ _ data := data
  sha512_length _ := List.length_replicate
  aesCbc_length _ _ _ _ := rfl

def plainWrites : List (Nat × Bytes) :=
  (List.range 4).flatMap fun threadNumber => sha512Filler plainPrimitives 0 threadNumber 4

def plainResults : List (BitVec 32 × BitVec 32) :=
  (List.range 4).flatMap fun threadNumber =>
    aesSearch plainPrimitives (Memory.fill (fun _ => 0) plainWrites) threadNumber 4

theorem search_finds_verified_four :
    (7, 0) ∈ plainResults ↔ patternVerify plainPrimitives 0 7 0 = true :=
  search_finds_verified 4 (fun _ => 0) plainResults (by decide)
    ⟨plainWrites, List.Perm.refl _, List.Perm.refl _⟩ 7 0

end PatternSearch

end RoiCoin
