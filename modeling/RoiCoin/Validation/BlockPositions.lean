import RoiCoin.Validation.HaveData

/-! `FindBlockPos` with the 32-bit sums it computes: which ranges of the block files it hands out
over a sequence of calls, and when these stay apart. -/

namespace RoiCoin

/-- The arguments of a call and the free space it finds; `known` is the position of a block that
lies in a file already. -/
structure BlockPosCall where
  nAddSize : BitVec 32
  nHeight : BitVec 32
  nTime : BitVec 64
  known : Option (Nat × BitVec 32)
  freeBytes : Nat

/-- A range of a block file, with the height and the time of its block. -/
structure BlockRange where
  nFile : Nat
  nPos : Nat
  size : Nat
  nHeight : Nat
  nTime : Nat
  deriving DecidableEq, Repr

/-- The sum of two `unsigned int`. -/
def sum32 (a b : Nat) : Nat := (a + b) % 2 ^ 32

/-- The `while` loop: the first file from `nFile` on with room, a new one after the last. It never
ends where even an empty file has no room. -/
def roomFrom32 (nAddSize : BitVec 32) (nFile : Nat) : List CBlockFileInfo → Option Nat
  | [] => if nAddSize.toNat ≥ maxBlockfileSize then none else some nFile
  | info :: infos =>
      if sum32 info.nSize nAddSize.toNat ≥ maxBlockfileSize then
        roomFrom32 nAddSize (nFile + 1) infos
      else some nFile

namespace BlockStore

/-- `FindBlockPos`: the store after the call, the range it registers and what it returns; `none`
where its loop never ends. -/
def findBlockPos32 (config : StorageConfig) (store : BlockStore) (call : BlockPosCall) :
    Option (BlockStore × BlockRange × Bool) :=
  let nAddSize := call.nAddSize.toNat
  (call.known.elim
    (roomFrom32 call.nAddSize store.nLastBlockFile
      (store.vinfoBlockFile.drop store.nLastBlockFile)) fun pos => some pos.1).map fun nFile =>
  let nPos := call.known.elim (store.fileInfo nFile).nSize fun pos => pos.2.toNat
  let nSize := call.known.elim (sum32 (store.fileInfo nFile).nSize nAddSize) fun pos =>
    max (sum32 pos.2.toNat nAddSize) (store.fileInfo nFile).nSize
  let grown := { store with
    vinfoBlockFile := store.changeInfo nFile fun info =>
      { info.addBlock call.nHeight.toNat call.nTime.toNat with nSize }
    nLastBlockFile := nFile }
  let nOldChunks := sum32 nPos (blockfileChunkSize - 1) / blockfileChunkSize
  let nNewChunks := sum32 nSize (blockfileChunkSize - 1) / blockfileChunkSize
  let opened := call.known.isNone && decide (nNewChunks > nOldChunks)
  let checked := { grown with
    fCheckForPruning := grown.fCheckForPruning || (opened && config.fPruneMode) }
  let range := ⟨nFile, nPos, nAddSize, call.nHeight.toNat, call.nTime.toNat⟩
  let failed := opened &&
    !checkDiskSpace call.freeBytes (unsigned32 (nNewChunks * blockfileChunkSize - nPos))
  ({ checked with
      setDirtyFileInfo := if failed then checked.setDirtyFileInfo
        else checked.setDirtyFileInfo.insert nFile }, range, !failed)

end BlockStore

/-- Two ranges do not share a byte. -/
def BlockRange.apart (range other : BlockRange) : Prop :=
  range.nFile ≠ other.nFile ∨ range.nPos + range.size ≤ other.nPos ∨
    other.nPos + other.size ≤ range.nPos

instance (range other : BlockRange) : Decidable (range.apart other) :=
  inferInstanceAs (Decidable (_ ∨ _))

/-- The heights of a file's ranges. -/
def heightsIn (log : List BlockRange) (nFile : Nat) : List Nat :=
  (log.filter fun range => range.nFile = nFile).map BlockRange.nHeight

def timesIn (log : List BlockRange) (nFile : Nat) : List Nat :=
  (log.filter fun range => range.nFile = nFile).map BlockRange.nTime

/-- `first` and `last` are the least and the greatest of the values; both are zero when there
are none. -/
structure Spans (first last : Nat) (values : List Nat) : Prop where
  lower : ∀ value ∈ values, first ≤ value
  upper : ∀ value ∈ values, value ≤ last
  least : values ≠ [] → first ∈ values
  greatest : values ≠ [] → last ∈ values
  empty : values = [] → last = 0

/-- The file table agrees with the ranges registered so far, the last one first. -/
structure Registered (store : BlockStore) (log : List BlockRange) : Prop where
  covered : ∀ range ∈ log, range.nPos + range.size ≤ (store.fileInfo range.nFile).nSize
  words : ∀ nFile, (store.fileInfo nFile).nSize < 2 ^ 32
  counted : ∀ nFile, (store.fileInfo nFile).nBlocks = (heightsIn log nFile).length
  heights : ∀ nFile, Spans (store.fileInfo nFile).nHeightFirst (store.fileInfo nFile).nHeightLast
    (heightsIn log nFile)
  times : ∀ nFile, Spans (store.fileInfo nFile).nTimeFirst (store.fileInfo nFile).nTimeLast
    (timesIn log nFile)
  last : ∀ range earlier, log = range :: earlier → store.nLastBlockFile = range.nFile ∧
    range.nFile < store.vinfoBlockFile.length

/-- The 32-bit sums of a call do not wrap: a known block ends below `2 ^ 32`, and no file that a
new block is refused for is within its size of that. -/
def BlockPosCall.fits (store : BlockStore) (call : BlockPosCall) : Prop :=
  call.known.elim
    (∀ info ∈ (store.vinfoBlockFile.drop store.nLastBlockFile).takeWhile
        (fun info => info.nSize + call.nAddSize.toNat ≥ maxBlockfileSize),
      info.nSize + call.nAddSize.toNat < 2 ^ 32)
    fun pos => pos.2.toNat + call.nAddSize.toNat < 2 ^ 32

/-- Every call of a sequence leaves the table in agreement with the ranges registered, and every
new range apart from all earlier ones. -/
def StaysApart (config : StorageConfig) : BlockStore → List BlockRange → List BlockPosCall → Prop
  | _, _, [] => True
  | store, log, call :: calls =>
      ∃ store' range returned, store.findBlockPos32 config call = some (store', range, returned) ∧
        (call.known = none → ∀ earlier ∈ log, range.apart earlier) ∧
        Registered store' (range :: log) ∧ StaysApart config store' (range :: log) calls

/-- No call of a sequence has a sum that wraps. -/
def AllFit (config : StorageConfig) : BlockStore → List BlockPosCall → Prop
  | _, [] => True
  | store, call :: calls => call.fits store ∧
      (store.findBlockPos32 config call).elim True fun result => AllFit config result.1 calls

/-- The ranges of a sequence of calls, in order. -/
def rangesOf (config : StorageConfig) : BlockStore → List BlockPosCall → Option (List BlockRange)
  | _, [] => some []
  | store, call :: calls => (store.findBlockPos32 config call).bind fun result =>
      (rangesOf config result.1 calls).map fun ranges => result.2.1 :: ranges

instance (store : BlockStore) (call : BlockPosCall) : Decidable (call.fits store) :=
  match call with
  | ⟨nAddSize, _, _, none, _⟩ => inferInstanceAs (Decidable (∀ info ∈
      (store.vinfoBlockFile.drop store.nLastBlockFile).takeWhile
        (fun info => info.nSize + nAddSize.toNat ≥ maxBlockfileSize),
      info.nSize + nAddSize.toNat < 2 ^ 32))
  | ⟨nAddSize, _, _, some pos, _⟩ =>
      inferInstanceAs (Decidable (pos.2.toNat + nAddSize.toNat < 2 ^ 32))

instance decideAllFit (config : StorageConfig) (store : BlockStore) (calls : List BlockPosCall) :
    Decidable (AllFit config store calls) :=
  match calls with
  | [] => isTrue trivial
  | call :: calls =>
      match found : store.findBlockPos32 config call with
      | none => decidable_of_iff (call.fits store) (by simp [AllFit, found])
      | some result =>
          have := decideAllFit config result.1 calls
          decidable_of_iff (call.fits store ∧ AllFit config result.1 calls)
            (by simp [AllFit, found])

/-! ## One call -/

/-- One more value, as `AddBlock` takes it in. -/
theorem spans_cons (first last value count : Nat) (values : List Nat)
    (counted : count = values.length) (spans : Spans first last values) :
    Spans (if count = 0 ∨ first > value then value else first)
      (if value > last then value else last) (value :: values) := by
  obtain ⟨lower, upper, least, greatest, empty⟩ := spans
  have none : count = 0 ↔ values = [] := by rw [counted, List.length_eq_zero_iff]
  refine ⟨?_, ?_, ?_, ?_, fun given => absurd given (List.cons_ne_nil _ _)⟩
  · intro other member
    rcases List.mem_cons.mp member with rfl | earlier
    · split <;> omega
    · have some : count ≠ 0 := fun zero => by
        rw [none.mp zero] at earlier
        cases earlier
      have bound := lower other earlier
      split <;> omega
  · intro other member
    rcases List.mem_cons.mp member with rfl | earlier
    · split <;> omega
    · have bound := upper other earlier
      split <;> omega
  · intro _
    split
    · exact List.mem_cons_self
    · rename_i kept
      exact List.mem_cons_of_mem _ (least fun given => kept (.inl (none.mpr given)))
  · intro _
    split
    · exact List.mem_cons_self
    · rename_i kept
      by_cases given : values = []
      · have zero : value = last := by
          have := empty given
          omega
        rw [zero]
        exact List.mem_cons_self
      · exact List.mem_cons_of_mem _ (greatest given)

/-- A file with room in 32-bit arithmetic has it truly, unless a file on the way wraps. -/
theorem roomFrom32_room (nAddSize : BitVec 32) (small : nAddSize.toNat < maxBlockfileSize)
    (nFile : Nat) (infos : List CBlockFileInfo) (words : ∀ info ∈ infos, info.nSize < 2 ^ 32) :
    ∃ n, roomFrom32 nAddSize nFile infos = some (nFile + n) ∧
      ((∀ info ∈ infos.takeWhile (fun info => info.nSize + nAddSize.toNat ≥ maxBlockfileSize),
          info.nSize + nAddSize.toNat < 2 ^ 32) ↔
        (infos.getD n .null).nSize + nAddSize.toNat < 2 ^ 32) := by
  have limit : maxBlockfileSize = 2 ^ 27 := rfl
  induction infos generalizing nFile with
  | nil =>
      have fits : (CBlockFileInfo.null).nSize + nAddSize.toNat < 2 ^ 32 := by
        have zero : (CBlockFileInfo.null).nSize = 0 := rfl
        omega
      exact ⟨0, if_neg (by omega), fun _ => fits, fun _ _ member => absurd member List.not_mem_nil⟩
  | cons info infos ih =>
      have word := words info List.mem_cons_self
      obtain ⟨n, later, iff⟩ := ih (nFile + 1) fun other member =>
        words other (List.mem_cons_of_mem _ member)
      rw [roomFrom32, sum32, List.takeWhile_cons]
      by_cases full : (info.nSize + nAddSize.toNat) % 2 ^ 32 ≥ maxBlockfileSize
      · -- a wrapped sum would be below the size of the block
        have more : info.nSize + nAddSize.toNat ≥ maxBlockfileSize := by omega
        have exact : info.nSize + nAddSize.toNat < 2 ^ 32 := by omega
        refine ⟨n + 1, ?_, ?_⟩
        · rw [if_pos full, later]
          congr 1
          omega
        · rw [if_pos (decide_eq_true more), List.forall_mem_cons]
          simp only [exact, true_and]
          exact iff
      · refine ⟨0, if_neg full, ?_⟩
        by_cases more : info.nSize + nAddSize.toNat ≥ maxBlockfileSize
        · have wraps : ¬ info.nSize + nAddSize.toNat < 2 ^ 32 := by omega
          rw [if_pos (decide_eq_true more), List.forall_mem_cons]
          simp only [wraps, false_and, List.getD_cons_zero]
        · have fits : info.nSize + nAddSize.toNat < 2 ^ 32 := by omega
          rw [if_neg (by simpa using more)]
          simp only [fits, List.getD_cons_zero, List.not_mem_nil, false_imp_iff, implies_true]

theorem fileInfo_drop (store : BlockStore) (nFile n : Nat) :
    (store.vinfoBlockFile.drop nFile).getD n .null = store.fileInfo (nFile + n) := by
  rw [BlockStore.fileInfo, List.getD_eq_getElem?_getD, List.getElem?_drop,
    List.getD_eq_getElem?_getD]

/-- What a call does: the range it registers, and the file table it leaves. -/
structure CallResult (store store' : BlockStore) (call : BlockPosCall) (range : BlockRange) :
    Prop where
  size : range.size = call.nAddSize.toNat
  height : range.nHeight = call.nHeight.toNat
  time : range.nTime = call.nTime.toNat
  fresh : call.known = none → range.nPos = (store.fileInfo range.nFile).nSize
  fits : call.fits store ↔ range.nPos + range.size < 2 ^ 32
  last : store'.nLastBlockFile = range.nFile
  table : ∃ nSize, (range.nPos + range.size < 2 ^ 32 →
      nSize = max (range.nPos + range.size) (store.fileInfo range.nFile).nSize) ∧
    (nSize < 2 ^ 32) ∧
    store'.vinfoBlockFile = store.changeInfo range.nFile fun info =>
      { info.addBlock call.nHeight.toNat call.nTime.toNat with nSize }

/-- A call with the size of a block returns. -/
theorem findBlockPos32_spec (config : StorageConfig) (store : BlockStore) (call : BlockPosCall)
    (small : call.nAddSize.toNat < maxBlockfileSize)
    (words : ∀ nFile, (store.fileInfo nFile).nSize < 2 ^ 32) :
    ∃ store' range returned, store.findBlockPos32 config call = some (store', range, returned) ∧
      CallResult store store' call range := by
  have wraps : ∀ a b, sum32 a b < 2 ^ 32 := fun a b => Nat.mod_lt _ (by decide)
  have exact : ∀ a b, a + b < 2 ^ 32 → sum32 a b = a + b := fun a b fits => Nat.mod_eq_of_lt fits
  obtain ⟨nAddSize, nHeight, nTime, known, freeBytes⟩ := call
  cases known with
  | none =>
      have inside : ∀ info ∈ store.vinfoBlockFile.drop store.nLastBlockFile,
          info.nSize < 2 ^ 32 := by
        intro info member
        obtain ⟨n, bound, rfl⟩ := List.getElem_of_mem (List.mem_of_mem_drop member)
        have word := words n
        rw [BlockStore.fileInfo, List.getD_eq_getElem?_getD, List.getElem?_eq_getElem bound] at word
        exact word
      obtain ⟨n, found, fits⟩ := roomFrom32_room nAddSize small store.nLastBlockFile _ inside
      rw [fileInfo_drop] at fits
      have word := words (store.nLastBlockFile + n)
      simp only [BlockStore.findBlockPos32, Option.elim_none, found, Option.map_some]
      refine ⟨_, _, _, rfl, rfl, rfl, rfl, fun _ => rfl, fits, rfl, _, ?_, wraps _ _, rfl⟩
      intro bound
      rw [exact _ _ bound]
      dsimp only
      omega
  | some pos =>
      have word := words pos.1
      simp only [BlockStore.findBlockPos32, Option.elim_some, Option.map_some, Option.isNone_some,
        Bool.false_and, Bool.false_eq_true, if_false]
      refine ⟨_, _, _, rfl, rfl, rfl, rfl, fun given => absurd given (Option.some_ne_none _),
        Iff.rfl, rfl, _, ?_, Nat.max_lt.mpr ⟨wraps _ _, word⟩, rfl⟩
      intro bound
      rw [exact _ _ bound]

/-- Where no sum wraps, the loop finds the file that has room for it. -/
theorem roomFrom32_exact (nAddSize : BitVec 32) (small : nAddSize.toNat < maxBlockfileSize)
    (nFile : Nat) (infos : List CBlockFileInfo) (words : ∀ info ∈ infos, info.nSize < 2 ^ 32)
    (fits : ∀ info ∈ infos.takeWhile (fun info => info.nSize + nAddSize.toNat ≥ maxBlockfileSize),
      info.nSize + nAddSize.toNat < 2 ^ 32) :
    roomFrom32 nAddSize nFile infos =
      some (BlockStore.roomFrom nAddSize.toNat nFile infos) := by
  have limit : maxBlockfileSize = 2 ^ 27 := rfl
  induction infos generalizing nFile with
  | nil => exact if_neg (by omega)
  | cons info infos ih =>
      rw [roomFrom32, BlockStore.roomFrom, sum32]
      by_cases full : info.nSize + nAddSize.toNat ≥ maxBlockfileSize
      · rw [List.takeWhile_cons, if_pos (decide_eq_true full), List.forall_mem_cons] at fits
        rw [Nat.mod_eq_of_lt fits.1, if_pos full, if_pos full]
        exact ih (nFile + 1) (fun other member => words other (List.mem_cons_of_mem _ member))
          fits.2
      · rw [Nat.mod_eq_of_lt (by omega), if_neg full, if_neg full]

theorem roomFrom_room (nAddSize : Nat) (small : nAddSize < maxBlockfileSize) (nFile : Nat)
    (infos : List CBlockFileInfo) :
    ∃ n, BlockStore.roomFrom nAddSize nFile infos = nFile + n ∧
      (infos.getD n .null).nSize + nAddSize < maxBlockfileSize := by
  induction infos generalizing nFile with
  | nil => exact ⟨0, rfl, by simpa [CBlockFileInfo.null] using small⟩
  | cons info infos ih =>
      rw [BlockStore.roomFrom]
      split
      · obtain ⟨n, found, room⟩ := ih (nFile + 1)
        exact ⟨n + 1, by rw [found]; omega, room⟩
      · rename_i room
        exact ⟨0, rfl, by rw [List.getD_cons_zero]; omega⟩

/-- Without wrapping sums the call is the one on exact sizes. -/
theorem findBlockPos32_refines (config : StorageConfig) (store : BlockStore) (call : BlockPosCall)
    (small : call.nAddSize.toNat < maxBlockfileSize)
    (words : ∀ info ∈ store.vinfoBlockFile, info.nSize < 2 ^ 32) (fits : call.fits store) :
    (store.findBlockPos32 config call).map (fun result => (result.1, result.2.2)) =
      some (store.findBlockPos config call.freeBytes call.nAddSize.toNat call.nHeight.toNat
        call.nTime.toNat (call.known.map fun pos => (pos.1, pos.2.toNat))) := by
  have limit : maxBlockfileSize = 2 ^ 27 := rfl
  have chunk : blockfileChunkSize = 2 ^ 24 := rfl
  have exact : ∀ a b, a + b < 2 ^ 32 → sum32 a b = a + b := fun a b below => Nat.mod_eq_of_lt below
  obtain ⟨nAddSize, nHeight, nTime, known, freeBytes⟩ := call
  cases known with
  | none =>
      have inside : ∀ info ∈ store.vinfoBlockFile.drop store.nLastBlockFile,
          info.nSize < 2 ^ 32 := fun info member => words info (List.mem_of_mem_drop member)
      obtain ⟨n, file, room⟩ := roomFrom_room nAddSize.toNat small store.nLastBlockFile
        (store.vinfoBlockFile.drop store.nLastBlockFile)
      rw [fileInfo_drop] at room
      have found := roomFrom32_exact nAddSize small store.nLastBlockFile _ inside fits
      have sum := exact (store.fileInfo (store.nLastBlockFile + n)).nSize nAddSize.toNat (by omega)
      have rounded : ∀ size, size < 2 ^ 27 → sum32 size (blockfileChunkSize - 1) =
          size + blockfileChunkSize - 1 := by
        intro size below
        rw [exact _ _ (by omega)]
        omega
      simp only [BlockStore.findBlockPos32, BlockStore.findBlockPos, BlockStore.blockFile,
        Option.elim_none, Option.map_none, found, file, Option.map_some, sum,
        rounded _ (show (store.fileInfo (store.nLastBlockFile + n)).nSize < 2 ^ 27 by omega),
        rounded _ (show (store.fileInfo (store.nLastBlockFile + n)).nSize + nAddSize.toNat < 2 ^ 27
          by omega)]
      generalize (store.fileInfo (store.nLastBlockFile + n)).nSize = nPos at *
      have space : unsigned32 (((nPos + nAddSize.toNat + blockfileChunkSize - 1) /
          blockfileChunkSize : Nat) * (blockfileChunkSize : Int) - nPos) =
          BlockStore.chunkSpace blockfileChunkSize nPos (nPos + nAddSize.toNat) := by
        rw [unsigned32, BlockStore.chunkSpace, chunk]
        omega
      have opened : decide ((nPos + nAddSize.toNat + blockfileChunkSize - 1) / blockfileChunkSize >
          (nPos + blockfileChunkSize - 1) / blockfileChunkSize) =
          BlockStore.opensChunk blockfileChunkSize nPos (nPos + nAddSize.toNat) := rfl
      rw [space, opened]
      cases BlockStore.opensChunk blockfileChunkSize nPos (nPos + nAddSize.toNat) <;>
        cases checkDiskSpace freeBytes
          (BlockStore.chunkSpace blockfileChunkSize nPos (nPos + nAddSize.toNat)) <;> rfl
  | some pos =>
      have sum := exact pos.2.toNat nAddSize.toNat fits
      simp only [BlockStore.findBlockPos32, BlockStore.findBlockPos, BlockStore.blockFile,
        Option.elim_some, Option.map_some, Option.isNone_some, Bool.false_and, sum,
        Bool.false_eq_true, if_false, Bool.not_false]

/-- The values of a file after one more range. -/
theorem valuesIn_cons {α : Type} (value : BlockRange → α) (range : BlockRange)
    (log : List BlockRange) (nFile : Nat) :
    ((range :: log).filter (·.nFile = nFile)).map value =
      if nFile = range.nFile then value range :: (log.filter (·.nFile = nFile)).map value
      else (log.filter (·.nFile = nFile)).map value := by
  by_cases same : range.nFile = nFile
  · simp [same]
  · have other : ¬ nFile = range.nFile := fun here => same here.symm
    simp [same, other]

theorem heightsIn_cons (range : BlockRange) (log : List BlockRange) (nFile : Nat) :
    heightsIn (range :: log) nFile =
      if nFile = range.nFile then range.nHeight :: heightsIn log nFile
      else heightsIn log nFile := valuesIn_cons BlockRange.nHeight range log nFile

theorem timesIn_cons (range : BlockRange) (log : List BlockRange) (nFile : Nat) :
    timesIn (range :: log) nFile =
      if nFile = range.nFile then range.nTime :: timesIn log nFile else timesIn log nFile :=
  valuesIn_cons BlockRange.nTime range log nFile

theorem timesIn_length (log : List BlockRange) (nFile : Nat) :
    (timesIn log nFile).length = (heightsIn log nFile).length := by
  rw [timesIn, heightsIn, List.length_map, List.length_map]

/-- A range that ends below `2 ^ 32` keeps the table in agreement. -/
theorem registered_step (store store' : BlockStore) (log : List BlockRange) (call : BlockPosCall)
    (range : BlockRange) (registered : Registered store log)
    (result : CallResult store store' call range) (fits : range.nPos + range.size < 2 ^ 32) :
    Registered store' (range :: log) := by
  obtain ⟨nSize, value, word, table⟩ := result.table
  have info : ∀ n, store'.fileInfo n = if n = range.nFile
      then { (store.fileInfo range.nFile).addBlock range.nHeight range.nTime with nSize }
      else store.fileInfo n := by
    intro n
    rw [BlockStore.fileInfo, table, BlockStore.fileInfo_change, result.height, result.time]
  have grown := value fits
  constructor
  case covered =>
    intro other member
    rw [info]
    rcases List.mem_cons.mp member with rfl | earlier
    · rw [if_pos rfl]
      exact Nat.le_trans (Nat.le_max_left _ _) (Nat.le_of_eq grown.symm)
    · have bound := registered.covered other earlier
      split
      · rename_i same
        rw [same] at bound
        exact Nat.le_trans bound (Nat.le_trans (Nat.le_max_right _ _) (Nat.le_of_eq grown.symm))
      · exact bound
  case words =>
    intro n
    rw [info]
    split
    · exact word
    · exact registered.words n
  case counted =>
    intro n
    rw [info, heightsIn_cons]
    split
    · rename_i same
      rw [same, List.length_cons, ← registered.counted]
      rfl
    · exact registered.counted n
  case heights =>
    intro n
    rw [info, heightsIn_cons]
    split
    · rename_i same
      rw [same]
      exact spans_cons _ _ _ _ _ (registered.counted _) (registered.heights _)
    · exact registered.heights n
  case times =>
    intro n
    rw [info, timesIn_cons]
    split
    · rename_i same
      rw [same]
      exact spans_cons _ _ _ _ _
        ((registered.counted _).trans (timesIn_length _ _).symm) (registered.times _)
    · exact registered.times n
  case last =>
    intro other earlier split
    obtain ⟨rfl, rfl⟩ := List.cons.inj split
    refine ⟨result.last, ?_⟩
    rw [table, BlockStore.changeInfo, List.length_set, List.length_append, List.length_replicate]
    omega

/-- A new block starts where everything registered in its file ends. -/
theorem apart_of_fresh (store store' : BlockStore) (log : List BlockRange) (call : BlockPosCall)
    (range : BlockRange) (registered : Registered store log)
    (result : CallResult store store' call range) (fresh : call.known = none) :
    ∀ earlier ∈ log, range.apart earlier := by
  intro earlier member
  by_cases same : range.nFile = earlier.nFile
  · have covered := registered.covered earlier member
    have start := result.fresh fresh
    rw [same] at start
    exact .inr (.inr (by omega))
  · exact .inl same

/-! ## Sequences of calls -/

/-- Over any sequence of calls with sizes of blocks, every new range is apart from all earlier ones
and the table agrees with all of them, exactly when no 32-bit sum wraps. -/
theorem find_block_pos_apart_iff (config : StorageConfig) (store : BlockStore)
    (log : List BlockRange) (calls : List BlockPosCall) (registered : Registered store log)
    (sizes : ∀ call ∈ calls, call.nAddSize.toNat < maxBlockfileSize) :
    StaysApart config store log calls ↔ AllFit config store calls := by
  induction calls generalizing store log with
  | nil => exact Iff.rfl
  | cons call calls ih =>
      obtain ⟨store', range, returned, found, result⟩ :=
        findBlockPos32_spec config store call (sizes call List.mem_cons_self) registered.words
      have later := fun registered => ih store' (range :: log) registered fun next member =>
        sizes next (List.mem_cons_of_mem _ member)
      constructor
      · intro given
        obtain ⟨other, taken, back, called, -, agrees, rest⟩ := given
        obtain ⟨rfl, rfl, rfl⟩ : store' = other ∧ range = taken ∧ returned = back := by
          simpa [found] using called
        have fits : range.nPos + range.size < 2 ^ 32 :=
          Nat.lt_of_le_of_lt (agrees.covered range List.mem_cons_self) (agrees.words _)
        refine ⟨result.fits.mpr fits, ?_⟩
        rw [found]
        exact (later agrees).mp rest
      · intro given
        obtain ⟨fits, rest⟩ := given
        rw [found] at rest
        have agrees := registered_step store store' log call range registered result
          (result.fits.mp fits)
        exact ⟨store', range, returned, found, apart_of_fresh store store' log call range registered
          result, agrees, (later agrees).mpr rest⟩

/-- Before any block file. -/
def BlockStore.fresh : BlockStore where
  chain := .start
  vinfoBlockFile := []
  nLastBlockFile := 0
  setDirtyFileInfo := []
  setDirtyBlockIndex := []
  fCheckForPruning := false
  blk := fun _ => .empty
  rev := fun _ => .empty
  blocktree := []

theorem registered_fresh : Registered .fresh [] := by
  have null : ∀ nFile, BlockStore.fresh.fileInfo nFile = .null := fun _ => rfl
  have none : ∀ nFile, heightsIn [] nFile = [] ∧ timesIn [] nFile = [] := fun _ => ⟨rfl, rfl⟩
  have spans : Spans 0 0 [] := ⟨by simp, by simp, by simp, by simp, fun _ => rfl⟩
  refine ⟨by simp, ?_, ?_, ?_, ?_, by simp⟩
  · intro nFile
    rw [null]
    decide
  · intro nFile
    rfl
  · intro nFile
    exact spans
  · intro nFile
    exact spans

def noReindex : StorageConfig := ⟨false, false, 0, 0, 100, ⟨fun _ => true, fun _ => none⟩⟩

/-- A reindexed block, two new blocks, and a block of the next file. -/
def mixedCalls : List BlockPosCall :=
  [⟨300, 1, 10, some (0, 8), 10 ^ 9⟩, ⟨1000, 2, 20, none, 10 ^ 9⟩, ⟨500, 3, 30, none, 10 ^ 9⟩,
    ⟨700, 4, 40, some (1, 8), 10 ^ 9⟩]

theorem find_block_pos_mixed : StaysApart noReindex .fresh [] mixedCalls :=
  (find_block_pos_apart_iff noReindex .fresh [] mixedCalls registered_fresh (by decide)).mpr
    (by decide +kernel)

/-- A block registered just below four gigabytes, and two new blocks. -/
def wideCalls : List BlockPosCall :=
  [⟨300, 1, 10, some (0, 8), 10 ^ 9⟩, ⟨500, 2, 20, some (0, 4294966000), 10 ^ 9⟩,
    ⟨1000, 3, 30, none, 10 ^ 9⟩, ⟨500, 4, 40, none, 10 ^ 9⟩]

theorem find_block_pos_wraps :
    rangesOf noReindex .fresh wideCalls = some [⟨0, 8, 300, 1, 10⟩, ⟨0, 4294966000, 500, 2, 20⟩,
      ⟨0, 4294966500, 1000, 3, 30⟩, ⟨0, 204, 500, 4, 40⟩] ∧
    ¬ BlockRange.apart ⟨0, 204, 500, 4, 40⟩ ⟨0, 8, 300, 1, 10⟩ := by
  decide +kernel

end RoiCoin
