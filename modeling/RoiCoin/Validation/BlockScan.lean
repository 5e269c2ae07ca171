import RoiCoin.BufferedFile
import RoiCoin.ChainParams
import RoiCoin.Validation.BlockData

/-! The blocks in a block file, as the loop of `LoadExternalBlockFile` comes to them.

What is done with a block is a parameter. A block is read byte by byte: in what pieces it is read
makes no difference to the buffer, which is filled where its end is met. -/

namespace RoiCoin

open Codec

/-! ## Values that were read -/

theorem typed_signed (count : Nat) (positive : 0 < count) (bytes rest : Bytes) (value : Int)
    (found : (readSigned count).run bytes = some (value, rest)) :
    -2 ^ (8 * count - 1) ≤ value ∧ value < 2 ^ (8 * count - 1) := by
  simp only [readSigned, run_bind, run_pure] at found
  obtain ⟨n, middle, -, rfl, -⟩ := found
  have whole : (0 : Int) < 2 ^ (8 * count) := by positivity
  have least := Int.emod_nonneg ((n : Int) + 2 ^ (8 * count - 1)) (by omega : (2 : Int) ^ (8 * count) ≠ 0)
  have most := Int.emod_lt_of_pos ((n : Int) + 2 ^ (8 * count - 1)) whole
  have half : (2 : Int) ^ (8 * count) = 2 ^ (8 * count - 1) + 2 ^ (8 * count - 1) := by
    rw [← two_mul, ← pow_succ']
    congr 1
    omega
  omega

theorem typed_output (bytes rest : Bytes) (txout : CTxOut)
    (found : CTxOut.read.run bytes = some (txout, rest)) :
    -2 ^ 63 ≤ txout.nValue ∧ txout.nValue < 2 ^ 63 := by
  simp only [CTxOut.read, run_bind, run_pure] at found
  obtain ⟨nValue, middle, value, script, after, -, rfl, -⟩ := found
  exact typed_signed 8 (by decide) bytes middle nValue value

theorem typed_transaction (bytes rest : Bytes) (tx : CTransaction)
    (found : CTransaction.read.run bytes = some (tx, rest)) : tx.Typed := by
  simp only [CTransaction.read, readElements_eq _ 72 (by decide : 0 < 5000000 / 72),
    readElements_eq _ 32 (by decide : 0 < 5000000 / 32), run_bind, run_pure] at found
  obtain ⟨nVersion, afterVersion, version, vin, afterVin, -, vout, afterVout, outputs,
    nLockTime, last, -, rfl, -⟩ := found
  exact {
    version := typed_signed 4 (by decide) bytes afterVersion nVersion version
    values := all_vector _ _ typed_output vout afterVin afterVout outputs }

theorem typed_block (bytes rest : Bytes) (block : CBlock)
    (found : CBlock.read.run bytes = some (block, rest)) : block.Typed := by
  simp only [CBlock.read, readElements_eq _ 96 (by decide : 0 < 5000000 / 96), run_bind,
    run_pure] at found
  obtain ⟨header, middle, -, vtx, after, transactions, rfl, -⟩ := found
  exact all_vector _ _ typed_transaction vtx middle after transactions

/-- A block in memory, with the numbers that its types allow. -/
abbrev TypedBlock := { block : CBlock // block.Typed }

def readBlock (bytes : Bytes) : Option TypedBlock :=
  match found : CBlock.read.run bytes with
  | some (block, rest) => some ⟨block, typed_block bytes rest block found⟩
  | none => none

/-! ## The loop -/

/-- `pchMessageStart` -/
def Network.messageStart : Network → Bytes
  | .main | .testnet => [0x10, 0x27, 0x11, 0x29]
  | .regtest => [0xfa, 0xbf, 0xb5, 0xda]

namespace CBufferedFile

variable (src : SourceFile)

/-- Bytes read one at a time. -/
def readEach : Nat → CBufferedFile → Buffered Bytes
  | 0, f => (f, .ok [])
  | n + 1, f =>
      match f.read src 1 with
      | (f, .error failure) => (f, .error failure)
      | (f, .ok byte) =>
          match readEach n f with
          | (f, .error failure) => (f, .error failure)
          | (f, .ok bytes) => (f, .ok (byte ++ bytes))

/-- How many bytes are read for a block. A reader that fails has read `reach` of them. -/
def bytesTaken (f : CBufferedFile) (reach : Nat) : Nat :=
  let bytes := (src.content.drop f.nReadPos).take (f.nReadLimit - f.nReadPos)
  match CBlock.read.run bytes with
  | some (_, rest) => bytes.length - rest.length
  | none => reach

/-- `blkdat >> block` -/
def readBlock (f : CBufferedFile) (reach : Nat) : CBufferedFile × Option TypedBlock :=
  match f.readEach src (f.bytesTaken src reach) with
  | (f, .error _) => (f, none)
  | (f, .ok bytes) => (f, RoiCoin.readBlock bytes)

/-- The first `try` block: where to go on in case of failure, and the size of a block if one
follows. -/
def locate (messageStart : Bytes) (f : CBufferedFile) : CBufferedFile × Option (Nat × Option Nat) :=
  match f.findByte src (messageStart.headD 0) with
  | (f, .error _) => (f, none)
  | (f, .ok _) =>
      let nRewind := addUint64 f.nReadPos 1
      match f.read src 4 with
      | (f, .error _) => (f, none)
      | (f, .ok buf) =>
          if buf ≠ messageStart then (f, some (nRewind, none))
          else
            match f.read src 4 with
            | (f, .error _) => (f, none)
            | (f, .ok bytes) =>
                let nSize := readLE bytes
                if nSize < 80 ∨ maxBlockSize < nSize then (f, some (nRewind, none))
                else (f, some (nRewind, some nSize))

end CBufferedFile

/-- The variables of the loop, and what the blocks so far have changed. -/
structure BlockScan (σ : Type) where
  blkdat : CBufferedFile
  nRewind : Nat
  state : σ

inductive ScanEnd where
  /-- The end of the file, or no more header before it. -/
  | finished
  | stopped
  /-- The loop never ends. -/
  | unfinished
  deriving DecidableEq, Repr

namespace BlockScan

variable {σ : Type} (src : SourceFile) (messageStart : Bytes) (reach : Nat → Nat)
  (handle : σ → TypedBlock → Nat → σ × Bool)

/-- `blkdat(fileIn, 2*MAX_BLOCK_SIZE, MAX_BLOCK_SIZE+8, …)` -/
def start (state : σ) : BlockScan σ :=
  ⟨.ofSize (2 * maxBlockSize) (maxBlockSize + 8), 0, state⟩

/-- `nRewind++` at the head of the loop is overwritten before it is read. -/
def loop : Nat → BlockScan σ → σ × ScanEnd
  | 0, s => (s.state, .unfinished)
  | fuel + 1, s =>
      if s.blkdat.eof then (s.state, .finished)
      else
        let blkdat := ((s.blkdat.setPos s.nRewind).1.setLimit (2 ^ 64 - 1)).1
        match blkdat.locate src messageStart with
        | (_, none) => (s.state, .finished)
        | (blkdat, some (nRewind, none)) => loop fuel ⟨blkdat, nRewind, s.state⟩
        | (blkdat, some (nRewind, some nSize)) =>
            let nBlockPos := blkdat.nReadPos
            let blkdat := (blkdat.setLimit (addUint64 nBlockPos nSize)).1
            let blkdat := (blkdat.setPos nBlockPos).1
            match blkdat.readBlock src (reach nBlockPos) with
            | (blkdat, none) => loop fuel ⟨blkdat, nRewind, s.state⟩
            | (blkdat, some block) =>
                match handle s.state block nBlockPos with
                | (state, true) => (state, .stopped)
                | (state, false) => loop fuel ⟨blkdat, blkdat.nReadPos, state⟩

/-- Every turn of the loop goes on by a byte or more. -/
def scan (state : σ) : σ × ScanEnd :=
  loop src messageStart reach handle (src.content.length + 1) (start state)

end BlockScan

/-! ## The loop ends -/

theorem serializeSize_least (block : CBlock) : 80 ≤ block.serializeSize := by
  rw [CBlock.serializeSize]
  omega

namespace CBufferedFile

variable {src : SourceFile}

/-- Going back to a position that has been read from the source does not go back further. -/
theorem setPos_reaches (f : CBufferedFile) (nPos : Nat) (fits : nPos + f.nRewind < 2 ^ 64)
    (read : nPos ≤ f.nSrcPos) (sound : f.Sound src) : nPos ≤ (f.setPos nPos).1.nReadPos := by
  have within := sound.within
  have file := sound.file
  have rewind := sound.rewind
  rw [setPos, addUint64_small _ _ fits]
  split
  · rw [subUint64_small _ _ (by omega) (by omega)]
    dsimp only
    omega
  · split
    · exact read
    · exact Nat.le_refl _

theorem read_fits (f : CBufferedFile) (sound : f.Sound src) (nSize : Nat) (small : nSize < 2 ^ 32) :
    nSize + f.nReadPos < 2 ^ 64 ∧ nSize + f.nRewind < 2 ^ 64 := by
  have within := sound.within
  have ahead := sound.ahead
  have file := sound.file
  have rewind := sound.rewind
  have buffer := sound.buffer
  omega

theorem readEach_reads (n : Nat) (f : CBufferedFile) (sound : f.Sound src) :
    Reads src f n [] (f.readEach src n) := by
  induction n generalizing f with
  | zero => exact ⟨sound, Later.refl f, Nat.le_refl _, by simp [readEach], by simp [readEach]⟩
  | succ n ih =>
      have fits := read_fits f sound 1 (by decide)
      have first := read_reads f sound 1 fits
      rw [readEach]
      revert first
      rcases f.read src 1 with ⟨f', failure | byte⟩
      · intro first
        exact ⟨first.sound, first.later, first.forward, fun same => first.ends (by simpa using same),
          by simp⟩
      · intro first
        obtain ⟨position, read⟩ := first.bytes byte rfl
        have rest := ih f' first.sound
        dsimp only at position ⊢
        revert rest
        rcases f'.readEach src n with ⟨f'', failure | bytes⟩
        · intro rest
          exact ⟨rest.sound, first.later.trans rest.later, first.forward.trans rest.forward,
            fun same => rest.ends (by simpa using same), by simp⟩
        · intro rest
          obtain ⟨position', read'⟩ := rest.bytes bytes rfl
          refine ⟨rest.sound, first.later.trans rest.later, first.forward.trans rest.forward,
            by simp, ?_⟩
          intro all same
          dsimp only at position' same ⊢
          rw [Except.ok.injEq] at same
          have joined : (src.content.drop f.nReadPos).take (1 + n) =
              (src.content.drop f.nReadPos).take 1 ++
                (src.content.drop (f.nReadPos + 1)).take n := by
            rw [← List.drop_drop, ← List.take_add]
          refine ⟨by omega, ?_⟩
          rw [← same, read, read', position, Nat.add_comm n 1, joined, List.nil_append,
            List.nil_append, List.nil_append]

/-- What the first `try` block has found at the position `p`. -/
structure FoundAt (src : SourceFile) (messageStart : Bytes) (f f' : CBufferedFile)
    (p nRewind : Nat) (size : Option Nat) : Prop where
  rewind : nRewind = p + 1
  least : f.nReadPos ≤ p
  there : src.content[p]? = some (messageStart.headD 0)
  first : ∀ x, f.nReadPos ≤ x → x < p → src.content[x]? ≠ some (messageStart.headD 0)
  beyond : p + 4 ≤ f'.nReadPos ∧ f'.nReadPos ≤ p + 8
  header : ∀ nSize, size = some nSize → (src.content.drop p).take 4 = messageStart ∧
    f'.nReadPos = p + 8 ∧ nSize = readLE ((src.content.drop (p + 4)).take 4)
  refused : size = none → (src.content.drop p).take 4 ≠ messageStart ∨
    readLE ((src.content.drop (p + 4)).take 4) < 80 ∨
    maxBlockSize < readLE ((src.content.drop (p + 4)).take 4)

/-- Where the first `try` block leaves the file. -/
structure Located (src : SourceFile) (messageStart : Bytes) (f : CBufferedFile)
    (result : CBufferedFile × Option (Nat × Option Nat)) : Prop where
  sound : result.1.Sound src
  later : Later f result.1
  forward : Forward src f result.1
  next : ∀ nRewind size, result.2 = some (nRewind, size) →
    ∃ p, FoundAt src messageStart f result.1 p nRewind size

theorem locate_located (messageStart : Bytes) (f : CBufferedFile) (sound : f.Sound src) :
    Located src messageStart f (f.locate src messageStart) := by
  have finds := findByteLoop_finds (messageStart.headD 0) (src.content.length + 1) f sound
    (by omega)
  have forward := findByte_forward f sound (messageStart.headD 0)
  rw [locate]
  rw [← findByte] at finds
  revert finds forward
  rcases f.findByte src (messageStart.headD 0) with ⟨f₁, failure | done⟩
  · intro finds forward
    exact ⟨finds.sound, finds.later, forward, by simp⟩
  intro finds forward
  obtain ⟨there, first⟩ := finds.found rfl
  have sound₁ : f₁.Sound src := finds.sound
  have within := sound₁.within
  have ahead := sound₁.ahead
  have file := sound₁.file
  have least : f.nReadPos ≤ f₁.nReadPos := finds.forward
  have reads := read_reads f₁ sound₁ 4 (read_fits f₁ sound₁ 4 (by decide))
  have further := read_forward f₁ sound₁ 4 (read_fits f₁ sound₁ 4 (by decide)).2
  dsimp only at there first ⊢
  rw [addUint64_small _ _ (by omega)]
  revert reads further
  rcases f₁.read src 4 with ⟨f₂, failure | buf⟩
  · intro reads further
    exact ⟨reads.sound, finds.later.trans reads.later, forward.trans finds.later further, by simp⟩
  intro reads further
  have sound₂ : f₂.Sound src := reads.sound
  obtain ⟨position₂, buffer⟩ := reads.bytes buf rfl
  have later₂ := finds.later.trans reads.later
  have forward₂ := forward.trans finds.later further
  rw [List.nil_append] at buffer
  dsimp only at position₂ ⊢
  by_cases magic : buf ≠ messageStart
  · rw [if_pos magic]
    refine ⟨sound₂, later₂, forward₂, ?_⟩
    intro nRewind size same
    rw [Option.some.injEq, Prod.mk.injEq] at same
    refine ⟨f₁.nReadPos, same.1.symm, least, there, first, by dsimp only; omega, ?_, ?_⟩
    · intro nSize sized
      rw [← same.2] at sized
      cases sized
    · intro _
      rw [← buffer]
      exact .inl magic
  rw [if_neg magic]
  rw [ne_eq, not_not] at magic
  have reads₃ := read_reads f₂ sound₂ 4 (read_fits f₂ sound₂ 4 (by decide))
  have further₃ := read_forward f₂ sound₂ 4 (read_fits f₂ sound₂ 4 (by decide)).2
  revert reads₃ further₃
  rcases f₂.read src 4 with ⟨f₃, failure | bytes⟩
  · intro reads₃ further₃
    exact ⟨reads₃.sound, later₂.trans reads₃.later, forward₂.trans later₂ further₃, by simp⟩
  intro reads₃ further₃
  obtain ⟨position₃, sizeBytes⟩ := reads₃.bytes bytes rfl
  rw [List.nil_append, position₂] at sizeBytes
  dsimp only at position₃ ⊢
  split
  · rename_i refused
    refine ⟨reads₃.sound, later₂.trans reads₃.later, forward₂.trans later₂ further₃, ?_⟩
    intro nRewind size same
    rw [Option.some.injEq, Prod.mk.injEq] at same
    refine ⟨f₁.nReadPos, same.1.symm, least, there, first, by dsimp only; omega, ?_, ?_⟩
    · intro nSize sized
      rw [← same.2] at sized
      cases sized
    · intro _
      rw [← sizeBytes]
      exact .inr refused
  · refine ⟨reads₃.sound, later₂.trans reads₃.later, forward₂.trans later₂ further₃, ?_⟩
    intro nRewind size same
    rw [Option.some.injEq, Prod.mk.injEq] at same
    refine ⟨f₁.nReadPos, same.1.symm, least, there, first, by dsimp only; omega, ?_, ?_⟩
    · intro nSize sized
      rw [← same.2, Option.some.injEq] at sized
      exact ⟨by rw [← buffer, magic], by dsimp only; omega, by rw [← sizeBytes, sized]⟩
    · intro none
      rw [← same.2] at none
      cases none

/-- A header that is there is found, or something before it. -/
theorem locate_ok (messageStart : Bytes) (f : CBufferedFile) (sound : f.Sound src)
    (steady : src.Steady) (limit : f.nReadLimit = 2 ^ 64 - 1)
    (room : 8 + f.nRewind ≤ f.vchBuf.length) (x : Nat) (least : f.nReadPos ≤ x)
    (there : src.content[x]? = some (messageStart.headD 0)) (whole : x + 8 ≤ src.content.length) :
    (f.locate src messageStart).2 ≠ none := by
  have finds := findByteLoop_finds (messageStart.headD 0) (src.content.length + 1) f sound
    (by omega)
  have found := findByte_ok f sound steady (messageStart.headD 0) x least there
  rw [locate]
  rw [← findByte] at finds
  revert finds found
  rcases f.findByte src (messageStart.headD 0) with ⟨f₁, failure | done⟩
  · intro _ found
    cases found
  intro finds _
  have first := (finds.found rfl).2
  have file := sound.file
  have sound₁ : f₁.Sound src := finds.sound
  have limit₁ : f₁.nReadLimit = f.nReadLimit := finds.later.limit
  have size₁ : f₁.vchBuf.length = f.vchBuf.length := finds.later.size
  have room₁ : f₁.nRewind = f.nRewind := finds.later.rewind
  have before : f₁.nReadPos ≤ x := by
    by_contra after
    exact first x least (by dsimp only; omega) there
  have read := read_ok f₁ sound₁ steady 4 (by omega) (by omega) (by omega)
  have reads := read_reads f₁ sound₁ 4 (read_fits f₁ sound₁ 4 (by decide))
  dsimp only
  revert read reads
  rcases f₁.read src 4 with ⟨f₂, failure | buf⟩
  · intro read _
    cases read.1
  intro read reads
  have limit₂ : f₂.nReadLimit = f₁.nReadLimit := reads.later.limit
  have size₂ : f₂.vchBuf.length = f₁.vchBuf.length := reads.later.size
  have room₂ : f₂.nRewind = f₁.nRewind := reads.later.rewind
  have position₂ : f₂.nReadPos = f₁.nReadPos + 4 := read.2
  have again := read_ok f₂ reads.sound steady 4 (by omega) (by omega) (by omega)
  dsimp only
  split
  · simp
  revert again
  rcases f₂.read src 4 with ⟨f₃, failure | bytes⟩
  · intro again
    cases again.1
  intro _
  dsimp only
  split <;> simp

theorem readEach_forward (n : Nat) (f : CBufferedFile) (sound : f.Sound src) :
    Forward src f (f.readEach src n).1 := by
  induction n generalizing f with
  | zero => exact Forward.refl f
  | succ n ih =>
      have reads := read_reads f sound 1 (read_fits f sound 1 (by decide))
      have forward := read_forward f sound 1 (read_fits f sound 1 (by decide)).2
      rw [readEach]
      revert reads forward
      rcases f.read src 1 with ⟨f', failure | byte⟩
      · exact fun _ forward => forward
      · intro reads forward
        have rest := forward.trans reads.later (ih f' reads.sound)
        dsimp only
        revert rest
        rcases f'.readEach src n with ⟨f'', failure | bytes⟩ <;> exact id

theorem readEach_ok (n : Nat) (f : CBufferedFile) (sound : f.Sound src) (steady : src.Steady)
    (limit : n + f.nReadPos ≤ f.nReadLimit) (room : 1 + f.nRewind ≤ f.vchBuf.length)
    (whole : f.nReadPos + n ≤ src.content.length) :
    ∃ bytes, (f.readEach src n).2 = .ok bytes := by
  induction n generalizing f with
  | zero => exact ⟨[], rfl⟩
  | succ n ih =>
      have read := read_ok f sound steady 1 (by omega) (by omega) (by omega)
      have reads := read_reads f sound 1 (read_fits f sound 1 (by decide))
      rw [readEach]
      revert read reads
      rcases f.read src 1 with ⟨f', failure | byte⟩
      · intro read
        cases read.1
      · intro read reads
        have position : f'.nReadPos = f.nReadPos + 1 := read.2
        have limit' : f'.nReadLimit = f.nReadLimit := reads.later.limit
        have size' : f'.vchBuf.length = f.vchBuf.length := reads.later.size
        have room' : f'.nRewind = f.nRewind := reads.later.rewind
        obtain ⟨bytes, rest⟩ := ih f' reads.sound (by omega) (by omega) (by omega)
        dsimp only
        revert rest
        rcases f'.readEach src n with ⟨f'', failure | others⟩
        · exact fun rest => nomatch rest
        · exact fun _ => ⟨byte ++ others, rfl⟩

theorem readBlock_reads (f : CBufferedFile) (sound : f.Sound src) (reach : Nat) :
    (f.readBlock src reach).1.Sound src ∧ Later f (f.readBlock src reach).1 ∧
      f.nReadPos ≤ (f.readBlock src reach).1.nReadPos := by
  have reads := readEach_reads (f.bytesTaken src reach) f sound
  rw [readBlock]
  revert reads
  rcases f.readEach src (f.bytesTaken src reach) with ⟨f', failure | bytes⟩ <;>
    exact fun reads => ⟨reads.sound, reads.later, reads.forward⟩

theorem readBlock_forward (f : CBufferedFile) (sound : f.Sound src) (reach : Nat) :
    Forward src f (f.readBlock src reach).1 := by
  have forward := readEach_forward (f.bytesTaken src reach) f sound
  rw [readBlock]
  revert forward
  rcases f.readEach src (f.bytesTaken src reach) with ⟨f', failure | bytes⟩ <;> exact id

theorem readBlock_some (bytes rest : Bytes) (block : TypedBlock)
    (found : CBlock.read.run bytes = some (block.1, rest)) :
    RoiCoin.readBlock bytes = some block := by
  rw [RoiCoin.readBlock]
  split
  · rename_i other rest' again
    rw [found, Option.some.injEq, Prod.mk.injEq] at again
    simp only [← again.1]
  · rename_i none
    rw [found] at none
    cases none

/-- A block that lies at the position, up to the limit, is read. -/
theorem readBlock_ok (f : CBufferedFile) (sound : f.Sound src) (steady : src.Steady) (reach : Nat)
    (block : TypedBlock) (sized : block.1.Sized)
    (room : 1 + f.nRewind ≤ f.vchBuf.length)
    (limit : f.nReadLimit = f.nReadPos + block.1.write.length)
    (there : (src.content.drop f.nReadPos).take block.1.write.length = block.1.write) :
    (f.readBlock src reach).2 = some block ∧
      (f.readBlock src reach).1.nReadPos = f.nReadPos + block.1.write.length := by
  have read := reads_block block.1 block.2 sized []
  rw [List.append_nil] at read
  have taken : f.bytesTaken src reach = block.1.write.length := by
    rw [bytesTaken, limit, Nat.add_sub_cancel_left, there, read]
    rfl
  have length := congrArg List.length there
  rw [List.length_take, List.length_drop] at length
  have whole : f.nReadPos + block.1.write.length ≤ src.content.length ∨
      block.1.write.length = 0 := by omega
  have some : block.1.write.length ≠ 0 := by
    have least := serializeSize_least block.1
    rw [block_length]
    omega
  have each := readEach_ok block.1.write.length f sound steady (by omega) room
    (whole.resolve_right some)
  have reads := readEach_reads block.1.write.length f sound
  rw [readBlock, taken]
  revert each reads
  rcases f.readEach src block.1.write.length with ⟨f', failure | bytes⟩
  · intro each
    obtain ⟨bytes, failed⟩ := each
    cases failed
  · intro _ reads
    obtain ⟨position, content⟩ := reads.bytes bytes rfl
    rw [List.nil_append, there] at content
    have same := readBlock_some block.1.write [] block read
    dsimp only at position ⊢
    rw [content]
    exact ⟨same, position⟩

end CBufferedFile

namespace BlockScan

open CBufferedFile

variable {σ : Type} (src : SourceFile) (messageStart : Bytes) (reach : Nat → Nat)
  (handle : σ → TypedBlock → Nat → σ × Bool)

/-- Each turn goes on from a later position of the file. -/
theorem loop_ends (fuel : Nat) (s : BlockScan σ) (sound : s.blkdat.Sound src)
    (read : s.nRewind ≤ s.blkdat.nSrcPos) (enough : src.content.length < s.nRewind + fuel) :
    (loop src messageStart reach handle fuel s).2 ≠ .unfinished := by
  induction fuel generalizing s with
  | zero =>
      have within := sound.within
      omega
  | succ fuel ih =>
      have within := sound.within
      have file := sound.file
      have rewind := sound.rewind
      have buffer := sound.buffer
      rw [loop]
      split
      · simp
      obtain ⟨moved, later, source⟩ := setPos_sound s.blkdat sound s.nRewind (by omega)
      have reached := setPos_reaches s.blkdat s.nRewind (by omega) read sound
      obtain ⟨limited, position, -, -⟩ := setLimit_sound (s.blkdat.setPos s.nRewind).1 moved
        (2 ^ 64 - 1)
      have located := locate_located messageStart _ limited
      dsimp only
      revert located
      rcases (((s.blkdat.setPos s.nRewind).1.setLimit (2 ^ 64 - 1)).1.locate src messageStart) with
        ⟨blkdat, _ | ⟨nRewind, _ | nSize⟩⟩
      · simp
      · intro located
        have sound' : blkdat.Sound src := located.sound
        obtain ⟨p, found⟩ := located.next nRewind none rfl
        have next := found.rewind
        have least := found.least
        have beyond : p + 4 ≤ blkdat.nReadPos ∧ blkdat.nReadPos ≤ p + 8 := found.beyond
        have ahead := sound'.ahead
        exact ih ⟨blkdat, nRewind, s.state⟩ sound' (by dsimp only; omega) (by dsimp only; omega)
      · intro located
        have sound' : blkdat.Sound src := located.sound
        obtain ⟨p, found⟩ := located.next nRewind (some nSize) rfl
        have next := found.rewind
        have least := found.least
        have beyond : p + 4 ≤ blkdat.nReadPos ∧ blkdat.nReadPos ≤ p + 8 := found.beyond
        have ahead := sound'.ahead
        have within' := sound'.within
        obtain ⟨limited', same', source', room'⟩ := setLimit_sound blkdat sound'
          (addUint64 blkdat.nReadPos nSize)
        have rewind' := limited'.rewind
        have buffer' := limited'.buffer
        have back := setPos_sound (blkdat.setLimit (addUint64 blkdat.nReadPos nSize)).1 limited'
          blkdat.nReadPos (by omega)
        have again := setPos_reaches (blkdat.setLimit (addUint64 blkdat.nReadPos nSize)).1
          blkdat.nReadPos (by omega) (by omega) limited'
        have reads := readBlock_reads _ back.1 (reach blkdat.nReadPos)
        dsimp only
        revert reads
        rcases (((blkdat.setLimit (addUint64 blkdat.nReadPos nSize)).1.setPos
          blkdat.nReadPos).1.readBlock src (reach blkdat.nReadPos)) with ⟨after, _ | block⟩
        · intro reads
          have ahead' := reads.1.ahead
          exact ih ⟨after, nRewind, s.state⟩ reads.1 (by dsimp only at *; omega)
            (by dsimp only; omega)
        · intro reads
          have ahead' := reads.1.ahead
          dsimp only
          rcases handle s.state block blkdat.nReadPos with ⟨state, _ | _⟩
          · exact ih ⟨after, after.nReadPos, state⟩ reads.1 ahead' (by dsimp only at *; omega)
          · simp

/-- What handling a block keeps, the loop keeps. -/
theorem loop_keeps (kept : σ → Prop)
    (step : ∀ state block nBlockPos, kept state → kept (handle state block nBlockPos).1)
    (fuel : Nat) (s : BlockScan σ) (start : kept s.state) :
    kept (loop src messageStart reach handle fuel s).1 := by
  induction fuel generalizing s with
  | zero => exact start
  | succ fuel ih =>
      rw [loop]
      split
      · exact start
      dsimp only
      split
      · exact start
      · exact ih _ start
      · rename_i blkdat nRewind nSize located
        split
        · exact ih _ start
        · rename_i after block read
          have next := step s.state block blkdat.nReadPos start
          revert next
          rcases handle s.state block blkdat.nReadPos with ⟨state, _ | _⟩
          · exact fun next => ih _ next
          · exact fun next => next

end BlockScan

/-! ## Files of blocks -/

/-- A block with the bytes before it. -/
structure BlockRecord (network : Network) where
  padding : Bytes
  block : TypedBlock
  clear : ¬ network.messageStart <:+: padding
  small : block.1.serializeSize ≤ maxBlockSize

variable {network : Network}

/-- Magic, size and block. -/
def BlockRecord.bytes (record : BlockRecord network) : Bytes :=
  network.messageStart ++ (writeLE 4 record.block.1.serializeSize ++ record.block.1.write)

def fileBytes (padding : Bytes) : List (BlockRecord network) → Bytes
  | [] => padding
  | record :: records => record.padding ++ (record.bytes ++ fileBytes padding records)

/-- The blocks with their positions, from an offset on. -/
def placed : Nat → List (BlockRecord network) → List (TypedBlock × Nat)
  | _, [] => []
  | offset, record :: records =>
      (record.block, offset + record.padding.length + 8) ::
        placed (offset + record.padding.length + record.bytes.length) records

/-- The blocks are handled one after another, until it is to stop. -/
def visit {σ : Type} (handle : σ → TypedBlock → Nat → σ × Bool) (state : σ) :
    List (TypedBlock × Nat) → σ
  | [] => state
  | (block, nBlockPos) :: blocks =>
      match handle state block nBlockPos with
      | (state, true) => state
      | (state, false) => visit handle state blocks

theorem messageStart_length (network : Network) : network.messageStart.length = 4 := by
  cases network <;> rfl

/-- The first byte of the magic is none of the others. -/
theorem messageStart_apart (network : Network) (i : Nat) (later : 0 < i) (inside : i < 4) :
    network.messageStart[i]? ≠ network.messageStart[0]? := by
  obtain rfl | rfl | rfl : i = 1 ∨ i = 2 ∨ i = 3 := by omega
  all_goals cases network <;> decide

theorem bytes_length (record : BlockRecord network) :
    record.bytes.length = 8 + record.block.1.serializeSize := by
  simp only [BlockRecord.bytes, List.length_append, messageStart_length, writeLE_length,
    block_length]
  omega

/-- No magic starts inside a padding that does not contain one, whatever follows. -/
theorem padding_no_start (padding next : Bytes) (clear : ¬ network.messageStart <:+: padding)
    (ends : next = [] ∨ ∃ rest, next = network.messageStart ++ rest) (i : Nat)
    (inside : i < padding.length) :
    ((padding ++ next).drop i).take 4 ≠ network.messageStart := by
  intro same
  have length := messageStart_length network
  have drop : (padding ++ next).drop i = padding.drop i ++ next :=
    List.drop_append_of_le_length (Nat.le_of_lt inside)
  rw [drop] at same
  have rest : (padding.drop i).length = padding.length - i := List.length_drop
  by_cases whole : 4 ≤ padding.length - i
  · rw [List.take_append_of_le_length (by omega)] at same
    apply clear
    rw [← same]
    exact (List.take_prefix _ _).isInfix.trans (List.drop_suffix _ _).isInfix
  · rcases ends with none | ⟨rest', start⟩
    · have short := congrArg List.length same
      rw [none, List.append_nil, List.length_take] at short
      omega
    · have first : (padding.drop i ++ next)[padding.length - i]? = network.messageStart[0]? := by
        rw [List.getElem?_append_right (by omega), rest, Nat.sub_self, start,
          List.getElem?_append_left (by omega)]
      have own : (padding.drop i ++ next)[padding.length - i]? =
          network.messageStart[padding.length - i]? := by
        rw [← same, List.getElem?_take_of_lt (by omega)]
      rw [own] at first
      exact messageStart_apart network _ (by omega) (by omega) first

/-- The same in a file that goes on with the padding at `offset`. -/
theorem no_start_before (content padding next : Bytes) (offset : Nat)
    (left : content.drop offset = padding ++ next)
    (clear : ¬ network.messageStart <:+: padding)
    (ends : next = [] ∨ ∃ rest, next = network.messageStart ++ rest) (p : Nat)
    (least : offset ≤ p) (inside : p < offset + padding.length) :
    (content.drop p).take 4 ≠ network.messageStart := by
  have start := padding_no_start padding next clear ends (p - offset) (by omega)
  rwa [← left, List.drop_drop, Nat.add_sub_of_le least] at start

/-- What lies where a record begins. -/
structure RecordAt (content : Bytes) (record : BlockRecord network) (x : Nat) (next : Bytes) :
    Prop where
  first : content[x]? = some (network.messageStart.headD 0)
  magic : (content.drop x).take 4 = network.messageStart
  size : readLE ((content.drop (x + 4)).take 4) = record.block.1.serializeSize
  block : (content.drop (x + 8)).take record.block.1.write.length = record.block.1.write
  next : content.drop (x + record.bytes.length) = next
  inside : x + record.bytes.length ≤ content.length

theorem record_at (content : Bytes) (record : BlockRecord network) (x : Nat) (next : Bytes)
    (left : content.drop x = record.bytes ++ next) : RecordAt content record x next := by
  have length := messageStart_length network
  have total := bytes_length record
  have sizes := congrArg List.length left
  rw [List.length_drop, List.length_append] at sizes
  have head : network.messageStart[0]? = some (network.messageStart.headD 0) := by
    cases network <;> rfl
  have parts : content.drop x = network.messageStart ++
      (writeLE 4 record.block.1.serializeSize ++ (record.block.1.write ++ next)) := by
    rw [left, BlockRecord.bytes]
    simp only [List.append_assoc]
  have afterMagic : content.drop (x + 4) =
      writeLE 4 record.block.1.serializeSize ++ (record.block.1.write ++ next) := by
    rw [← List.drop_drop, parts, List.drop_left' length]
  have afterSize : content.drop (x + 8) = record.block.1.write ++ next := by
    rw [show x + 8 = x + 4 + 4 by omega, ← List.drop_drop, afterMagic,
      List.drop_left' (writeLE_length _ _)]
  constructor
  case first =>
    have here : (content.drop x)[0]? = content[x]? := by rw [List.getElem?_drop, Nat.add_zero]
    rw [← here, parts, List.getElem?_append_left (by omega), head]
  case magic => rw [parts, List.take_left' length]
  case size =>
    have small := record.small
    have limit : maxBlockSize < 256 ^ 4 := by decide
    rw [afterMagic, List.take_left' (writeLE_length _ _), readLE_writeLE,
      Nat.mod_eq_of_lt (by omega)]
  case block => rw [afterSize, List.take_left]
  case next => rw [← List.drop_drop, left, List.drop_left]
  case inside =>
    by_contra beyond
    omega

/-- The padding before a record, from a later byte on. -/
def BlockRecord.dropPadding (record : BlockRecord network) (k : Nat) : BlockRecord network where
  padding := record.padding.drop k
  block := record.block
  clear inner := record.clear (inner.trans (List.drop_suffix _ _).isInfix)
  small := record.small

theorem small_sized (block : CBlock) (small : block.serializeSize ≤ maxBlockSize) :
    block.Sized := by
  have limit : maxBlockSize ≤ maxSize := by decide
  have transactions : (block.vtx.map CTransaction.serializeSize).sum ≤ maxBlockSize := by
    rw [CBlock.serializeSize] at small
    omega
  have one : ∀ size ∈ block.vtx.map CTransaction.serializeSize, 1 ≤ size := by
    intro size member
    obtain ⟨tx, -, same⟩ := List.mem_map.mp member
    rw [← same, CTransaction.serializeSize]
    omega
  have counted := List.length_le_sum_of_one_le _ one
  rw [List.length_map] at counted
  refine ⟨by omega, fun tx member => transaction_sized tx ?_⟩
  have single : tx.serializeSize ≤ (block.vtx.map CTransaction.serializeSize).sum :=
    List.single_le_sum (fun _ _ => Nat.zero_le _) _ (List.mem_map.mpr ⟨tx, member, rfl⟩)
  omega

namespace BlockScan

open CBufferedFile

variable {σ : Type} {src : SourceFile}

/-- At the head of the loop, over a file in which every position can be reached again. -/
structure Top (src : SourceFile) (s : BlockScan σ) : Prop where
  sound : s.blkdat.Sound src
  ended : EndSeen src s.blkdat
  size : s.blkdat.vchBuf.length = 2 * maxBlockSize
  room : s.blkdat.nRewind = maxBlockSize + 8
  read : s.nRewind ≤ s.blkdat.nSrcPos
  near : s.blkdat.nSrcPos ≤ s.nRewind + (maxBlockSize + 8)
  close : s.blkdat.nReadPos ≤ s.nRewind + 7

theorem start_top (src : SourceFile) (file : src.content.length < 2 ^ 63) (state : σ) :
    Top src (start state) where
  sound := sound_ofSize _ _ (by decide) (by decide) file
  ended indicated := by cases indicated
  size := List.length_replicate
  room := rfl
  read := Nat.le_refl _
  near := Nat.zero_le _
  close := Nat.zero_le _

/-- The file when the search begins. -/
def rewound (s : BlockScan σ) : CBufferedFile :=
  { s.blkdat with nReadPos := s.nRewind, nReadLimit := 2 ^ 64 - 1 }

theorem setPos_back (f : CBufferedFile) (sound : f.Sound src) (nPos : Nat)
    (read : nPos ≤ f.nSrcPos) (near : f.nSrcPos ≤ nPos + f.nRewind) :
    (f.setPos nPos).1 = { f with nReadPos := nPos } := by
  have within := sound.within
  have file := sound.file
  have rewind := sound.rewind
  have buffer := sound.buffer
  rw [(setPos_succeeds f nPos (by omega)).mpr ⟨read, near⟩]

theorem rewound_eq (s : BlockScan σ) (top : Top src s) :
    ((s.blkdat.setPos s.nRewind).1.setLimit (2 ^ 64 - 1)).1 = s.rewound := by
  have near := top.near
  have within := top.sound.within
  have file := top.sound.file
  have read := top.read
  rw [setPos_back s.blkdat top.sound s.nRewind read (by rw [top.room]; exact near), setLimit,
    if_neg (by dsimp only; omega)]
  rfl

theorem rewound_sound (s : BlockScan σ) (top : Top src s) : s.rewound.Sound src := by
  have near := top.near
  have size := top.size
  have limit : maxBlockSize + 8 ≤ 2 * maxBlockSize := by decide
  exact ⟨⟨top.sound.file, top.sound.buffer, top.sound.rewind⟩, top.read, top.sound.within,
    by simp only [rewound]; omega, top.sound.holds⟩

theorem top_after (s : BlockScan σ) (top : Top src s) (f : CBufferedFile) (sound : f.Sound src)
    (forward : Forward src s.rewound f) (size : f.vchBuf.length = s.rewound.vchBuf.length)
    (room : f.nRewind = s.rewound.nRewind) (nRewind : Nat) (state : σ)
    (least : s.nRewind ≤ nRewind) (read : nRewind ≤ f.nReadPos) (close : f.nReadPos ≤ nRewind + 7) :
    Top src ⟨f, nRewind, state⟩ := by
  have ahead := forward.ahead
  have near := top.near
  have whole := top.size
  have back := top.room
  have before := sound.ahead
  have limit : 8 < maxBlockSize := by decide
  simp only [rewound] at ahead size room
  exact {
    sound := sound
    ended := forward.ended top.ended
    size := by rw [size]; exact whole
    room := by rw [room]; exact back
    read := by dsimp only; omega
    near := by dsimp only; omega
    close := close }

variable (messageStart : Bytes) (reach : Nat → Nat) (handle : σ → TypedBlock → Nat → σ × Bool)

/-- The search finds nothing, or it goes on at a later byte, or it finds a header. -/
theorem locate_top (s : BlockScan σ) (top : Top src s) (blkdat : CBufferedFile)
    (nRewind : Nat) (size : Option Nat)
    (located : s.rewound.locate src messageStart = (blkdat, some (nRewind, size))) :
    ∃ p, FoundAt src messageStart s.rewound blkdat p nRewind size ∧
      Top src ⟨blkdat, nRewind, s.state⟩ := by
  have found := locate_located messageStart s.rewound (rewound_sound s top)
  rw [located] at found
  obtain ⟨p, at_p⟩ := found.next nRewind size rfl
  refine ⟨p, at_p, top_after s top blkdat found.sound found.forward found.later.size
    found.later.rewind nRewind s.state ?_ ?_ ?_⟩
  · have least : s.nRewind ≤ p := at_p.least
    have rewind := at_p.rewind
    omega
  · have beyond : p + 4 ≤ blkdat.nReadPos ∧ blkdat.nReadPos ≤ p + 8 := at_p.beyond
    have rewind := at_p.rewind
    omega
  · have beyond : p + 4 ≤ blkdat.nReadPos ∧ blkdat.nReadPos ≤ p + 8 := at_p.beyond
    have rewind := at_p.rewind
    omega

/-- The block behind a header is read, and the loop goes on behind it. -/
theorem readBlock_top (s : BlockScan σ) (top : Top src s) (steady : src.Steady)
    (blkdat : CBufferedFile) (nRewind nSize : Nat)
    (located : s.rewound.locate src messageStart = (blkdat, some (nRewind, some nSize)))
    (block : TypedBlock) (small : block.1.serializeSize ≤ maxBlockSize)
    (sized : nSize = block.1.serializeSize)
    (there : (src.content.drop blkdat.nReadPos).take block.1.write.length = block.1.write)
    (bytes : Nat) :
    ∃ after, ((blkdat.setLimit (addUint64 blkdat.nReadPos nSize)).1.setPos
        blkdat.nReadPos).1.readBlock src bytes = (after, some block) ∧
      after.nReadPos = blkdat.nReadPos + nSize ∧
      ∀ state : σ, Top src ⟨after, after.nReadPos, state⟩ := by
  have found := locate_located messageStart s.rewound (rewound_sound s top)
  rw [located] at found
  obtain ⟨p, at_p⟩ := found.next nRewind (some nSize) rfl
  have least : s.nRewind ≤ p := at_p.least
  have beyond : p + 4 ≤ blkdat.nReadPos ∧ blkdat.nReadPos ≤ p + 8 := at_p.beyond
  have sound : blkdat.Sound src := found.sound
  have room : blkdat.nRewind = maxBlockSize + 8 := found.later.rewind.trans top.room
  have whole : blkdat.vchBuf.length = 2 * maxBlockSize := found.later.size.trans top.size
  have within := sound.within
  have before := sound.ahead
  have file := sound.file
  have ahead : blkdat.nSrcPos ≤ max s.rewound.nSrcPos
    (blkdat.nReadPos + (s.rewound.vchBuf.length - s.rewound.nRewind)) := found.forward.ahead
  have near : s.rewound.nSrcPos ≤ s.nRewind + (maxBlockSize + 8) := top.near
  have room₀ : s.rewound.nRewind = maxBlockSize + 8 := top.room
  have whole₀ : s.rewound.vchBuf.length = 2 * maxBlockSize := top.size
  have limit : 8 < maxBlockSize ∧ maxBlockSize < 2 ^ 32 := by decide
  have length := block_length block.1
  have ended : EndSeen src blkdat := found.forward.ended top.ended
  -- The two calls leave the position and set the limit.
  have ready : ((blkdat.setLimit (addUint64 blkdat.nReadPos nSize)).1.setPos
      blkdat.nReadPos).1 = { blkdat with nReadLimit := blkdat.nReadPos + nSize } := by
    obtain ⟨limited, -⟩ := setLimit_sound blkdat sound (addUint64 blkdat.nReadPos nSize)
    rw [addUint64_small _ _ (by omega)] at limited ⊢
    rw [setLimit, if_neg (by omega)] at limited ⊢
    rw [setPos_back _ limited blkdat.nReadPos before (by dsimp only; omega)]
  have sound' : ({ blkdat with nReadLimit := blkdat.nReadPos + nSize } : CBufferedFile).Sound src :=
    ⟨⟨file, sound.buffer, sound.rewind⟩, before, within, sound.recent, sound.holds⟩
  have read := readBlock_ok _ sound' steady bytes block (small_sized block.1 small)
    (by dsimp only; omega) (by dsimp only; omega) there
  have reads := readBlock_reads _ sound' bytes
  have forward := readBlock_forward _ sound' bytes
  rw [ready]
  revert read reads forward
  rcases ({ blkdat with nReadLimit := blkdat.nReadPos + nSize } : CBufferedFile).readBlock src
    bytes with ⟨after, taken⟩
  intro read reads forward
  have same : taken = some block := read.1
  have position : after.nReadPos = blkdat.nReadPos + block.1.write.length := read.2
  have whole' : after.vchBuf.length = blkdat.vchBuf.length := reads.2.1.size
  have room' : after.nRewind = blkdat.nRewind := reads.2.1.rewind
  have ahead' : after.nSrcPos ≤ max blkdat.nSrcPos
    (after.nReadPos + (blkdat.vchBuf.length - blkdat.nRewind)) := forward.ahead
  refine ⟨after, by rw [same], by omega, fun state => ?_⟩
  exact {
    sound := reads.1
    ended := forward.ended ended
    size := by rw [whole', whole]
    room := by rw [room', room]
    read := reads.1.ahead
    near := by dsimp only; omega
    close := Nat.le_add_right _ _ }

variable {network : Network}

/-- The end of the file is seen behind the last record only. -/
theorem eof_last (s : BlockScan σ) (top : Top src s) (ends : s.blkdat.eof = true)
    (padding : Bytes) (records : List (BlockRecord network))
    (left : src.content.drop s.nRewind = fileBytes padding records) : records = [] := by
  rw [eof, Bool.and_eq_true, beq_iff_eq] at ends
  have source := top.ended ends.2
  have close := top.close
  have length := congrArg List.length left
  cases records with
  | nil => rfl
  | cons record records =>
      have record_length := bytes_length record
      rw [List.length_drop, fileBytes, List.length_append, List.length_append] at length
      omega

/-- A record that is still there is found. -/
theorem locate_last (s : BlockScan σ) (top : Top src s) (steady : src.Steady)
    (none : (s.rewound.locate src network.messageStart).2 = none)
    (padding : Bytes) (records : List (BlockRecord network))
    (left : src.content.drop s.nRewind = fileBytes padding records) : records = [] := by
  cases records with
  | nil => rfl
  | cons record records =>
      have behind : src.content.drop (s.nRewind + record.padding.length) =
          record.bytes ++ fileBytes padding records := by
        rw [← List.drop_drop, left, fileBytes, List.drop_left]
      have there := record_at src.content record _ _ behind
      have inside := there.inside
      have length := bytes_length record
      have size := top.size
      have room := top.room
      have limit : 16 ≤ maxBlockSize := by decide
      refine absurd none (locate_ok network.messageStart s.rewound (rewound_sound s top) steady rfl
        ?_ (s.nRewind + record.padding.length) (Nat.le_add_right _ _) there.first (by omega))
      simp only [rewound]
      omega

/-- What is found and is no record lies in the padding before the next one. -/
theorem refused_before (s : BlockScan σ) (blkdat : CBufferedFile) (p nRewind : Nat)
    (found : FoundAt src network.messageStart s.rewound blkdat p nRewind none)
    (record : BlockRecord network) (next : Bytes)
    (left : src.content.drop (s.nRewind + record.padding.length) = record.bytes ++ next) :
    p < s.nRewind + record.padding.length := by
  have there := record_at src.content record _ _ left
  have small := record.small
  have sized := serializeSize_least record.block.1
  rcases Nat.lt_trichotomy p (s.nRewind + record.padding.length) with before | same | after
  · exact before
  · have refused := found.refused rfl
    rw [same, there.magic, there.size] at refused
    rcases refused with other | short | long
    · exact absurd rfl other
    · omega
    · omega
  · exact absurd there.first (found.first _ (Nat.le_add_right _ _) after)

/-- A header that is found is the next record's. -/
theorem header_next (s : BlockScan σ) (blkdat : CBufferedFile) (p nRewind nSize : Nat)
    (found : FoundAt src network.messageStart s.rewound blkdat p nRewind (some nSize))
    (padding : Bytes) (clear : ¬ network.messageStart <:+: padding)
    (records : List (BlockRecord network))
    (left : src.content.drop s.nRewind = fileBytes padding records) :
    ∃ record rest, records = record :: rest ∧ p = s.nRewind + record.padding.length := by
  have least : s.nRewind ≤ p := found.least
  have magic := (found.header nSize rfl).1
  cases records with
  | nil =>
      have length := congrArg List.length left
      have nonempty := congrArg List.length magic
      rw [List.length_take, List.length_drop, messageStart_length] at nonempty
      rw [fileBytes, List.length_drop] at length
      rw [fileBytes, ← List.append_nil padding] at left
      exact absurd magic (no_start_before src.content padding [] s.nRewind left clear (.inl rfl) p
        least (by omega))
  | cons record rest =>
      refine ⟨record, rest, rfl, ?_⟩
      have behind : src.content.drop (s.nRewind + record.padding.length) =
          record.bytes ++ fileBytes padding rest := by
        rw [← List.drop_drop, left, fileBytes, List.drop_left]
      have there := record_at src.content record _ _ behind
      rcases Nat.lt_trichotomy p (s.nRewind + record.padding.length) with before | same | after
      · refine absurd magic (no_start_before src.content record.padding _ s.nRewind left
          record.clear (.inr ⟨_, List.append_assoc _ _ _⟩) p least before)
      · exact same
      · exact absurd there.first (found.first _ (Nat.le_add_right _ _) after)

/-- The loop hands out the blocks of the records, in their order and with their positions. -/
theorem loop_visits (steady : src.Steady) (padding : Bytes)
    (clear : ¬ network.messageStart <:+: padding) (fuel : Nat) (s : BlockScan σ) (top : Top src s)
    (records : List (BlockRecord network))
    (left : src.content.drop s.nRewind = fileBytes padding records)
    (enough : src.content.length < s.nRewind + fuel) :
    (loop src network.messageStart reach handle fuel s).1 =
      visit handle s.state (placed s.nRewind records) := by
  induction fuel generalizing s padding records with
  | zero =>
      have read := top.read
      have within := top.sound.within
      omega
  | succ fuel ih =>
      rw [loop]
      by_cases ends : s.blkdat.eof = true
      · rw [if_pos ends, eof_last s top ends padding records left]
        rfl
      rw [if_neg ends, rewound_eq s top]
      dsimp only
      generalize located : s.rewound.locate src network.messageStart = result
      rcases result with ⟨blkdat, _ | ⟨nRewind, _ | nSize⟩⟩
      · rw [locate_last s top steady (by rw [located]) padding records left]
        rfl
      · obtain ⟨p, found, top'⟩ := locate_top network.messageStart s top blkdat nRewind none located
        have rewind := found.rewind
        have least : s.nRewind ≤ p := found.least
        have moved : src.content.drop nRewind =
            (src.content.drop s.nRewind).drop (nRewind - s.nRewind) := by
          rw [List.drop_drop, Nat.add_sub_of_le (by omega)]
        rw [left] at moved
        dsimp only
        cases records with
        | nil =>
            exact ih (padding.drop (nRewind - s.nRewind))
              (fun inner => clear (inner.trans (List.drop_suffix _ _).isInfix))
              ⟨blkdat, nRewind, s.state⟩ top' [] moved (by dsimp only; omega)
        | cons record rest =>
            have behind : src.content.drop (s.nRewind + record.padding.length) =
                record.bytes ++ fileBytes padding rest := by
              rw [← List.drop_drop, left, fileBytes, List.drop_left]
            have before := refused_before s blkdat p nRewind found record _ behind
            rw [fileBytes, List.drop_append_of_le_length (by omega)] at moved
            have visits := ih padding clear ⟨blkdat, nRewind, s.state⟩ top'
              (record.dropPadding (nRewind - s.nRewind) :: rest) moved (by dsimp only; omega)
            have offset : nRewind + (record.padding.drop (nRewind - s.nRewind)).length =
                s.nRewind + record.padding.length := by
              rw [List.length_drop]
              omega
            rw [visits]
            simp only [placed, BlockRecord.dropPadding, BlockRecord.bytes, offset]
      · obtain ⟨p, found, -⟩ :=
          locate_top network.messageStart s top blkdat nRewind (some nSize) located
        obtain ⟨record, rest, rfl, same⟩ := header_next s blkdat p nRewind nSize found padding clear
          records left
        obtain ⟨-, position, size⟩ := found.header nSize rfl
        have behind : src.content.drop (s.nRewind + record.padding.length) =
            record.bytes ++ fileBytes padding rest := by
          rw [← List.drop_drop, left, fileBytes, List.drop_left]
        have there := record_at src.content record _ _ behind
        rw [same] at position size
        rw [there.size] at size
        have block := there.block
        rw [← position] at block
        obtain ⟨after, read, forward, tops⟩ := readBlock_top network.messageStart s top steady
          blkdat nRewind nSize located record.block record.small size block (reach blkdat.nReadPos)
        have length := bytes_length record
        dsimp only
        rw [read, placed, visit, position]
        dsimp only
        rcases handle s.state record.block (s.nRewind + record.padding.length + 8) with
          ⟨state, _ | _⟩
        · have next : after.nReadPos =
              s.nRewind + record.padding.length + record.bytes.length := by omega
          have rest_visits := ih padding clear ⟨after, after.nReadPos, state⟩ (tops state) rest
            (by dsimp only; rw [next]; exact there.next) (by dsimp only; omega)
          dsimp only at rest_visits ⊢
          rw [rest_visits, next]
        · rfl

/-- Over a file of records the scan hands out their blocks. -/
theorem scan_visits (file : src.content.length < 2 ^ 63) (steady : src.Steady) (padding : Bytes)
    (clear : ¬ network.messageStart <:+: padding) (records : List (BlockRecord network))
    (content : src.content = fileBytes padding records) (state : σ) :
    (scan src network.messageStart reach handle state).1 =
      visit handle state (placed 0 records) :=
  loop_visits reach handle steady padding clear _ (start state) (start_top src file state) records
    content (by simp [start])

end BlockScan

end RoiCoin
