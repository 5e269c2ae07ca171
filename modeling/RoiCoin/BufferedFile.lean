import RoiCoin.Lib.RingBuffer
import RoiCoin.Script.Script

/-! `CBufferedFile` (`streams.h`): a ring buffer over a file, with room to rewind.

Positions are the values of 64-bit variables, and sums and differences wrap as in the source. -/

namespace RoiCoin

open RingBuffer

/-- `a + b` and `a - b` of `uint64_t`. -/
def addUint64 (a b : Nat) : Nat := (a + b) % 2 ^ 64
def subUint64 (a b : Nat) : Nat := (a + 2 ^ 64 - b) % 2 ^ 64

/-- A value in an `unsigned int`. -/
def toUint32 (a : Nat) : Nat := a % 2 ^ 32

/-- A file, and how many bytes each call of `fread` gives at most. -/
structure SourceFile where
  content : Bytes
  chunk : Nat → Nat

inductive BufferFailure where
  | endOfFile
  | freadFailed
  | pastLimit
  | largerThanBuffer
  /-- The loop never ends. -/
  | unfinished
  deriving DecidableEq, Repr

def BufferFailure.what : BufferFailure → String
  | .endOfFile => "CBufferedFile::Fill: end of file"
  | .freadFailed => "CBufferedFile::Fill: fread failed"
  | .pastLimit => "Read attempted past buffer limit"
  | .largerThanBuffer => "Read larger than buffer size"
  | .unfinished => ""

/-- `freads` counts the calls of `fread`, and `feof` is the end-of-file indicator of `src`. -/
structure CBufferedFile where
  nSrcPos : Nat
  nReadPos : Nat
  nReadLimit : Nat
  nRewind : Nat
  vchBuf : Bytes
  freads : Nat
  feof : Bool
  deriving DecidableEq, Repr

/-- What a call gives, and the object after it, also where the call throws. -/
abbrev Buffered (α : Type) := CBufferedFile × Except BufferFailure α

namespace CBufferedFile

/-- The constructor. -/
def ofSize (nBufSize nRewindIn : Nat) : CBufferedFile :=
  ⟨0, 0, 2 ^ 64 - 1, nRewindIn, List.replicate nBufSize 0, 0, false⟩

variable (src : SourceFile)

/-- `fread` of `readNow` bytes to `&vchBuf[pos]`, and what follows it. -/
def fread (f : CBufferedFile) (pos readNow : Nat) : Buffered Bool :=
  let asked := min readNow (src.chunk f.freads)
  let bytes := (src.content.drop f.nSrcPos).take asked
  let feof := f.feof || decide (src.content.length < f.nSrcPos + asked)
  let f := { f with vchBuf := write f.vchBuf pos bytes, freads := f.freads + 1, feof }
  if bytes.length = 0 then (f, .error (if feof then .endOfFile else .freadFailed))
  else ({ f with nSrcPos := addUint64 f.nSrcPos bytes.length }, .ok true)

def fill (f : CBufferedFile) : Buffered Bool :=
  let size := f.vchBuf.length
  let pos := toUint32 (f.nSrcPos % size)
  let readNow := toUint32 (subUint64 size pos)
  let nAvail := toUint32 (subUint64 (subUint64 size (subUint64 f.nSrcPos f.nReadPos)) f.nRewind)
  let readNow := if nAvail < readNow then nAvail else readNow
  if readNow = 0 then (f, .ok false) else f.fread src pos readNow

def eof (f : CBufferedFile) : Bool := f.nReadPos == f.nSrcPos && f.feof

/-- `if (nReadPos == nSrcPos) Fill();` -/
def fillAtEnd (f : CBufferedFile) : Buffered Bool :=
  if f.nReadPos = f.nSrcPos then f.fill src else (f, .ok true)

/-- `nNow` of a turn of `read`: neither around the end of the buffer nor past what it holds. -/
def bytesNow (f : CBufferedFile) (nSize pos : Nat) : Nat :=
  let nNow :=
    if addUint64 nSize pos > f.vchBuf.length then subUint64 f.vchBuf.length pos else nSize
  if addUint64 nNow f.nReadPos > f.nSrcPos then subUint64 f.nSrcPos f.nReadPos else nNow

/-- The loop of `read`. A turn that reads nothing changes nothing, so that more turns than bytes are
never needed. -/
def readLoop : Nat → CBufferedFile → Nat → Bytes → Buffered Bytes
  | turns, f, nSize, pch =>
      if nSize = 0 then (f, .ok pch)
      else
        match turns with
        | 0 => (f, .error .unfinished)
        | turns + 1 =>
            match f.fillAtEnd src with
            | (f, .error failure) => (f, .error failure)
            | (f, .ok _) =>
                let pos := toUint32 (f.nReadPos % f.vchBuf.length)
                let nNow := f.bytesNow nSize pos
                readLoop turns { f with nReadPos := addUint64 f.nReadPos nNow }
                  (subUint64 nSize nNow) (pch ++ (f.vchBuf.drop pos).take nNow)

def read (f : CBufferedFile) (nSize : Nat) : Buffered Bytes :=
  if addUint64 nSize f.nReadPos > f.nReadLimit then (f, .error .pastLimit)
  else if addUint64 nSize f.nRewind > f.vchBuf.length then (f, .error .largerThanBuffer)
  else readLoop src nSize f nSize []

def setPos (f : CBufferedFile) (nPos : Nat) : CBufferedFile × Bool :=
  if addUint64 nPos f.nRewind < f.nSrcPos then
    ({ f with nReadPos := subUint64 f.nSrcPos f.nRewind }, false)
  else if nPos > f.nSrcPos then ({ f with nReadPos := f.nSrcPos }, false)
  else ({ f with nReadPos := nPos }, true)

def setLimit (f : CBufferedFile) (nPos : Nat) : CBufferedFile × Bool :=
  if nPos < f.nReadPos then (f, false) else ({ f with nReadLimit := nPos }, true)

/-- The loop of `FindByte`; every turn but the last goes on by a byte. -/
def findByteLoop (ch : UInt8) : Nat → CBufferedFile → Buffered Unit
  | 0, f => (f, .error .unfinished)
  | turns + 1, f =>
      match f.fillAtEnd src with
      | (f, .error failure) => (f, .error failure)
      | (f, .ok _) =>
          if f.vchBuf.getD (f.nReadPos % f.vchBuf.length) 0 = ch then (f, .ok ())
          else findByteLoop ch turns { f with nReadPos := addUint64 f.nReadPos 1 }

def findByte (f : CBufferedFile) (ch : UInt8) : Buffered Unit :=
  findByteLoop src ch (src.content.length + 1) f

/-! ## What the buffer holds -/

/-- Sizes that are not truncated: those of a file, and of a buffer in an `unsigned int`. -/
structure Sized (f : CBufferedFile) : Prop where
  file : src.content.length < 2 ^ 63
  buffer : f.vchBuf.length < 2 ^ 32
  rewind : f.nRewind < f.vchBuf.length

/-- The buffer has the bytes of the file from the reading position up to what has been read. -/
structure Sound (f : CBufferedFile) : Prop extends Sized src f where
  ahead : f.nReadPos ≤ f.nSrcPos
  within : f.nSrcPos ≤ src.content.length
  recent : f.nSrcPos ≤ f.nReadPos + f.vchBuf.length
  holds : Holds src.content f.vchBuf f.nSrcPos

variable {src}

theorem addUint64_small (a b : Nat) (small : a + b < 2 ^ 64) : addUint64 a b = a + b :=
  Nat.mod_eq_of_lt small

theorem subUint64_small (a b : Nat) (least : b ≤ a) (small : a < 2 ^ 64) :
    subUint64 a b = a - b := by
  rw [subUint64]
  omega

theorem toUint32_small (a : Nat) (small : a < 2 ^ 32) : toUint32 a = a := Nat.mod_eq_of_lt small

theorem sound_ofSize (nBufSize nRewindIn : Nat) (rewind : nRewindIn < nBufSize)
    (buffer : nBufSize < 2 ^ 32) (file : src.content.length < 2 ^ 63) :
    (ofSize nBufSize nRewindIn).Sound src where
  file := file
  buffer := by simpa [ofSize] using buffer
  rewind := by simpa [ofSize] using rewind
  ahead := Nat.le_refl _
  within := Nat.zero_le _
  recent := Nat.zero_le _
  holds := fun x before => absurd before (Nat.not_lt_zero x)

/-- The reading position moves among the bytes that are held. -/
theorem Sound.move {f : CBufferedFile} (sound : f.Sound src) (nReadPos : Nat)
    (ahead : nReadPos ≤ f.nSrcPos) (recent : f.nSrcPos ≤ nReadPos + f.vchBuf.length) :
    ({ f with nReadPos } : CBufferedFile).Sound src :=
  ⟨⟨sound.file, sound.buffer, sound.rewind⟩, ahead, sound.within, recent, sound.holds⟩

/-- What reading leaves as it is, and how far the source has been read. -/
structure Later (f f' : CBufferedFile) : Prop where
  limit : f'.nReadLimit = f.nReadLimit
  rewind : f'.nRewind = f.nRewind
  size : f'.vchBuf.length = f.vchBuf.length
  source : f.nSrcPos ≤ f'.nSrcPos

theorem Later.refl (f : CBufferedFile) : Later f f := ⟨rfl, rfl, rfl, Nat.le_refl _⟩

theorem Later.trans {f f' f'' : CBufferedFile} (first : Later f f') (second : Later f' f'') :
    Later f f'' :=
  ⟨second.limit.trans first.limit, second.rewind.trans first.rewind,
    second.size.trans first.size, Nat.le_trans first.source second.source⟩

/-- Moving the reading position reads nothing. -/
theorem Later.move {f f' : CBufferedFile} (later : Later f f') (nReadPos : Nat) :
    Later f { f' with nReadPos } := ⟨later.limit, later.rewind, later.size, later.source⟩

/-! ## `Fill` -/

/-- More of the file is held, and where the call returns there is something to read. -/
structure Fills (src : SourceFile) (f : CBufferedFile) (result : Buffered Bool) : Prop where
  sound : result.1.Sound src
  later : Later f result.1
  readPos : result.1.nReadPos = f.nReadPos
  ends : result.2 ≠ .error .unfinished
  more : ∀ done, result.2 = .ok done → result.1.nReadPos < result.1.nSrcPos

theorem Sound.grow {f f' : CBufferedFile} (sound : f.Sound src) (later : Later f f')
    (readPos : f'.nReadPos = f.nReadPos) (within : f'.nSrcPos ≤ src.content.length)
    (recent : f'.nSrcPos ≤ f.nReadPos + f.vchBuf.length)
    (holds : Holds src.content f'.vchBuf f'.nSrcPos) : f'.Sound src where
  file := sound.file
  buffer := later.size ▸ sound.buffer
  rewind := by
    rw [later.size, later.rewind]
    exact sound.rewind
  ahead := readPos ▸ Nat.le_trans sound.ahead later.source
  within := within
  recent := by
    rw [later.size, readPos]
    exact recent
  holds := holds

/-- A call of `fread` extends what is held by the next bytes of the file, or throws. -/
theorem fread_fills (f : CBufferedFile) (sound : f.Sound src) (atEnd : f.nReadPos = f.nSrcPos)
    (readNow : Nat) (fits : f.nSrcPos % f.vchBuf.length + readNow ≤ f.vchBuf.length) :
    Fills src f (f.fread src (f.nSrcPos % f.vchBuf.length) readNow) := by
  have file := sound.file
  generalize chunk : (src.content.drop f.nSrcPos).take (min readNow (src.chunk f.freads)) = bytes
  have size : bytes.length ≤ readNow ∧ f.nSrcPos + bytes.length ≤ src.content.length := by
    have within := sound.within
    rw [← chunk, List.length_take, List.length_drop]
    omega
  have next : ∀ i < bytes.length, bytes[i]? = src.content[f.nSrcPos + i]? := by
    intro i inside
    rw [← chunk, List.length_take] at inside
    rw [← chunk, List.getElem?_take_of_lt (by omega), List.getElem?_drop]
  have holds := holds_write src.content f.vchBuf bytes f.nSrcPos sound.holds next (by omega)
  have length := length_write f.vchBuf (f.nSrcPos % f.vchBuf.length) bytes (by omega)
  rw [fread, chunk]
  dsimp only
  by_cases none : bytes.length = 0
  · rw [if_pos none]
    rw [none, Nat.add_zero] at holds
    have later : Later f { f with
        vchBuf := write f.vchBuf (f.nSrcPos % f.vchBuf.length) bytes
        freads := f.freads + 1
        feof := f.feof ||
          decide (src.content.length < f.nSrcPos + min readNow (src.chunk f.freads)) } :=
      ⟨rfl, rfl, length, Nat.le_refl _⟩
    refine ⟨sound.grow later rfl sound.within sound.recent holds, later, rfl, ?_, by simp⟩
    dsimp only
    split <;> simp
  · rw [if_neg none, addUint64_small _ _ (by omega)]
    have later : Later f { f with
        nSrcPos := f.nSrcPos + bytes.length
        vchBuf := write f.vchBuf (f.nSrcPos % f.vchBuf.length) bytes
        freads := f.freads + 1
        feof := f.feof ||
          decide (src.content.length < f.nSrcPos + min readNow (src.chunk f.freads)) } :=
      ⟨rfl, rfl, length, Nat.le_add_right _ _⟩
    have recent : f.nSrcPos + bytes.length ≤ f.nReadPos + f.vchBuf.length := by omega
    refine ⟨sound.grow later rfl size.2 recent holds, later, rfl, by simp, ?_⟩
    intro _ _
    show f.nReadPos < f.nSrcPos + bytes.length
    omega

/-- At the end of what is held, `Fill` reads up to the end of the buffer and leaves the room to
rewind. -/
theorem fill_readNow (f : CBufferedFile) (sound : f.Sound src) (atEnd : f.nReadPos = f.nSrcPos) :
    ∃ readNow, 0 < readNow ∧ f.nSrcPos % f.vchBuf.length + readNow ≤ f.vchBuf.length ∧
      readNow ≤ f.vchBuf.length - f.nRewind ∧
      f.fill src = f.fread src (f.nSrcPos % f.vchBuf.length) readNow := by
  have buffer := sound.buffer
  have rewind := sound.rewind
  have within := sound.within
  have file := sound.file
  have inside : f.nSrcPos % f.vchBuf.length < f.vchBuf.length := Nat.mod_lt _ (by omega)
  have none_left : subUint64 f.nSrcPos f.nReadPos = 0 := by
    rw [atEnd, subUint64_small _ _ (Nat.le_refl _) (by omega), Nat.sub_self]
  have pos := toUint32_small (f.nSrcPos % f.vchBuf.length) (by omega)
  have left := subUint64_small f.vchBuf.length (f.nSrcPos % f.vchBuf.length) (by omega) (by omega)
  have whole := subUint64_small f.vchBuf.length 0 (Nat.zero_le _) (by omega)
  have avail := subUint64_small f.vchBuf.length f.nRewind (by omega) (by omega)
  simp only [fill, none_left, pos, left, whole, Nat.sub_zero, avail]
  rw [toUint32_small _ (by omega), toUint32_small _ (by omega)]
  split
  · rw [if_neg (by omega)]
    exact ⟨_, by omega, by omega, by omega, rfl⟩
  · rw [if_neg (by omega)]
    exact ⟨_, by omega, by omega, by omega, rfl⟩

theorem fillAtEnd_fills (f : CBufferedFile) (sound : f.Sound src) :
    Fills src f (f.fillAtEnd src) := by
  have ahead := sound.ahead
  rw [fillAtEnd]
  by_cases atEnd : f.nReadPos = f.nSrcPos
  · obtain ⟨readNow, -, fits, -, filled⟩ := fill_readNow f sound atEnd
    rw [if_pos atEnd, filled]
    exact fread_fills f sound atEnd readNow fits
  · rw [if_neg atEnd]
    exact ⟨sound, Later.refl f, rfl, by simp, fun _ _ => by dsimp only; omega⟩

/-! ## Reading -/

/-- One turn of the loop of `read`: how many bytes it copies. -/
theorem read_turn (f : CBufferedFile) (sound : f.Sound src) (more : f.nReadPos < f.nSrcPos)
    (nSize : Nat) (positive : 0 < nSize) (small : nSize ≤ f.vchBuf.length) :
    ∃ nNow, 0 < nNow ∧ nNow ≤ nSize ∧ f.nReadPos + nNow ≤ f.nSrcPos ∧
      f.nReadPos % f.vchBuf.length + nNow ≤ f.vchBuf.length ∧
      f.bytesNow nSize (f.nReadPos % f.vchBuf.length) = nNow := by
  have buffer := sound.buffer
  have rewind := sound.rewind
  have within := sound.within
  have file := sound.file
  have inside : f.nReadPos % f.vchBuf.length < f.vchBuf.length := Nat.mod_lt _ (by omega)
  have sum := addUint64_small nSize (f.nReadPos % f.vchBuf.length) (by omega)
  have left := subUint64_small f.vchBuf.length (f.nReadPos % f.vchBuf.length) (by omega) (by omega)
  have held := subUint64_small f.nSrcPos f.nReadPos (by omega) (by omega)
  simp only [bytesNow, sum, left, held]
  split
  · rw [addUint64_small _ _ (by omega)]
    split
    · exact ⟨_, by omega, by omega, by omega, by omega, rfl⟩
    · exact ⟨_, by omega, by omega, by omega, by omega, rfl⟩
  · rw [addUint64_small _ _ (by omega)]
    split
    · exact ⟨_, by omega, by omega, by omega, by omega, rfl⟩
    · exact ⟨_, by omega, by omega, by omega, by omega, rfl⟩

/-- The bytes read are those of the file from the position on. -/
structure Reads (src : SourceFile) (f : CBufferedFile) (nSize : Nat) (pch : Bytes)
    (result : Buffered Bytes) : Prop where
  sound : result.1.Sound src
  later : Later f result.1
  forward : f.nReadPos ≤ result.1.nReadPos
  ends : result.2 ≠ .error .unfinished
  bytes : ∀ read, result.2 = .ok read → result.1.nReadPos = f.nReadPos + nSize ∧
    read = pch ++ (src.content.drop f.nReadPos).take nSize

theorem readLoop_reads (turns : Nat) (f : CBufferedFile) (sound : f.Sound src) (nSize : Nat)
    (pch : Bytes) (enough : nSize ≤ turns) (small : nSize ≤ f.vchBuf.length) :
    Reads src f nSize pch (readLoop src turns f nSize pch) := by
  induction turns generalizing f nSize pch with
  | zero =>
      have nothing : nSize = 0 := by omega
      rw [nothing, readLoop, if_pos rfl]
      exact ⟨sound, Later.refl f, Nat.le_refl _, by simp, by simp⟩
  | succ turns ih =>
      rw [readLoop]
      by_cases nothing : nSize = 0
      · rw [if_pos nothing, nothing]
        exact ⟨sound, Later.refl f, Nat.le_refl _, by simp, by simp⟩
      · rw [if_neg nothing]
        dsimp only
        have filled := fillAtEnd_fills f sound
        revert filled
        rcases f.fillAtEnd src with ⟨f', failure | done⟩
        · intro filled
          exact ⟨filled.sound, filled.later, Nat.le_of_eq filled.readPos.symm,
            fun same => filled.ends (by simpa using same), by simp⟩
        · intro filled
          obtain ⟨readPos, sound', later⟩ := (⟨filled.readPos, filled.sound, filled.later⟩ :
            f'.nReadPos = f.nReadPos ∧ f'.Sound src ∧ Later f f')
          have size := later.size
          obtain ⟨nNow, positive, part, held, fits, now⟩ := read_turn f' sound'
            (filled.more done rfl) nSize (by omega) (by omega)
          have buffer := sound'.buffer
          have file := sound'.file
          have recent := sound'.recent
          have within := sound'.within
          have inside : f'.nReadPos % f'.vchBuf.length < f'.vchBuf.length :=
            Nat.mod_lt _ (by omega)
          have copied := holds_read src.content f'.vchBuf f'.nSrcPos f'.nReadPos nNow sound'.holds
            recent held fits
          dsimp only
          rw [toUint32_small _ (by omega), now, addUint64_small _ _ (by omega),
            subUint64_small _ _ part (by omega), copied, readPos]
          have next := ih { f' with nReadPos := f'.nReadPos + nNow }
            (sound'.move _ held (by omega)) (nSize - nNow)
            (pch ++ (src.content.drop f'.nReadPos).take nNow) (by omega) (by dsimp only; omega)
          rw [readPos] at next
          refine ⟨next.sound, later.trans ⟨next.later.limit, next.later.rewind, next.later.size,
            next.later.source⟩, ?_, next.ends, ?_⟩
          · exact Nat.le_trans (Nat.le_add_right _ _) next.forward
          · intro bytes returned
            obtain ⟨position, whole⟩ := next.bytes bytes returned
            dsimp only at position whole
            refine ⟨by omega, ?_⟩
            have joined : (src.content.drop f.nReadPos).take nSize =
                (src.content.drop f.nReadPos).take nNow ++
                  (src.content.drop (f.nReadPos + nNow)).take (nSize - nNow) := by
              rw [← List.drop_drop, ← List.take_add, Nat.add_sub_cancel' part]
            rw [whole, joined, List.append_assoc]

theorem read_reads (f : CBufferedFile) (sound : f.Sound src) (nSize : Nat)
    (fits : nSize + f.nReadPos < 2 ^ 64 ∧ nSize + f.nRewind < 2 ^ 64) :
    Reads src f nSize [] (f.read src nSize) := by
  rw [read, addUint64_small _ _ fits.1, addUint64_small _ _ fits.2]
  split
  · exact ⟨sound, Later.refl f, Nat.le_refl _, by simp, by simp⟩
  · split
    · exact ⟨sound, Later.refl f, Nat.le_refl _, by simp, by simp⟩
    · exact readLoop_reads nSize f sound nSize [] (Nat.le_refl _) (by omega)

/-! ## Moving -/

theorem setPos_sound (f : CBufferedFile) (sound : f.Sound src) (nPos : Nat)
    (fits : nPos + f.nRewind < 2 ^ 64) :
    (f.setPos nPos).1.Sound src ∧ Later f (f.setPos nPos).1 ∧
      (f.setPos nPos).1.nSrcPos = f.nSrcPos := by
  have rewind := sound.rewind
  have within := sound.within
  have file := sound.file
  rw [setPos, addUint64_small _ _ fits]
  split
  · rw [subUint64_small _ _ (by omega) (by omega)]
    exact ⟨sound.move _ (by omega) (by omega), (Later.refl f).move _, rfl⟩
  · split
    · exact ⟨sound.move _ (Nat.le_refl _) (Nat.le_add_right _ _), (Later.refl f).move _, rfl⟩
    · exact ⟨sound.move _ (by omega) (by omega), (Later.refl f).move _, rfl⟩

/-- A position is reached if it has been read from the source, and the source not further than the
room to rewind beyond it. -/
theorem setPos_succeeds (f : CBufferedFile) (nPos : Nat) (fits : nPos + f.nRewind < 2 ^ 64) :
    f.setPos nPos = ({ f with nReadPos := nPos }, true) ↔
      nPos ≤ f.nSrcPos ∧ f.nSrcPos ≤ nPos + f.nRewind := by
  rw [setPos, addUint64_small _ _ fits]
  split
  · simp only [Prod.mk.injEq, Bool.false_eq_true, and_false, false_iff]
    omega
  · split
    · simp only [Prod.mk.injEq, Bool.false_eq_true, and_false, false_iff]
      omega
    · simp only [true_iff]
      omega

theorem setLimit_sound (f : CBufferedFile) (sound : f.Sound src) (nPos : Nat) :
    (f.setLimit nPos).1.Sound src ∧ (f.setLimit nPos).1.nReadPos = f.nReadPos ∧
      (f.setLimit nPos).1.nSrcPos = f.nSrcPos ∧ (f.setLimit nPos).1.nRewind = f.nRewind := by
  rw [setLimit]
  split
  · exact ⟨sound, rfl, rfl, rfl⟩
  · exact ⟨⟨⟨sound.file, sound.buffer, sound.rewind⟩, sound.ahead, sound.within, sound.recent,
      sound.holds⟩, rfl, rfl, rfl⟩

/-! ## `FindByte` -/

/-- The byte found is the first of its kind from the position on. -/
structure Finds (src : SourceFile) (f : CBufferedFile) (ch : UInt8) (result : Buffered Unit) :
    Prop where
  sound : result.1.Sound src
  later : Later f result.1
  forward : f.nReadPos ≤ result.1.nReadPos
  ends : result.2 ≠ .error .unfinished
  found : result.2 = .ok () → src.content[result.1.nReadPos]? = some ch ∧
    ∀ x, f.nReadPos ≤ x → x < result.1.nReadPos → src.content[x]? ≠ some ch

theorem findByteLoop_finds (ch : UInt8) (turns : Nat) (f : CBufferedFile) (sound : f.Sound src)
    (enough : src.content.length < f.nReadPos + turns) :
    Finds src f ch (findByteLoop src ch turns f) := by
  induction turns generalizing f with
  | zero =>
      have ahead := sound.ahead
      have within := sound.within
      omega
  | succ turns ih =>
      rw [findByteLoop]
      have filled := fillAtEnd_fills f sound
      revert filled
      rcases f.fillAtEnd src with ⟨f', failure | done⟩
      · intro filled
        exact ⟨filled.sound, filled.later, Nat.le_of_eq filled.readPos.symm,
          fun same => filled.ends (by simpa using same), by simp⟩
      · intro filled
        obtain ⟨readPos, sound', later⟩ := (⟨filled.readPos, filled.sound, filled.later⟩ :
          f'.nReadPos = f.nReadPos ∧ f'.Sound src ∧ Later f f')
        have more : f'.nReadPos < f'.nSrcPos := filled.more done rfl
        have recent := sound'.recent
        have within := sound'.within
        have file := sound'.file
        have byte : f'.vchBuf[f'.nReadPos % f'.vchBuf.length]? = src.content[f'.nReadPos]? :=
          sound'.holds f'.nReadPos more recent
        have there : src.content[f'.nReadPos]? = some src.content[f'.nReadPos] :=
          List.getElem?_eq_getElem (by omega)
        dsimp only
        rw [List.getD_eq_getElem?_getD, byte, there, Option.getD_some]
        by_cases same : src.content[f'.nReadPos] = ch
        · rw [if_pos same]
          refine ⟨sound', later, Nat.le_of_eq readPos.symm, by simp, fun _ => ⟨?_, ?_⟩⟩
          · rw [there, same]
          · intro x least most
            dsimp only at most
            omega
        · rw [if_neg same, addUint64_small _ _ (by omega)]
          have next := ih { f' with nReadPos := f'.nReadPos + 1 }
            (sound'.move _ (by omega) (by omega)) (by dsimp only; omega)
          refine ⟨next.sound, later.trans ⟨next.later.limit, next.later.rewind, next.later.size,
            next.later.source⟩, ?_, next.ends, ?_⟩
          · have forward := next.forward
            dsimp only at forward
            omega
          · intro returned
            obtain ⟨found, none⟩ := next.found returned
            refine ⟨found, ?_⟩
            intro x least most
            by_cases here : x = f'.nReadPos
            · rw [here, there]
              exact fun equal => same (Option.some.inj equal)
            · exact none x (by dsimp only; omega) most

end CBufferedFile

/-! ## When reading succeeds

How far the source is read ahead, and that nothing else stops a reader. -/

/-- Every call of `fread` gives something until the end of the file. -/
def SourceFile.Steady (src : SourceFile) : Prop := ∀ n, 0 < src.chunk n

namespace CBufferedFile

variable {src : SourceFile}

/-- The end-of-file indicator is set at the end only. -/
def EndSeen (src : SourceFile) (f : CBufferedFile) : Prop :=
  f.feof = true → f.nSrcPos = src.content.length

/-- What reading leaves true: the indicator, and that the source is read at most the rest of the
buffer beyond the reading position. -/
structure Forward (src : SourceFile) (f f' : CBufferedFile) : Prop where
  ended : EndSeen src f → EndSeen src f'
  forward : f.nReadPos ≤ f'.nReadPos
  ahead : f'.nSrcPos ≤ max f.nSrcPos (f'.nReadPos + (f.vchBuf.length - f.nRewind))

theorem Forward.refl (f : CBufferedFile) : Forward src f f :=
  ⟨id, Nat.le_refl _, Nat.le_max_left _ _⟩

theorem Forward.trans {f f' f'' : CBufferedFile} (first : Forward src f f') (later : Later f f')
    (second : Forward src f' f'') : Forward src f f'' where
  ended ends := second.ended (first.ended ends)
  forward := Nat.le_trans first.forward second.forward
  ahead := by
    have near := first.ahead
    have far := second.ahead
    have forward := second.forward
    rw [later.size, later.rewind] at far
    omega

/-- The reading position moves on. -/
theorem Forward.move {f f' : CBufferedFile} (forward : Forward src f f') (nReadPos : Nat)
    (further : f'.nReadPos ≤ nReadPos) : Forward src f { f' with nReadPos } where
  ended := forward.ended
  forward := Nat.le_trans forward.forward further
  ahead := by
    have near := forward.ahead
    dsimp only
    omega

/-! ## `Fill` -/

/-- What a call of `fread` has read. -/
theorem fread_read (f : CBufferedFile) (sound : f.Sound src) (pos readNow : Nat) :
    ∃ count, count = min (min readNow (src.chunk f.freads)) (src.content.length - f.nSrcPos) ∧
      (f.fread src pos readNow).1.nSrcPos = f.nSrcPos + count ∧
      (f.fread src pos readNow).1.nReadPos = f.nReadPos ∧
      ((f.fread src pos readNow).1.feof = true → f.feof = true ∨
        src.content.length < f.nSrcPos + min readNow (src.chunk f.freads)) ∧
      (0 < count → (f.fread src pos readNow).2 = .ok true) := by
  have within := sound.within
  have file := sound.file
  generalize chunk : (src.content.drop f.nSrcPos).take (min readNow (src.chunk f.freads)) = bytes
  have size : bytes.length =
      min (min readNow (src.chunk f.freads)) (src.content.length - f.nSrcPos) := by
    rw [← chunk, List.length_take, List.length_drop]
  refine ⟨bytes.length, size, ?_⟩
  rw [fread, chunk]
  dsimp only
  by_cases none : bytes.length = 0
  · rw [if_pos none]
    refine ⟨by dsimp only; omega, rfl, ?_, fun some => absurd some (by omega)⟩
    intro ends
    simpa using ends
  · rw [if_neg none, addUint64_small _ _ (by omega)]
    refine ⟨rfl, rfl, ?_, fun _ => rfl⟩
    intro ends
    simpa using ends

theorem fillAtEnd_forward (f : CBufferedFile) (sound : f.Sound src) :
    Forward src f (f.fillAtEnd src).1 := by
  have within := sound.within
  rw [fillAtEnd]
  by_cases atEnd : f.nReadPos = f.nSrcPos
  · obtain ⟨readNow, -, -, room, filled⟩ := fill_readNow f sound atEnd
    obtain ⟨count, counted, source, position, ends, -⟩ :=
      fread_read f sound (f.nSrcPos % f.vchBuf.length) readNow
    rw [if_pos atEnd, filled]
    constructor
    case ended =>
      intro before indicated
      rw [source]
      rcases ends indicated with already | short
      · have here := before already
        omega
      · omega
    case forward => exact Nat.le_of_eq position.symm
    case ahead =>
      rw [source, position]
      omega
  · rw [if_neg atEnd]
    exact Forward.refl f

/-- Before the end of the file there is something to read. -/
theorem fillAtEnd_ok (f : CBufferedFile) (sound : f.Sound src) (steady : src.Steady)
    (more : f.nReadPos < src.content.length) : ∃ done, (f.fillAtEnd src).2 = .ok done := by
  rw [fillAtEnd]
  by_cases atEnd : f.nReadPos = f.nSrcPos
  · obtain ⟨readNow, some, -, -, filled⟩ := fill_readNow f sound atEnd
    obtain ⟨count, counted, -, -, -, read⟩ :=
      fread_read f sound (f.nSrcPos % f.vchBuf.length) readNow
    have chunk := steady f.freads
    rw [if_pos atEnd, filled]
    exact ⟨true, read (by omega)⟩
  · rw [if_neg atEnd]
    exact ⟨true, rfl⟩

/-! ## `read` -/

theorem readLoop_forward (turns : Nat) (f : CBufferedFile) (sound : f.Sound src) (nSize : Nat)
    (pch : Bytes) (small : nSize ≤ f.vchBuf.length) :
    Forward src f (readLoop src turns f nSize pch).1 := by
  induction turns generalizing f nSize pch with
  | zero =>
      rw [readLoop]
      split <;> exact Forward.refl f
  | succ turns ih =>
      rw [readLoop]
      by_cases nothing : nSize = 0
      · rw [if_pos nothing]
        exact Forward.refl f
      · rw [if_neg nothing]
        dsimp only
        have filled := fillAtEnd_fills f sound
        have forward := fillAtEnd_forward f sound
        revert filled forward
        rcases f.fillAtEnd src with ⟨f', failure | done⟩
        · exact fun _ forward => forward
        · intro filled forward
          have sound' : f'.Sound src := filled.sound
          have later : Later f f' := filled.later
          have size := later.size
          have more : f'.nReadPos < f'.nSrcPos := filled.more done rfl
          obtain ⟨nNow, positive, part, held, -, now⟩ :=
            read_turn f' sound' more nSize (by omega) (by omega)
          have within := sound'.within
          have file := sound'.file
          have buffer := sound'.buffer
          have recent := sound'.recent
          have rewind := sound'.rewind
          have inside : f'.nReadPos % f'.vchBuf.length < f'.vchBuf.length :=
            Nat.mod_lt _ (by omega)
          dsimp only
          rw [toUint32_small _ (by omega), now, addUint64_small _ _ (by omega),
            subUint64_small _ _ part (by omega)]
          have moved := forward.move (f'.nReadPos + nNow) (Nat.le_add_right _ _)
          have rest := ih { f' with nReadPos := f'.nReadPos + nNow }
            (sound'.move _ held (by omega)) (nSize - nNow)
            (pch ++ (f'.vchBuf.drop (f'.nReadPos % f'.vchBuf.length)).take nNow)
            (by dsimp only; omega)
          exact moved.trans (later.move _) rest

theorem read_forward (f : CBufferedFile) (sound : f.Sound src) (nSize : Nat)
    (fits : nSize + f.nRewind < 2 ^ 64) : Forward src f (f.read src nSize).1 := by
  rw [read, addUint64_small nSize f.nRewind fits]
  split
  · exact Forward.refl f
  · split
    · exact Forward.refl f
    · exact readLoop_forward nSize f sound nSize [] (by omega)

theorem readLoop_ok (turns : Nat) (f : CBufferedFile) (sound : f.Sound src) (steady : src.Steady)
    (nSize : Nat) (pch : Bytes) (enough : nSize ≤ turns) (small : nSize ≤ f.vchBuf.length)
    (whole : f.nReadPos + nSize ≤ src.content.length) :
    ∃ bytes, (readLoop src turns f nSize pch).2 = .ok bytes := by
  induction turns generalizing f nSize pch with
  | zero =>
      rw [readLoop, if_pos (by omega)]
      exact ⟨pch, rfl⟩
  | succ turns ih =>
      rw [readLoop]
      by_cases nothing : nSize = 0
      · rw [if_pos nothing]
        exact ⟨pch, rfl⟩
      · rw [if_neg nothing]
        dsimp only
        have filled := fillAtEnd_fills f sound
        have goes := fillAtEnd_ok f sound steady (by omega)
        revert filled goes
        rcases f.fillAtEnd src with ⟨f', failure | done⟩
        · intro _ goes
          obtain ⟨done, failed⟩ := goes
          cases failed
        · intro filled _
          have sound' : f'.Sound src := filled.sound
          have readPos : f'.nReadPos = f.nReadPos := filled.readPos
          have size : f'.vchBuf.length = f.vchBuf.length := filled.later.size
          have more : f'.nReadPos < f'.nSrcPos := filled.more done rfl
          obtain ⟨nNow, positive, part, held, -, now⟩ :=
            read_turn f' sound' more nSize (by omega) (by omega)
          have within := sound'.within
          have file := sound'.file
          have buffer := sound'.buffer
          have recent := sound'.recent
          have rewind := sound'.rewind
          have inside : f'.nReadPos % f'.vchBuf.length < f'.vchBuf.length :=
            Nat.mod_lt _ (by omega)
          dsimp only
          rw [toUint32_small _ (by omega), now, addUint64_small _ _ (by omega),
            subUint64_small _ _ part (by omega)]
          exact ih { f' with nReadPos := f'.nReadPos + nNow } (sound'.move _ held (by omega))
            (nSize - nNow) _ (by omega) (by dsimp only; omega) (by dsimp only; omega)

/-- Bytes that are there are read. -/
theorem read_ok (f : CBufferedFile) (sound : f.Sound src) (steady : src.Steady) (nSize : Nat)
    (limit : nSize + f.nReadPos ≤ f.nReadLimit) (room : nSize + f.nRewind ≤ f.vchBuf.length)
    (whole : f.nReadPos + nSize ≤ src.content.length) :
    (f.read src nSize).2 = .ok ((src.content.drop f.nReadPos).take nSize) ∧
      (f.read src nSize).1.nReadPos = f.nReadPos + nSize := by
  have file := sound.file
  have buffer := sound.buffer
  have loop := readLoop_ok nSize f sound steady nSize [] (Nat.le_refl _) (by omega) whole
  have reads := read_reads f sound nSize (by omega)
  have same : f.read src nSize = readLoop src nSize f nSize [] := by
    rw [read, addUint64_small _ _ (by omega), if_neg (by omega), addUint64_small _ _ (by omega),
      if_neg (by omega)]
  obtain ⟨bytes, done⟩ := loop
  rw [← same] at done
  obtain ⟨position, content⟩ := reads.bytes bytes done
  rw [done, content]
  exact ⟨rfl, position⟩

/-! ## `FindByte` -/

theorem findByteLoop_forward (ch : UInt8) (turns : Nat) (f : CBufferedFile) (sound : f.Sound src) :
    Forward src f (findByteLoop src ch turns f).1 := by
  induction turns generalizing f with
  | zero => exact Forward.refl f
  | succ turns ih =>
      rw [findByteLoop]
      have filled := fillAtEnd_fills f sound
      have forward := fillAtEnd_forward f sound
      revert filled forward
      rcases f.fillAtEnd src with ⟨f', failure | done⟩
      · exact fun _ forward => forward
      · intro filled forward
        have sound' : f'.Sound src := filled.sound
        have more : f'.nReadPos < f'.nSrcPos := filled.more done rfl
        have recent := sound'.recent
        have within := sound'.within
        have file := sound'.file
        dsimp only
        split
        · exact forward
        · rw [addUint64_small _ _ (by omega)]
          have moved := forward.move (f'.nReadPos + 1) (Nat.le_add_right _ _)
          have rest := ih { f' with nReadPos := f'.nReadPos + 1 }
            (sound'.move _ (by omega) (by omega))
          exact moved.trans (filled.later.move _) rest

theorem findByteLoop_ok (ch : UInt8) (turns : Nat) (f : CBufferedFile) (sound : f.Sound src)
    (steady : src.Steady) (x : Nat) (least : f.nReadPos ≤ x) (enough : x < f.nReadPos + turns)
    (there : src.content[x]? = some ch) : (findByteLoop src ch turns f).2 = .ok () := by
  have inside : x < src.content.length := (List.getElem?_eq_some_iff.mp there).1
  induction turns generalizing f with
  | zero => omega
  | succ turns ih =>
      rw [findByteLoop]
      have filled := fillAtEnd_fills f sound
      have goes := fillAtEnd_ok f sound steady (by omega)
      revert filled goes
      rcases f.fillAtEnd src with ⟨f', failure | done⟩
      · intro _ goes
        obtain ⟨done, failed⟩ := goes
        cases failed
      · intro filled _
        have sound' : f'.Sound src := filled.sound
        have readPos : f'.nReadPos = f.nReadPos := filled.readPos
        have more : f'.nReadPos < f'.nSrcPos := filled.more done rfl
        have recent := sound'.recent
        have within := sound'.within
        have file := sound'.file
        have byte : f'.vchBuf[f'.nReadPos % f'.vchBuf.length]? = src.content[f'.nReadPos]? :=
          sound'.holds f'.nReadPos more recent
        dsimp only
        split
        · rfl
        · rename_i other
          have further : f'.nReadPos ≠ x := by
            intro here
            rw [List.getD_eq_getElem?_getD, byte, here, there] at other
            exact other rfl
          rw [addUint64_small _ _ (by omega)]
          exact ih { f' with nReadPos := f'.nReadPos + 1 } (sound'.move _ (by omega) (by omega))
            (by dsimp only; omega) (by dsimp only; omega)

theorem findByte_forward (f : CBufferedFile) (sound : f.Sound src) (ch : UInt8) :
    Forward src f (f.findByte src ch).1 := findByteLoop_forward ch _ f sound

/-- A byte that is there is found. -/
theorem findByte_ok (f : CBufferedFile) (sound : f.Sound src) (steady : src.Steady) (ch : UInt8)
    (x : Nat) (least : f.nReadPos ≤ x) (there : src.content[x]? = some ch) :
    (f.findByte src ch).2 = .ok () := by
  have inside : x < src.content.length := (List.getElem?_eq_some_iff.mp there).1
  exact findByteLoop_ok ch _ f sound steady x least (by omega) there

end CBufferedFile

end RoiCoin
