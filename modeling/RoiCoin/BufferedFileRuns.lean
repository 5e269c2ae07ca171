import RoiCoin.BufferedFile
import RoiCoin.Lib.Runs

/-! Runs over a `CBufferedFile`: what is read is the file, and how far back a run can go. -/

namespace RoiCoin

open Runs

namespace CBufferedFile

inductive FileCall where
  | read (nSize : Nat)
  | setPos (nPos : Nat)
  | setLimit (nPos : Nat)
  | findByte (ch : UInt8)
  deriving DecidableEq, Repr

/-- A buffered file with the furthest position that has been read so far. -/
structure Session where
  file : CBufferedFile
  furthest : Nat

variable (src : SourceFile)

def Session.start (nBufSize nRewindIn : Nat) : Session := ⟨ofSize nBufSize nRewindIn, 0⟩

/-- The object after a call, also after one that throws. -/
def after (f : CBufferedFile) : FileCall → CBufferedFile
  | .read nSize => (f.read src nSize).1
  | .setPos nPos => (f.setPos nPos).1
  | .setLimit nPos => (f.setLimit nPos).1
  | .findByte ch => (f.findByte src ch).1

/-- Only reading moves the furthest position. -/
def Session.call (s : Session) (call : FileCall) : Session :=
  let file := s.file.after src call
  match call with
  | .read _ => ⟨file, max s.furthest file.nReadPos⟩
  | .findByte _ => ⟨file, max s.furthest file.nReadPos⟩
  | _ => ⟨file, s.furthest⟩

/-- The arguments that do not wrap the sums made with them. -/
def Fits (f : CBufferedFile) : FileCall → Prop
  | .read nSize => nSize + f.nReadPos < 2 ^ 64 ∧ nSize + f.nRewind < 2 ^ 64
  | .setPos nPos => nPos + f.nRewind < 2 ^ 64
  | _ => True

/-- What a call that does not throw gives is what the file has at the position. -/
def ExactAt (f : CBufferedFile) : FileCall → Prop
  | .read nSize => ∀ pch, (f.read src nSize).2 = .ok pch →
      pch = (src.content.drop f.nReadPos).take nSize ∧ pch.length = nSize ∧
        (f.read src nSize).1.nReadPos = f.nReadPos + nSize
  | .findByte ch => (f.findByte src ch).2 = .ok () →
      f.nReadPos ≤ (f.findByte src ch).1.nReadPos ∧
        src.content[(f.findByte src ch).1.nReadPos]? = some ch ∧
        ∀ x, f.nReadPos ≤ x → x < (f.findByte src ch).1.nReadPos → src.content[x]? ≠ some ch
  | _ => True

/-- The advertised rewind: every position at most `nRewind` behind the furthest one is reached. -/
def Session.Rewinds (s : Session) : Prop :=
  ∀ nPos, nPos ≤ s.furthest → s.furthest ≤ nPos + s.file.nRewind →
    s.file.setPos nPos = ({ s.file with nReadPos := nPos }, true)

/-- The source has not been read further than what the rewind can go back over. -/
def Session.Near (s : Session) : Prop := s.file.nSrcPos ≤ max s.furthest s.file.nRewind

structure Session.Sound (s : Session) : Prop where
  file : s.file.Sound src
  furthest : s.furthest ≤ s.file.nSrcPos

variable {src}

theorem findByte_finds (f : CBufferedFile) (sound : f.Sound src) (ch : UInt8) :
    Finds src f ch (f.findByte src ch) :=
  findByteLoop_finds ch _ f sound (by omega)

/-- One step: the session stays sound, whatever the call gives. -/
theorem call_sound (s : Session) (sound : s.Sound src) (call : FileCall)
    (fits : s.file.Fits call) : (s.call src call).Sound src := by
  have low := sound.furthest
  cases call with
  | read nSize =>
      have reads := read_reads s.file sound.file nSize fits
      have further := reads.later.source
      have ahead := reads.sound.ahead
      exact ⟨reads.sound, max_le (Nat.le_trans low further) ahead⟩
  | findByte ch =>
      have finds := findByte_finds s.file sound.file ch
      have further := finds.later.source
      have ahead := finds.sound.ahead
      exact ⟨finds.sound, max_le (Nat.le_trans low further) ahead⟩
  | setPos nPos =>
      obtain ⟨moved, later, -⟩ := setPos_sound s.file sound.file nPos fits
      exact ⟨moved, Nat.le_trans low later.source⟩
  | setLimit nPos =>
      obtain ⟨limited, -, source, -⟩ := setLimit_sound s.file sound.file nPos
      refine ⟨limited, ?_⟩
      show s.furthest ≤ (s.file.setLimit nPos).1.nSrcPos
      omega

theorem call_exact (f : CBufferedFile) (sound : f.Sound src) (call : FileCall)
    (fits : f.Fits call) : f.ExactAt src call := by
  cases call with
  | read nSize =>
      intro pch returned
      have reads := read_reads f sound nSize fits
      obtain ⟨position, bytes⟩ := reads.bytes pch returned
      rw [List.nil_append] at bytes
      have ahead := reads.sound.ahead
      have within := reads.sound.within
      refine ⟨bytes, ?_, position⟩
      rw [bytes, List.length_take, List.length_drop]
      omega
  | findByte ch =>
      intro returned
      have finds := findByte_finds f sound ch
      obtain ⟨found, first⟩ := finds.found returned
      exact ⟨finds.forward, found, first⟩
  | setPos nPos => trivial
  | setLimit nPos => trivial

/-- `SetPos` compares with `nSrcPos`, so that the read-ahead counts against the rewind. -/
theorem rewinds_iff (s : Session) (sound : s.Sound src) : s.Rewinds ↔ s.Near := by
  have low := sound.furthest
  have within := sound.file.within
  have file := sound.file.file
  have rewind := sound.file.rewind
  have buffer := sound.file.buffer
  rw [Session.Near]
  constructor
  · intro rewinds
    have least := rewinds (s.furthest - s.file.nRewind) (Nat.sub_le _ _) (by omega)
    rw [setPos_succeeds _ _ (by omega)] at least
    omega
  · intro near nPos most least
    rw [setPos_succeeds _ _ (by omega)]
    omega

/-- Every byte read is the file's, and the advertised rewind holds in exactly those runs in which
the source is never read further than it can go back over. -/
theorem buffered_file_rewinds_iff (src : SourceFile) (nBufSize nRewindIn : Nat)
    (rewind : nRewindIn < nBufSize) (buffer : nBufSize < 2 ^ 32)
    (file : src.content.length < 2 ^ 63) (calls : List FileCall)
    (fits : EachStep (Session.call src) (fun s call => s.file.Fits call)
      (.start nBufSize nRewindIn) calls) :
    (EachStep (Session.call src) (fun s call => s.file.ExactAt src call)
        (.start nBufSize nRewindIn) calls ∧
      Always (Session.call src) Session.Rewinds (.start nBufSize nRewindIn) calls) ↔
      Always (Session.call src) Session.Near (.start nBufSize nRewindIn) calls := by
  have start : (Session.start nBufSize nRewindIn).Sound src :=
    ⟨sound_ofSize nBufSize nRewindIn rewind buffer file, Nat.le_refl _⟩
  revert fits start
  generalize Session.start nBufSize nRewindIn = s
  intro fits start
  induction calls generalizing s with
  | nil => simp only [EachStep, Always, true_and, rewinds_iff s start]
  | cons call rest ih =>
      obtain ⟨fit, others⟩ := fits
      have rest_iff := ih (s.call src call) others (call_sound s start call fit)
      have exact_here := call_exact s.file start.file call fit
      rw [EachStep, Always, Always, rewinds_iff s start]
      tauto

/-- A file of twenty bytes that is read as far as there is room. -/
def twentyBytes : SourceFile := ⟨(List.range 20).map UInt8.ofNat, fun _ => 20⟩

theorem buffered_file_rewinds_iff_near :
    Always (Session.call twentyBytes) Session.Rewinds (.start 8 5)
      [.read 3, .setPos 1, .setLimit 9, .findByte 2] := by
  have near : Always (Session.call twentyBytes) Session.Near (.start 8 5)
      [.read 3, .setPos 1, .setLimit 9, .findByte 2] := by
    simp only [Always, Session.Near]
    decide +kernel
  exact ((buffered_file_rewinds_iff twentyBytes 8 5 (by decide) (by decide) (by decide) _
    (by simp only [EachStep, Fits]; decide +kernel)).mpr near).2

/-- Four bytes are read of a buffer that promises to go back by five, and the position 0 is
refused. -/
theorem rewind_refused :
    ((ofSize 8 5).read twentyBytes 3).2 = .ok [0, 1, 2] ∧
      (((Session.start 8 5).call twentyBytes (.read 3)).file.read twentyBytes 1).2 = .ok [3] ∧
      (run (Session.call twentyBytes) (.start 8 5) [.read 3, .read 1]).furthest = 4 ∧
      ((run (Session.call twentyBytes) (.start 8 5) [.read 3, .read 1]).file.setPos 0).2 = false ∧
      ¬ (run (Session.call twentyBytes) (.start 8 5) [.read 3, .read 1]).Rewinds := by
  have refused :
      ((run (Session.call twentyBytes) (.start 8 5) [.read 3, .read 1]).file.setPos 0).2 = false ∧
        (run (Session.call twentyBytes) (.start 8 5) [.read 3, .read 1]).furthest = 4 ∧
        (run (Session.call twentyBytes) (.start 8 5) [.read 3, .read 1]).file.nRewind = 5 := by
    decide +kernel
  refine ⟨by decide +kernel, by decide +kernel, refused.2.1, refused.1, ?_⟩
  intro rewinds
  have reached := rewinds 0 (Nat.zero_le _) (by omega)
  rw [reached] at refused
  exact absurd refused.1 (by decide)

end CBufferedFile

end RoiCoin
