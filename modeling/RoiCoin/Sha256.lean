import RoiCoin.Lib.Blocks
import RoiCoin.Lib.RingBuffer
import RoiCoin.Serialize

/-! The streaming hash `CSHA256` (`crypto/sha256.cpp`).

The compression of a 64-byte block is a parameter. `size_t` and `uint64_t` have 64 bits. Writing
gives nothing where it would go past the buffer. -/

namespace RoiCoin

/-- The words `s[0]` to `s[7]`. -/
abbrev Sha256Words := Vector (BitVec 32) 8

structure CSHA256 where
  s : Sha256Words
  buf : Bytes
  bytes : Nat
  deriving DecidableEq

/-- `sha256::Transform` -/
abbrev Transform := Sha256Words → Bytes → Sha256Words

def sha256Initialize : Sha256Words :=
  #v[0x6a09e667, 0xbb67ae85, 0x3c6ef372, 0xa54ff53a, 0x510e527f, 0x9b05688c, 0x1f83d9ab, 0x5be0cd19]

/-- `WriteBE32`, `WriteBE64` -/
def writeBE (count value : Nat) : Bytes := (writeLE count value).reverse

namespace CSHA256

/-- The constructor; the buffer has whatever the memory has. -/
def init (memory : Vector UInt8 64) : CSHA256 := ⟨sha256Initialize, memory.toList, 0⟩

/-- `memcpy(buf + bufsize, data, len)` -/
def memcpy (st : CSHA256) (bufsize : Nat) (data : Bytes) : Option CSHA256 :=
  if bufsize + data.length ≤ 64 then
    some { st with
      buf := RingBuffer.write st.buf bufsize data
      bytes := (st.bytes + data.length) % 2 ^ 64 }
  else none

variable (transform : Transform)

/-- Fill the buffer, and process it. -/
def fill (st : CSHA256) (bufsize : Nat) (data : Bytes) : Option CSHA256 := do
  let st ← st.memcpy bufsize (data.take (64 - bufsize))
  return { st with s := transform st.s st.buf }

/-- Process full chunks directly from the source. -/
def chunks (st : CSHA256) (data : Bytes) : CSHA256 × Bytes :=
  if 64 ≤ data.length then
    chunks { st with s := transform st.s (data.take 64), bytes := (st.bytes + 64) % 2 ^ 64 }
      (data.drop 64)
  else (st, data)
termination_by data.length
decreasing_by
  rw [List.length_drop]
  omega

/-- What `Write` does after the buffer was processed. -/
def writeRest (st : CSHA256) (bufsize : Nat) (data : Bytes) : Option CSHA256 :=
  let full := st.chunks transform data
  if full.2 ≠ [] then full.1.memcpy bufsize full.2 else some full.1

def write (st : CSHA256) (data : Bytes) : Option CSHA256 :=
  let bufsize := st.bytes % 64
  if bufsize ≠ 0 ∧ (bufsize + data.length) % 2 ^ 64 ≥ 64 then do
    let st ← st.fill transform bufsize data
    st.writeRest transform 0 (data.drop (64 - bufsize))
  else st.writeRest transform bufsize data

/-- The array `pad`. -/
def pad : Bytes := 0x80 :: List.replicate 63 0

def finalize (st : CSHA256) : Option Bytes := do
  let sizedesc := writeBE 8 (st.bytes * 2 ^ 3 % 2 ^ 64)
  let st ← st.write transform (pad.take (1 + (119 - st.bytes % 64) % 64))
  let st ← st.write transform sizedesc
  return st.s.toList.flatMap fun word => writeBE 4 word.toNat

/-- A sequence of calls of `Write`. -/
def writes (st : CSHA256) (cuts : List Bytes) : Option CSHA256 :=
  cuts.foldlM (fun st data => st.write transform data) st

end CSHA256

/-! ## The standard -/

/-- The number of zero bytes: the least that makes whole blocks with the bytes around it. -/
def paddingZeros (length : Nat) : Nat := (64 - (length + 1 + 8) % 64) % 64

/-- A one bit, zeros and the length in bits as a 64-bit number. -/
def paddedMessage (message : Bytes) : Bytes :=
  message ++ [0x80] ++ List.replicate (paddingZeros message.length) 0 ++
    writeBE 8 (8 * message.length)

def sha256 (transform : Transform) (message : Bytes) : Bytes :=
  ((Blocks.blocksOf 64 (paddedMessage message)).foldl transform sha256Initialize).toList.flatMap
    fun word => writeBE 4 word.toNat

theorem paddingZeros_least (length zeros : Nat) :
    (length + 1 + paddingZeros length + 8) % 64 = 0 ∧
      ((length + 1 + zeros + 8) % 64 = 0 → paddingZeros length ≤ zeros) := by
  rw [paddingZeros]
  constructor
  · omega
  · intro whole
    omega

namespace CSHA256

/-! ## The stream so far -/

/-- The state after the bytes of a message, wherever they were cut. -/
structure Keeps (transform : Transform) (st : CSHA256) (message : Bytes) : Prop where
  counted : st.bytes = message.length
  room : st.buf.length = 64
  streamed : ∃ rest, Blocks.Streamed 64 transform sha256Initialize message st.s rest ∧
    st.buf.take rest.length = rest

variable {transform : Transform}

theorem keeps_init (memory : Vector UInt8 64) : (init memory).Keeps transform [] where
  counted := rfl
  room := by simp [init]
  streamed := ⟨[], Blocks.streamed_nil 64 transform sha256Initialize (by decide), rfl⟩

theorem buffered (buf rest data : Bytes) (held : buf.take rest.length = rest) :
    (RingBuffer.write buf rest.length data).take (rest.length + data.length) = rest ++ data := by
  rw [RingBuffer.write, held]
  apply List.take_left'
  rw [List.length_append]

/-- What remains is kept in the buffer. -/
theorem memcpy_keeps (st : CSHA256) (message rest data : Bytes) (counted : st.bytes = message.length)
    (room : st.buf.length = 64)
    (streamed : Blocks.Streamed 64 transform sha256Initialize message st.s rest)
    (held : st.buf.take rest.length = rest) (short : rest.length + data.length < 64)
    (small : message.length + data.length < 2 ^ 64) :
    ∃ st', st.memcpy rest.length data = some st' ∧ st'.Keeps transform (message ++ data) := by
  refine ⟨_, if_pos (by omega), ?_, ?_, rest ++ data, ?_, ?_⟩
  · rw [List.length_append, counted, Nat.mod_eq_of_lt small]
  · rw [RingBuffer.length_write _ _ _ (by omega), room]
  · exact Blocks.streamed_grow streamed data short
  · rw [List.length_append]
    exact buffered st.buf rest data held

/-- The full chunks are processed, and less than a chunk is left. -/
theorem chunks_streamed (st : CSHA256) (message data : Bytes) (counted : st.bytes = message.length)
    (streamed : Blocks.Streamed 64 transform sha256Initialize message st.s [])
    (small : message.length + data.length < 2 ^ 64) :
    ∃ front, data = front ++ (st.chunks transform data).2 ∧
      (st.chunks transform data).2.length < 64 ∧
      (st.chunks transform data).1.buf = st.buf ∧
      (st.chunks transform data).1.bytes = (message ++ front).length ∧
      Blocks.Streamed 64 transform sha256Initialize (message ++ front)
        (st.chunks transform data).1.s [] := by
  fun_induction CSHA256.chunks transform st data generalizing message with
  | case1 st data full ih =>
      have size : (data.take 64).length = 64 := by
        rw [List.length_take]
        omega
      have block := Blocks.streamed_block streamed (data.take 64) (by rw [size]; rfl)
      have next := ih (message ++ data.take 64)
        (by rw [List.length_append, size, counted, Nat.mod_eq_of_lt (by omega)])
        (by simpa using block)
        (by rw [List.length_append, size, List.length_drop]; omega)
      obtain ⟨front, split, short, buf, bytes, whole⟩ := next
      refine ⟨data.take 64 ++ front, ?_, short, buf, ?_, ?_⟩
      · rw [List.append_assoc, ← split, List.take_append_drop]
      · rw [bytes, List.append_assoc]
      · rwa [← List.append_assoc]
  | case2 st data short =>
      exact ⟨[], rfl, Nat.lt_of_not_le short, rfl, by simp [counted], by simpa using streamed⟩

/-- What `Write` does once the buffer is empty. -/
theorem writeRest_empty (st : CSHA256) (message data : Bytes) (counted : st.bytes = message.length)
    (room : st.buf.length = 64)
    (streamed : Blocks.Streamed 64 transform sha256Initialize message st.s [])
    (small : message.length + data.length < 2 ^ 64) :
    ∃ st', st.writeRest transform 0 data = some st' ∧ st'.Keeps transform (message ++ data) := by
  obtain ⟨front, split, short, buf, bytes, whole⟩ :=
    chunks_streamed st message data counted streamed small
  rw [writeRest]
  generalize st.chunks transform data = full at *
  subst split
  rw [List.length_append] at small
  by_cases more : full.2 = []
  · rw [more, List.append_nil]
    exact ⟨full.1, by simp, bytes, by rw [buf, room], [], whole, rfl⟩
  · have kept := memcpy_keeps full.1 (message ++ front) [] full.2 bytes (by rw [buf, room]) whole rfl
      (by simpa using short) (by rw [List.length_append]; omega)
    rw [List.append_assoc] at kept
    simpa only [List.length_nil, ne_eq, more, not_false_eq_true, if_true] using kept

theorem write_keeps (st : CSHA256) (message data : Bytes) (keeps : st.Keeps transform message)
    (small : message.length + data.length < 2 ^ 63) :
    ∃ st', st.write transform data = some st' ∧ st'.Keeps transform (message ++ data) := by
  obtain ⟨rest, streamed, held⟩ := keeps.streamed
  have bufsize : st.bytes % 64 = rest.length := by
    rw [keeps.counted, Blocks.streamed_rest streamed]
  have short : rest.length < 64 := by
    rw [← bufsize]
    exact Nat.mod_lt _ (by decide)
  rw [write, bufsize, Nat.mod_eq_of_lt (by omega)]
  by_cases full : rest.length ≠ 0 ∧ rest.length + data.length ≥ 64
  · rw [if_pos full]
    have size : (data.take (64 - rest.length)).length = 64 - rest.length := by
      rw [List.length_take]
      omega
    have block := Blocks.streamed_block streamed (data.take (64 - rest.length)) (by omega)
    have written := buffered st.buf rest (data.take (64 - rest.length)) held
    have length : (RingBuffer.write st.buf rest.length (data.take (64 - rest.length))).length = 64 := by
      rw [RingBuffer.length_write _ _ _ (by rw [size, keeps.room]; omega), keeps.room]
    have whole : (64 : Nat) = rest.length + (64 - rest.length) := by omega
    rw [size, ← whole, List.take_of_length_le (Nat.le_of_eq length)] at written
    have filled : st.fill transform rest.length data = some {
        s := transform st.s (rest ++ data.take (64 - rest.length))
        buf := rest ++ data.take (64 - rest.length)
        bytes := (message ++ data.take (64 - rest.length)).length } := by
      rw [fill, memcpy, if_pos (by omega), written, keeps.counted, List.length_append,
        Nat.mod_eq_of_lt (by omega)]
      rfl
    rw [filled]
    obtain ⟨st', rested, kept⟩ := writeRest_empty {
        s := transform st.s (rest ++ data.take (64 - rest.length))
        buf := rest ++ data.take (64 - rest.length)
        bytes := (message ++ data.take (64 - rest.length)).length }
      (message ++ data.take (64 - rest.length)) (data.drop (64 - rest.length)) rfl
      (by rw [List.length_append, size]; exact whole.symm) block
      (by rw [List.length_append, size, List.length_drop]; omega)
    rw [List.append_assoc, List.take_append_drop] at kept
    exact ⟨st', rested, kept⟩
  · rw [if_neg full]
    by_cases empty : rest.length = 0
    · have nothing := List.eq_nil_of_length_eq_zero empty
      rw [nothing] at streamed ⊢
      exact writeRest_empty st message data keeps.counted keeps.room streamed (by omega)
    · have few : ¬ 64 ≤ data.length := by omega
      rw [writeRest, chunks, if_neg few]
      by_cases more : data = []
      · subst more
        refine ⟨st, by simp, ?_⟩
        rwa [List.append_nil]
      · have kept := memcpy_keeps st message rest data keeps.counted keeps.room streamed held
          (by omega) (by omega)
        simpa only [ne_eq, more, not_false_eq_true, if_true] using kept

theorem writes_keeps (st : CSHA256) (message : Bytes) (cuts : List Bytes)
    (keeps : st.Keeps transform message)
    (small : message.length + cuts.flatten.length < 2 ^ 63) :
    ∃ st', st.writes transform cuts = some st' ∧ st'.Keeps transform (message ++ cuts.flatten) := by
  induction cuts generalizing st message with
  | nil => exact ⟨st, rfl, by simpa using keeps⟩
  | cons data cuts ih =>
      rw [List.flatten_cons, List.length_append] at small
      obtain ⟨next, written, kept⟩ := write_keeps st message data keeps (by omega)
      obtain ⟨st', ran, kept'⟩ := ih next (message ++ data) kept (by rw [List.length_append]; omega)
      refine ⟨st', ?_, by rwa [List.flatten_cons, ← List.append_assoc]⟩
      rw [writes, List.foldlM_cons, written]
      exact ran

theorem pad_take (length : Nat) :
    pad.take (1 + (119 - length % 64) % 64) =
      [0x80] ++ List.replicate (paddingZeros length) 0 := by
  have zeros : (119 - length % 64) % 64 = paddingZeros length := by
    rw [paddingZeros]
    omega
  have few : paddingZeros length < 64 := by
    rw [paddingZeros]
    exact Nat.mod_lt _ (by decide)
  rw [zeros, pad, Nat.add_comm, List.take_succ_cons, List.take_replicate,
    Nat.min_eq_left (by omega : paddingZeros length ≤ 63)]
  rfl

theorem length_paddedMessage (message : Bytes) :
    (paddedMessage message).length = message.length + 1 + paddingZeros message.length + 8 := by
  simp only [paddedMessage, writeBE, List.length_append, List.length_singleton, List.length_replicate,
    List.length_reverse, writeLE_length]

theorem finalize_keeps (st : CSHA256) (message : Bytes) (keeps : st.Keeps transform message)
    (small : message.length < 2 ^ 61) :
    st.finalize transform = some (sha256 transform message) := by
  have bits : st.bytes * 2 ^ 3 % 2 ^ 64 = 8 * message.length := by
    rw [keeps.counted, Nat.mod_eq_of_lt (by omega)]
    omega
  have zeros : paddingZeros message.length < 64 := Nat.mod_lt _ (by decide)
  have size : (writeBE 8 (8 * message.length)).length = 8 := by
    rw [writeBE, List.length_reverse, writeLE_length]
  have room : ([0x80] ++ List.replicate (paddingZeros message.length) (0 : UInt8)).length < 65 := by
    rw [List.length_append, List.length_replicate, List.length_singleton]
    omega
  obtain ⟨first, padding, kept⟩ := write_keeps st message
    ([0x80] ++ List.replicate (paddingZeros message.length) 0) keeps (by omega)
  obtain ⟨last, sizing, kept'⟩ := write_keeps first _ (writeBE 8 (8 * message.length)) kept
    (by rw [List.length_append, size]; omega)
  have whole : message ++ ([0x80] ++ List.replicate (paddingZeros message.length) 0) ++
      writeBE 8 (8 * message.length) = paddedMessage message := by
    simp only [paddedMessage, List.append_assoc]
  rw [whole] at kept'
  obtain ⟨rest, streamed, -⟩ := kept'.streamed
  have folded := Blocks.streamed_folds streamed
  have padTake := pad_take message.length
  rw [← keeps.counted] at padTake
  rw [finalize, bits, padTake, keeps.counted]
  simp only [padding, sizing, Option.bind_eq_bind, Option.bind_some]
  rw [sha256, ← folded]
  rfl

/-- However the message is cut into calls, no write goes past the buffer, and the hash is that of the
blocks of the padded message, which leave nothing over. -/
theorem streaming_equals_one_shot (transform : Transform) (memory : Vector UInt8 64)
    (cuts : List Bytes) (small : cuts.flatten.length < 2 ^ 61) :
    (∃ st, (init memory).writes transform cuts = some st ∧
      st.finalize transform = some (sha256 transform cuts.flatten)) ∧
      (paddedMessage cuts.flatten).length % 64 = 0 := by
  obtain ⟨st, ran, keeps⟩ := writes_keeps (init memory) [] cuts (keeps_init memory)
    (by rw [List.length_nil]; omega)
  rw [List.nil_append] at keeps
  refine ⟨⟨st, ran, finalize_keeps st _ keeps small⟩, ?_⟩
  rw [length_paddedMessage]
  exact (paddingZeros_least _ 0).1

/-- Two bytes in three calls, one of them empty. -/
theorem streaming_equals_one_shot_cut :
    ([[1], [], [2]] : List Bytes).flatten.length < 2 ^ 61 ∧
      ∃ st, (init (Vector.replicate 64 7)).writes (fun s chunk => s.map (· + chunk.length)) [[1], [], [2]] =
        some st ∧ st.finalize (fun s chunk => s.map (· + chunk.length)) =
          some (sha256 (fun s chunk => s.map (· + chunk.length)) [1, 2]) :=
  ⟨by decide, (streaming_equals_one_shot _ (Vector.replicate 64 7) [[1], [], [2]] (by decide)).1⟩

end CSHA256

end RoiCoin
