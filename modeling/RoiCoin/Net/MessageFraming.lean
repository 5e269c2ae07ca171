import RoiCoin.Net.ReceiveMsgBytes
import RoiCoin.Lib.Checked

/-! What was received does not depend on how the stream was cut into packets. -/

namespace RoiCoin

open Codec Framing

/-! ## The stream as frames -/

def headerOf (bytes : Bytes) : CMessageHeader where
  pchMessageStart := bytes.take 4
  pchCommand := (bytes.drop 4).take 12
  nMessageSize := BitVec.ofNat 32 (readLE ((bytes.drop 16).take 4))
  nChecksum := BitVec.ofNat 32 (readLE ((bytes.drop 20).take 4))

def messageFormat : Format UInt8 CMessageHeader where
  headerSize := 24
  parse := headerOf
  payloadSize hdr := hdr.nMessageSize.toNat
  accepts hdr := decide (hdr.nMessageSize.toNat ≤ maxSize) &&
    decide (hdr.nMessageSize.toNat ≤ maxProtocolMessageLength)

namespace CNetMessage

/-- Header and payload. -/
def content (msg : CNetMessage) : CMessageHeader × Bytes := (msg.hdr, msg.vRecv)

/-- The part that was received of a message that is not complete. -/
def received (msg : CNetMessage) : Unfinished UInt8 CMessageHeader :=
  if msg.nHdrPos < 24 then .header (msg.hdrbuf.take msg.nHdrPos)
  else .payload msg.hdr (msg.vRecv.take msg.nDataPos)

end CNetMessage

/-- The complete messages, the part of the last one that was received, and the verdict. -/
def receivedFrames (vRecvMsg : List CNetMessage) (accepted : Bool) :
    Frames UInt8 CMessageHeader where
  complete := (vRecvMsg.filter CNetMessage.complete).map CNetMessage.content
  unfinished :=
    match vRecvMsg.getLast? with
    | none => .header []
    | some back => if back.complete then .header [] else back.received
  refused := !accepted

theorem read_header (bytes : Bytes) (whole : bytes.length = 24) :
    CMessageHeader.read.run bytes = some (headerOf bytes, []) := by
  simp only [CMessageHeader.read, readFixed, run_bind, run_take, run_pure]
  refine ⟨bytes.take 4, bytes.drop 4, ⟨by simp [whole], List.take_append_drop 4 bytes⟩,
    (bytes.drop 4).take 12, bytes.drop 16, ⟨by simp [whole], ?_⟩,
    _, bytes.drop 20, ⟨(bytes.drop 16).take 4, bytes.drop 20, ⟨by simp [whole], ?_⟩, rfl, rfl⟩,
    _, [], ⟨(bytes.drop 20).take 4, [], ⟨by simp [whole], ?_⟩, rfl, rfl⟩, rfl, rfl⟩
  · have rest := List.take_append_drop 12 (bytes.drop 4)
    rwa [List.drop_drop] at rest
  · have rest := List.take_append_drop 4 (bytes.drop 16)
    rwa [List.drop_drop] at rest
  · rw [List.append_nil, List.take_of_length_le (by simp [whole])]

/-! ## Buffers -/

theorem copyTo_ok (buffer : Bytes) (pos : Nat) (bytes : Bytes)
    (inside : pos + bytes.length ≤ buffer.length) :
    ∃ copied, copyTo buffer pos bytes = .ok copied ∧ copied.length = buffer.length ∧
      copied.take (pos + bytes.length) = buffer.take pos ++ bytes := by
  refine ⟨_, by rw [copyTo, if_pos inside], ?_, ?_⟩
  · simp only [List.length_append, List.length_take, List.length_drop]
    omega
  · have length : (buffer.take pos ++ bytes).length = pos + bytes.length := by
      rw [List.length_append, List.length_take, Nat.min_eq_left (by omega)]
    rw [← length, List.take_left]

theorem resizeTo_spec (buffer : Bytes) (size : Nat) (longer : buffer.length ≤ size) :
    (resizeTo buffer size).length = size ∧
      ∀ n ≤ buffer.length, (resizeTo buffer size).take n = buffer.take n := by
  rw [resizeTo, List.take_of_length_le longer]
  constructor
  · rw [List.length_append, List.length_replicate]
    omega
  · intro n inside
    exact List.take_append_of_le_length inside

/-! ## One message -/

/-- The payload buffer has what was received, and no more than was announced. -/
def CNetMessage.Bounded (msg : CNetMessage) : Prop :=
  msg.nDataPos ≤ msg.vRecv.length ∧ msg.vRecv.length ≤ msg.hdr.nMessageSize.toNat

/-- The header is being read. -/
structure CNetMessage.InHeader (msg : CNetMessage) : Prop where
  inData : msg.inData = false
  nHdrPos : msg.nHdrPos < 24
  hdrbuf : msg.hdrbuf.length = 24
  nDataPos : msg.nDataPos = 0
  vRecv : msg.vRecv = []

/-- The payload is being read. -/
structure CNetMessage.InPayload (msg : CNetMessage) : Prop where
  inData : msg.inData = true
  nHdrPos : msg.nHdrPos = 24
  nDataPos : msg.nDataPos < msg.hdr.nMessageSize.toNat
  small : msg.hdr.nMessageSize.toNat ≤ maxProtocolMessageLength
  bounded : msg.Bounded

/-- The message is complete. -/
structure CNetMessage.Whole (msg : CNetMessage) : Prop where
  complete : msg.complete = true
  vRecv : msg.vRecv.length = msg.hdr.nMessageSize.toNat

namespace CNetMessage

theorem create_inHeader (pchMessageStart : Bytes) : (create pchMessageStart).InHeader :=
  ⟨rfl, Nat.zero_lt_succ 23, rfl, rfl, rfl⟩

theorem inHeader_incomplete (msg : CNetMessage) (reading : msg.InHeader) :
    msg.complete = false := by
  rw [complete, reading.inData, Bool.false_and]

theorem inPayload_incomplete (msg : CNetMessage) (reading : msg.InPayload) :
    msg.complete = false := by
  have short := reading.nDataPos
  rw [complete, reading.inData, Bool.true_and, beq_eq_false_iff_ne]
  omega

theorem inHeader_bounded (msg : CNetMessage) (reading : msg.InHeader) : msg.Bounded := by
  rw [Bounded, reading.nDataPos, reading.vRecv]
  exact ⟨Nat.le_refl 0, Nat.zero_le _⟩

theorem whole_bounded (msg : CNetMessage) (whole : msg.Whole) : msg.Bounded := by
  have complete := whole.complete
  rw [CNetMessage.complete, Bool.and_eq_true, beq_iff_eq] at complete
  rw [Bounded, whole.vRecv, complete.2]
  exact ⟨Nat.le_refl _, Nat.le_refl _⟩

/-- The frames after complete messages and one that may be complete. -/
def settle (before : List (CMessageHeader × Bytes)) (msg : CNetMessage) :
    Frames UInt8 CMessageHeader :=
  if msg.complete then ⟨before ++ [msg.content], .header [], false⟩
  else ⟨before, msg.received, false⟩

/-- What one round of the loop makes of a message: it takes some bytes, or refuses the peer. -/
inductive Absorbed (before : List (CMessageHeader × Bytes)) (msg : CNetMessage) (pch : Bytes) :
    CNetMessage × Option Nat → Prop where
  | takes (next : CNetMessage) (handled : Nat) (positive : 0 < handled)
      (inside : handled ≤ pch.length)
      (small : ¬ (next.inData ∧ next.hdr.nMessageSize.toNat > maxProtocolMessageLength))
      (good : next.InHeader ∨ next.InPayload ∨ next.Whole)
      (fed : feed messageFormat ⟨before, msg.received, false⟩ (pch.take handled) =
        settle before next) :
      Absorbed before msg pch (next, some handled)
  | refuses (next : CNetMessage) (handled : Option Nat)
      (stops : ∀ n, handled = some n →
        next.inData ∧ next.hdr.nMessageSize.toNat > maxProtocolMessageLength)
      (bounded : next.Bounded) (incomplete : next.complete = false)
      (fed : feed messageFormat ⟨before, msg.received, false⟩ pch =
        ⟨before, next.received, true⟩) :
      Absorbed before msg pch (next, handled)

/-- A message whose header was accepted, as a frame. -/
theorem deliver_settle (before : List (CMessageHeader × Bytes)) (msg : CNetMessage)
    (inData : msg.inData = true) (nHdrPos : msg.nHdrPos = 24) (bounded : msg.Bounded) :
    deliver messageFormat before msg.hdr (msg.vRecv.take msg.nDataPos) = settle before msg := by
  have length : (msg.vRecv.take msg.nDataPos).length = msg.nDataPos := by
    rw [List.length_take, Nat.min_eq_left bounded.1]
  have announced : messageFormat.payloadSize msg.hdr = msg.hdr.nMessageSize.toNat := rfl
  rw [deliver, settle, length, complete, inData, Bool.true_and, announced]
  by_cases whole : msg.nDataPos = msg.hdr.nMessageSize.toNat
  · have all : msg.vRecv.take msg.nDataPos = msg.vRecv := by
      apply List.take_of_length_le
      rw [whole]
      exact bounded.2
    have same : (msg.hdr.nMessageSize.toNat == msg.nDataPos) = true := beq_iff_eq.mpr whole.symm
    rw [if_pos whole, if_pos same, all, content]
  · have other : ¬ (msg.hdr.nMessageSize.toNat == msg.nDataPos) = true := by
      simpa using Ne.symm whole
    rw [if_neg whole, if_neg other, received, nHdrPos, if_neg (Nat.lt_irrefl 24)]

theorem accepted_good (msg : CNetMessage) (inData : msg.inData = true)
    (nHdrPos : msg.nHdrPos = 24)
    (small : msg.hdr.nMessageSize.toNat ≤ maxProtocolMessageLength) (bounded : msg.Bounded) :
    msg.InHeader ∨ msg.InPayload ∨ msg.Whole := by
  right
  have inside := Nat.le_trans bounded.1 bounded.2
  by_cases whole : msg.nDataPos = msg.hdr.nMessageSize.toNat
  · right
    refine ⟨by simp [complete, inData, whole], Nat.le_antisymm bounded.2 ?_⟩
    rw [← whole]
    exact bounded.1
  · exact Or.inl ⟨inData, nHdrPos, by omega, small, bounded⟩

/-- What the frames are after a header. -/
theorem feed_entered (before : List (CMessageHeader × Bytes)) (msg : CNetMessage)
    (reading : msg.InHeader) (bytes : Bytes) (some : bytes ≠ [])
    (whole : msg.nHdrPos + bytes.length = 24) :
    feed messageFormat ⟨before, msg.received, false⟩ bytes =
      enter messageFormat before (msg.hdrbuf.take msg.nHdrPos ++ bytes) := by
  have early := reading.nHdrPos
  have length : (msg.hdrbuf.take msg.nHdrPos).length = msg.nHdrPos := by
    rw [List.length_take, reading.hdrbuf]
    omega
  rw [received, if_pos reading.nHdrPos]
  apply feed_whole_header messageFormat before _ bytes some
  rw [length]
  exact whole

/-- What the frames are after a part of the header. -/
theorem feed_partly (before : List (CMessageHeader × Bytes)) (msg : CNetMessage)
    (reading : msg.InHeader) (bytes : Bytes) (partly : msg.nHdrPos + bytes.length < 24) :
    feed messageFormat ⟨before, msg.received, false⟩ bytes =
      ⟨before, .header (msg.hdrbuf.take msg.nHdrPos ++ bytes), false⟩ := by
  have early := reading.nHdrPos
  have length : (msg.hdrbuf.take msg.nHdrPos).length = msg.nHdrPos := by
    rw [List.length_take, reading.hdrbuf]
    omega
  rw [received, if_pos early]
  apply feed_header messageFormat before
  rw [length]
  exact partly

/-- Nothing is read after a header that is not accepted. -/
theorem feed_unaccepted (before : List (CMessageHeader × Bytes)) (msg next : CNetMessage)
    (reading : msg.InHeader) (bytes rest : Bytes) (some : bytes ≠ [])
    (whole : msg.nHdrPos + bytes.length = 24)
    (hdr : next.hdr = headerOf (msg.hdrbuf.take msg.nHdrPos ++ bytes)) (vRecv : next.vRecv = [])
    (nHdrPos : next.nHdrPos = 24) (large : messageFormat.accepts next.hdr = false) :
    feed messageFormat ⟨before, msg.received, false⟩ (bytes ++ rest) =
      ⟨before, next.received, true⟩ := by
  have entered := feed_entered before msg reading bytes some whole
  have refused : messageFormat.accepts
      (messageFormat.parse (msg.hdrbuf.take msg.nHdrPos ++ bytes)) = false := by
    rwa [hdr] at large
  rw [enter, refused] at entered
  rw [feed_append, entered]
  simp only [Bool.false_eq_true, if_false]
  rw [feed_refused _ _ _ rfl, received, nHdrPos, if_neg (Nat.lt_irrefl 24), hdr, vRecv,
    List.take_nil]
  rfl

theorem readHeader_absorbed (before : List (CMessageHeader × Bytes)) (msg : CNetMessage)
    (pch : Bytes) (reading : msg.InHeader) (some : pch ≠ []) :
    ∃ result, msg.readHeader pch = .ok result ∧ Absorbed before msg pch result := by
  have early := reading.nHdrPos
  have filled := List.length_pos_of_ne_nil some
  have empty := reading.vRecv
  have none := reading.nDataPos
  obtain ⟨nCopy, copies⟩ : ∃ nCopy, nCopy = min (24 - msg.nHdrPos) pch.length := ⟨_, rfl⟩
  have taken : (pch.take nCopy).length = nCopy := by
    rw [List.length_take]
    omega
  obtain ⟨hdrbuf, copied, size, front⟩ := copyTo_ok msg.hdrbuf msg.nHdrPos (pch.take nCopy) (by
    rw [taken, reading.hdrbuf]
    omega)
  rw [reading.hdrbuf] at size
  rw [taken] at front
  simp only [readHeader, ← copies, copied, bind, Except.bind]
  by_cases partly : msg.nHdrPos + nCopy < 24
  · rw [if_pos partly]
    refine ⟨_, rfl, .takes _ nCopy (by omega) (by omega) ?_ (Or.inl ?_) ?_⟩
    · simp [reading.inData]
    · exact ⟨reading.inData, partly, size, none, empty⟩
    · rw [feed_partly before msg reading _ (by rwa [taken]), settle, complete, reading.inData,
        Bool.false_and, received, if_pos partly, front]
      rfl
  · have whole : msg.nHdrPos + nCopy = 24 := by omega
    have bytes : pch.take nCopy ≠ [] := List.ne_nil_of_length_pos (by omega)
    have length : msg.nHdrPos + (pch.take nCopy).length = 24 := by rw [taken, whole]
    rw [whole, List.take_of_length_le (by omega)] at front
    rw [if_neg partly, read_header hdrbuf size]
    have refused (next : CNetMessage) (hdr : next.hdr = headerOf hdrbuf)
        (vRecv : next.vRecv = []) (nHdrPos : next.nHdrPos = 24)
        (large : messageFormat.accepts next.hdr = false) :
        feed messageFormat ⟨before, msg.received, false⟩ pch =
          ⟨before, next.received, true⟩ := by
      have fed := feed_unaccepted before msg next reading (pch.take nCopy) (pch.drop nCopy) bytes
        length (front ▸ hdr) vRecv nHdrPos large
      rwa [List.take_append_drop] at fed
    by_cases large : (headerOf hdrbuf).nMessageSize.toNat > maxSize
    · simp only [if_pos large]
      refine ⟨_, rfl, .refuses _ _ (fun _ given => by cases given) ?_ ?_
        (refused _ rfl empty whole ?_)⟩
      · simp [Bounded, none, empty]
      · simp [complete, reading.inData]
      · simp [messageFormat, Nat.not_le.mpr large]
    · simp only [if_neg large]
      by_cases oversized : (headerOf hdrbuf).nMessageSize.toNat > maxProtocolMessageLength
      · refine ⟨_, rfl, .refuses _ _ (fun _ _ => ⟨rfl, oversized⟩) ?_ ?_
          (refused _ rfl empty whole ?_)⟩
        · simp [Bounded, none, empty]
        · have positive : (headerOf hdrbuf).nMessageSize.toNat ≠ 0 := by omega
          simpa [complete, none] using positive
        · simp [messageFormat, Nat.not_le.mpr oversized]
      · have bounded : msg.nDataPos ≤ msg.vRecv.length ∧
            msg.vRecv.length ≤ (headerOf hdrbuf).nMessageSize.toNat := by
          simp [none, empty]
        refine ⟨_, rfl, .takes _ nCopy (by omega) (by omega) (fun both => oversized both.2)
          (accepted_good _ rfl whole (Nat.le_of_not_lt oversized) bounded) ?_⟩
        have entered := feed_entered before msg reading (pch.take nCopy) bytes length
        have accepted : messageFormat.accepts (messageFormat.parse hdrbuf) = true := by
          simp [messageFormat, Nat.le_of_not_lt large, Nat.le_of_not_lt oversized]
        let next : CNetMessage :=
          ⟨true, [], headerOf hdrbuf, msg.nHdrPos + nCopy, msg.vRecv, msg.nDataPos⟩
        have settled := deliver_settle before next rfl whole bounded
        have nothing : next.vRecv.take next.nDataPos = [] := by
          simp [next, empty]
        rw [nothing] at settled
        rw [entered, ← front, enter, accepted, if_pos rfl]
        exact settled

theorem readData_absorbed (before : List (CMessageHeader × Bytes)) (msg : CNetMessage)
    (pch : Bytes) (reading : msg.InPayload) (some : pch ≠ []) :
    ∃ result, msg.readData pch = .ok result ∧ Absorbed before msg pch result := by
  have filled := List.length_pos_of_ne_nil some
  have short := reading.nDataPos
  have small := reading.small
  have limit : maxProtocolMessageLength = 2097152 := rfl
  obtain ⟨low, high⟩ := reading.bounded
  obtain ⟨nCopy, copies⟩ :
    ∃ nCopy, nCopy = min (msg.hdr.nMessageSize.toNat - msg.nDataPos) pch.length := ⟨_, rfl⟩
  have taken : (pch.take nCopy).length = nCopy := by
    rw [List.length_take]
    omega
  have word : (msg.nDataPos + nCopy) % 2 ^ 32 = msg.nDataPos + nCopy :=
    Nat.mod_eq_of_lt (by omega)
  have ahead : (msg.nDataPos + nCopy + 256 * 1024) % 2 ^ 32 = msg.nDataPos + nCopy + 256 * 1024 :=
    Nat.mod_eq_of_lt (by omega)
  have grown : ∃ vRecv, (if msg.vRecv.length < msg.nDataPos + nCopy then
        resizeTo msg.vRecv
          (min msg.hdr.nMessageSize.toNat (msg.nDataPos + nCopy + 256 * 1024))
      else msg.vRecv) = vRecv ∧ msg.nDataPos + nCopy ≤ vRecv.length ∧
        vRecv.length ≤ msg.hdr.nMessageSize.toNat ∧
        vRecv.take msg.nDataPos = msg.vRecv.take msg.nDataPos := by
    by_cases grows : msg.vRecv.length < msg.nDataPos + nCopy
    · obtain ⟨length, front⟩ := resizeTo_spec msg.vRecv
        (min msg.hdr.nMessageSize.toNat (msg.nDataPos + nCopy + 256 * 1024)) (by omega)
      exact ⟨_, if_pos grows, by omega, by omega, front _ low⟩
    · exact ⟨_, if_neg grows, by omega, high, rfl⟩
  obtain ⟨buffer, resized, room, most, same⟩ := grown
  obtain ⟨vRecv, copied, size, front⟩ := copyTo_ok buffer msg.nDataPos (pch.take nCopy) (by
    rw [taken]
    exact room)
  rw [taken, same] at front
  simp only [readData, ← copies, word, ahead, resized, copied, bind, Except.bind]
  let next : CNetMessage := { msg with vRecv := vRecv, nDataPos := msg.nDataPos + nCopy }
  have bounded : next.Bounded := by
    simp only [next, Bounded]
    omega
  refine ⟨_, rfl, .takes next nCopy (by omega) (by omega)
    (fun both => Nat.not_lt_of_le reading.small both.2)
    (accepted_good next reading.inData reading.nHdrPos reading.small bounded) ?_⟩
  have length : (msg.vRecv.take msg.nDataPos).length = msg.nDataPos := by
    rw [List.length_take, Nat.min_eq_left low]
  rw [received, reading.nHdrPos, if_neg (Nat.lt_irrefl 24),
    feed_payload messageFormat before msg.hdr _ _ (List.ne_nil_of_length_pos (by omega)) (by
      rw [length, taken]
      show msg.nDataPos + nCopy ≤ msg.hdr.nMessageSize.toNat
      omega), ← front]
  exact deliver_settle before next reading.inData reading.nHdrPos bounded

theorem absorb_absorbed (before : List (CMessageHeader × Bytes)) (msg : CNetMessage)
    (pch : Bytes) (reading : msg.InHeader ∨ msg.InPayload) (some : pch ≠ []) :
    ∃ result, msg.absorb pch = .ok result ∧ Absorbed before msg pch result := by
  rw [absorb]
  rcases reading with header | payload
  · rw [header.inData]
    exact readHeader_absorbed before msg pch header some
  · rw [payload.inData]
    exact readData_absorbed before msg pch payload some

end CNetMessage

/-! ## The loop -/

/-- Complete messages, and after them at most one that is being read. -/
def MessagesOrderly (vRecvMsg : List CNetMessage) : Prop :=
  ∃ before, (∀ msg ∈ before, CNetMessage.Whole msg) ∧
    (vRecvMsg = before ∨
      ∃ msg, vRecvMsg = before ++ [msg] ∧ (msg.InHeader ∨ msg.InPayload))

theorem filter_whole (before : List CNetMessage) (whole : ∀ msg ∈ before, CNetMessage.Whole msg) :
    before.filter CNetMessage.complete = before := by
  rw [List.filter_eq_self]
  intro msg member
  exact (whole msg member).complete

theorem reading_incomplete (msg : CNetMessage) (reading : msg.InHeader ∨ msg.InPayload) :
    msg.complete = false :=
  reading.elim msg.inHeader_incomplete msg.inPayload_incomplete

theorem reading_bounded (msg : CNetMessage) (reading : msg.InHeader ∨ msg.InPayload) :
    msg.Bounded :=
  reading.elim msg.inHeader_bounded (·.bounded)

/-- The frames of complete messages followed by one that is not. -/
theorem frames_incomplete (before : List CNetMessage) (msg : CNetMessage) (accepted : Bool)
    (whole : ∀ msg ∈ before, CNetMessage.Whole msg) (incomplete : msg.complete = false) :
    receivedFrames (before ++ [msg]) accepted =
      ⟨before.map CNetMessage.content, msg.received, !accepted⟩ := by
  simp [receivedFrames, filter_whole before whole, incomplete]

theorem frames_whole (before : List CNetMessage)
    (whole : ∀ msg ∈ before, CNetMessage.Whole msg) :
    receivedFrames before true = ⟨before.map CNetMessage.content, .header [], false⟩ := by
  rw [receivedFrames, filter_whole before whole]
  cases last : before.getLast? with
  | none => rfl
  | some back =>
      have complete := (whole back (List.mem_of_getLast? last)).complete
      simp [complete]

theorem messages_bounded (vRecvMsg : List CNetMessage) (orderly : MessagesOrderly vRecvMsg) :
    ∀ msg ∈ vRecvMsg, msg.Bounded := by
  obtain ⟨before, whole, shape⟩ := orderly
  intro msg member
  rcases shape with same | ⟨back, same, reading⟩
  · subst same
    exact msg.whole_bounded (whole msg member)
  · subst same
    rcases List.mem_append.mp member with early | late
    · exact msg.whole_bounded (whole msg early)
    · rw [List.mem_singleton] at late
      subst late
      exact reading_bounded msg reading

/-- The message that takes the next bytes. -/
theorem current_orderly (pchMessageStart : Bytes) (vRecvMsg : List CNetMessage)
    (orderly : MessagesOrderly vRecvMsg) :
    ∃ before msg, currentMessage pchMessageStart vRecvMsg = (before, msg) ∧
      (∀ msg ∈ before, CNetMessage.Whole msg) ∧ (msg.InHeader ∨ msg.InPayload) ∧
      receivedFrames vRecvMsg true =
        ⟨before.map CNetMessage.content, msg.received, false⟩ := by
  obtain ⟨before, whole, shape⟩ := orderly
  rcases shape with same | ⟨msg, same, reading⟩
  · subst same
    refine ⟨vRecvMsg, .create pchMessageStart, ?_, whole,
      Or.inl (CNetMessage.create_inHeader pchMessageStart), frames_whole vRecvMsg whole⟩
    rw [currentMessage]
    cases last : vRecvMsg.getLast? with
    | none => rfl
    | some back =>
        have complete := (whole back (List.mem_of_getLast? last)).complete
        simp [complete]
  · subst same
    have incomplete := reading_incomplete msg reading
    refine ⟨before, msg, ?_, whole, reading,
      frames_incomplete before msg true whole incomplete⟩
    simp [currentMessage, incomplete]

/-- Where the messages stand after a round that took some bytes. -/
theorem settled_orderly (before : List CNetMessage) (next : CNetMessage)
    (whole : ∀ msg ∈ before, CNetMessage.Whole msg)
    (good : next.InHeader ∨ next.InPayload ∨ next.Whole) :
    MessagesOrderly (before ++ [next]) ∧
      receivedFrames (before ++ [next]) true =
        CNetMessage.settle (before.map CNetMessage.content) next := by
  rcases or_assoc.mpr good with reading | done
  · have incomplete := reading_incomplete next reading
    refine ⟨⟨before, whole, Or.inr ⟨next, rfl, reading⟩⟩, ?_⟩
    rw [frames_incomplete before next true whole incomplete, CNetMessage.settle, incomplete]
    rfl
  · have all : ∀ msg ∈ before ++ [next], CNetMessage.Whole msg := by
      intro msg member
      rcases List.mem_append.mp member with early | late
      · exact whole msg early
      · rw [List.mem_singleton] at late
        subst late
        exact done
    refine ⟨⟨before ++ [next], all, Or.inl rfl⟩, ?_⟩
    rw [frames_whole _ all, CNetMessage.settle, if_pos done.complete, List.map_append]
    rfl

/-- The loop feeds the bytes to the frames. -/
theorem receiveLoop_feeds (pchMessageStart : Bytes) (fuel : Nat) (vRecvMsg : List CNetMessage)
    (pch : Bytes) (orderly : MessagesOrderly vRecvMsg) (enough : pch.length ≤ fuel) :
    ∃ last accepted, receiveLoop pchMessageStart fuel vRecvMsg pch = .ok (last, accepted) ∧
      receivedFrames last accepted =
        feed messageFormat (receivedFrames vRecvMsg true) pch ∧
      (accepted = true → MessagesOrderly last) ∧ ∀ msg ∈ last, msg.Bounded := by
  induction fuel generalizing vRecvMsg pch with
  | zero =>
      have done : pch = [] := List.eq_nil_of_length_eq_zero (by omega)
      subst done
      exact ⟨vRecvMsg, true, rfl, rfl, fun _ => orderly, messages_bounded vRecvMsg orderly⟩
  | succ fuel ih =>
      rw [receiveLoop]
      by_cases done : pch = []
      · subst done
        exact ⟨vRecvMsg, true, rfl, rfl, fun _ => orderly, messages_bounded vRecvMsg orderly⟩
      · obtain ⟨before, msg, current, whole, reading, frames⟩ :=
          current_orderly pchMessageStart vRecvMsg orderly
        obtain ⟨result, ran, absorbed⟩ :=
          CNetMessage.absorb_absorbed (before.map CNetMessage.content) msg pch reading done
        rw [if_neg done, current, frames]
        simp only [ran, bind, Except.bind]
        cases absorbed with
        | takes next handled positive inside small good fed =>
            obtain ⟨stays, settled⟩ := settled_orderly before next whole good
            obtain ⟨last, accepted, rest, feeds, ends⟩ :=
              ih (before ++ [next]) (pch.drop handled) stays (by
                rw [List.length_drop]
                omega)
            refine ⟨last, accepted, ?_, ?_, ends⟩
            · simp only [if_neg small]
              exact rest
            · rw [feeds, settled, ← fed, ← feed_append, List.take_append_drop]
        | refuses next handled stops bounded incomplete fed =>
            refine ⟨before ++ [next], false, ?_, ?_, (fun given => by cases given), ?_⟩
            · cases handled with
              | none => rfl
              | some n =>
                  simp only [if_pos (stops n rfl)]
                  rfl
            · rw [frames_incomplete before next false whole incomplete, fed]
              rfl
            · intro msg member
              rcases List.mem_append.mp member with early | late
              · exact msg.whole_bounded (whole msg early)
              · rw [List.mem_singleton] at late
                subst late
                exact bounded

/-- Chunks feed their bytes one after the other until the peer is refused. -/
theorem receiveChunks_feeds (pchMessageStart : Bytes) (vRecvMsg : List CNetMessage)
    (chunks : List Bytes) (orderly : MessagesOrderly vRecvMsg) :
    ∃ last accepted, receiveChunks pchMessageStart vRecvMsg chunks = .ok (last, accepted) ∧
      receivedFrames last accepted =
        feed messageFormat (receivedFrames vRecvMsg true) chunks.flatten ∧
      ∀ msg ∈ last, msg.Bounded := by
  induction chunks generalizing vRecvMsg with
  | nil => exact ⟨vRecvMsg, true, rfl, rfl, messages_bounded vRecvMsg orderly⟩
  | cons chunk chunks ih =>
      obtain ⟨next, accepted, received, feeds, stays, bounded⟩ :=
        receiveLoop_feeds pchMessageStart chunk.length vRecvMsg chunk orderly (Nat.le_refl _)
      simp only [receiveChunks, receiveMsgBytes, received, bind, Except.bind,
        List.flatten_cons, feed_append, ← feeds]
      cases accepted with
      | true => exact ih next (stays rfl)
      | false =>
          refine ⟨next, false, rfl, ?_, bounded⟩
          rw [feed_refused messageFormat _ _ rfl]

/-- Two ways of cutting a stream into chunks give the same complete messages, the same part of the
unfinished one and the same verdict, and no message gets more payload than it announced. -/
theorem framing_independent (pchMessageStart : Bytes) (chunks others : List Bytes)
    (same : chunks.flatten = others.flatten) :
    ∃ vRecvMsg vRecvMsg' accepted,
      receiveChunks pchMessageStart [] chunks = .ok (vRecvMsg, accepted) ∧
      receiveChunks pchMessageStart [] others = .ok (vRecvMsg', accepted) ∧
      receivedFrames vRecvMsg accepted = receivedFrames vRecvMsg' accepted ∧
      (∀ msg ∈ vRecvMsg, msg.Bounded) ∧ ∀ msg ∈ vRecvMsg', msg.Bounded := by
  have start : MessagesOrderly [] := ⟨[], List.forall_mem_nil _, Or.inl rfl⟩
  obtain ⟨vRecvMsg, accepted, received, feeds, bounded⟩ :=
    receiveChunks_feeds pchMessageStart [] chunks start
  obtain ⟨vRecvMsg', accepted', received', feeds', bounded'⟩ :=
    receiveChunks_feeds pchMessageStart [] others start
  have alike : receivedFrames vRecvMsg accepted = receivedFrames vRecvMsg' accepted' := by
    rw [feeds, feeds', same]
  have verdict : accepted = accepted' := by
    have refused := congrArg Frames.refused alike
    simpa [receivedFrames] using refused
  subst verdict
  exact ⟨vRecvMsg, vRecvMsg', accepted, received, received', alike, bounded, bounded'⟩

/-- A header that announces two bytes. -/
def twoByteHeader : Bytes := [1, 2, 3, 4] ++ List.replicate 12 65 ++ [2, 0, 0, 0] ++ [0, 0, 0, 0]

theorem framing_independent_split :
    ∃ vRecvMsg vRecvMsg' accepted,
      receiveChunks [1, 2, 3, 4] [] [twoByteHeader ++ [7, 8, 1]] = .ok (vRecvMsg, accepted) ∧
      receiveChunks [1, 2, 3, 4] [] [twoByteHeader.take 5, twoByteHeader.drop 5 ++ [7], [8, 1]] =
        .ok (vRecvMsg', accepted) ∧
      receivedFrames vRecvMsg accepted = receivedFrames vRecvMsg' accepted ∧
      (∀ msg ∈ vRecvMsg, msg.Bounded) ∧ ∀ msg ∈ vRecvMsg', msg.Bounded :=
  framing_independent [1, 2, 3, 4] _ _ (by decide)

end RoiCoin
