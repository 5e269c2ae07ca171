import RoiCoin.Lib.Framing
import RoiCoin.Serialize

/-! Messages as they come in from a peer (`ReceiveMsgBytes` and `CNetMessage` in `net.cpp`).

The times of receipt and the serialization versions of a message are left out. -/

namespace RoiCoin

open Codec

def maxProtocolMessageLength : Nat := 2 * 1024 * 1024

structure CMessageHeader where
  pchMessageStart : Bytes
  pchCommand : Bytes
  nMessageSize : BitVec 32
  nChecksum : BitVec 32
  deriving DecidableEq, Repr

def CMessageHeader.read : Reader CMessageHeader := do
  let pchMessageStart ← take 4
  let pchCommand ← take 12
  let nMessageSize ← readFixed 4
  let nChecksum ← readFixed 4
  return ⟨pchMessageStart, pchCommand, BitVec.ofNat 32 nMessageSize, BitVec.ofNat 32 nChecksum⟩

/-- How receiving can fail other than by refusing the peer. -/
inductive ReceiveFault where
  /-- `memcpy` past the end of a buffer. -/
  | outOfBounds
  /-- A round of the loop that takes no byte. -/
  | endless
  deriving DecidableEq, Repr

abbrev Receiving := Except ReceiveFault

/-- `memcpy(&buffer[pos], ..)` -/
def copyTo (buffer : Bytes) (pos : Nat) (bytes : Bytes) : Receiving Bytes :=
  if pos + bytes.length ≤ buffer.length then
    .ok (buffer.take pos ++ bytes ++ buffer.drop (pos + bytes.length))
  else .error .outOfBounds

def resizeTo (buffer : Bytes) (size : Nat) : Bytes :=
  buffer.take size ++ List.replicate (size - buffer.length) 0

structure CNetMessage where
  inData : Bool
  hdrbuf : Bytes
  hdr : CMessageHeader
  nHdrPos : Nat
  vRecv : Bytes
  nDataPos : Nat
  deriving DecidableEq, Repr

namespace CNetMessage

/-- The constructor. -/
def create (pchMessageStart : Bytes) : CNetMessage where
  inData := false
  hdrbuf := List.replicate 24 0
  hdr := ⟨pchMessageStart, List.replicate 12 0, -1, 0⟩
  nHdrPos := 0
  vRecv := []
  nDataPos := 0

def complete (msg : CNetMessage) : Bool :=
  msg.inData && msg.hdr.nMessageSize.toNat == msg.nDataPos

/-- `none` stands for minus one. -/
def readHeader (msg : CNetMessage) (pch : Bytes) : Receiving (CNetMessage × Option Nat) := do
  let nRemaining := 24 - msg.nHdrPos
  let nCopy := min nRemaining pch.length
  let hdrbuf ← copyTo msg.hdrbuf msg.nHdrPos (pch.take nCopy)
  let nHdrPos := msg.nHdrPos + nCopy
  if nHdrPos < 24 then return ({ msg with hdrbuf, nHdrPos }, some nCopy)
  else
    match CMessageHeader.read.run hdrbuf with
    | none => return ({ msg with hdrbuf, nHdrPos }, none)
    | some (hdr, rest) =>
        -- a stream that was read to its end has cleared its buffer
        if hdr.nMessageSize.toNat > maxSize then
          return ({ msg with hdrbuf := rest, nHdrPos, hdr }, none)
        else return ({ msg with hdrbuf := rest, nHdrPos, hdr, inData := true }, some nCopy)

def readData (msg : CNetMessage) (pch : Bytes) : Receiving (CNetMessage × Option Nat) := do
  let nMessageSize := msg.hdr.nMessageSize.toNat
  let nRemaining := nMessageSize - msg.nDataPos
  let nCopy := min nRemaining pch.length
  let vRecv :=
    if msg.vRecv.length < (msg.nDataPos + nCopy) % 2 ^ 32 then
      resizeTo msg.vRecv (min nMessageSize ((msg.nDataPos + nCopy + 256 * 1024) % 2 ^ 32))
    else msg.vRecv
  let vRecv ← copyTo vRecv msg.nDataPos (pch.take nCopy)
  return ({ msg with vRecv, nDataPos := msg.nDataPos + nCopy }, some nCopy)

/-- What `ReceiveMsgBytes` does to absorb network data. -/
def absorb (msg : CNetMessage) (pch : Bytes) : Receiving (CNetMessage × Option Nat) :=
  if msg.inData then msg.readData pch else msg.readHeader pch

end CNetMessage

/-- The messages before the one that is being read, and that message. -/
def currentMessage (pchMessageStart : Bytes) (vRecvMsg : List CNetMessage) :
    List CNetMessage × CNetMessage :=
  match vRecvMsg.getLast? with
  | none => (vRecvMsg, .create pchMessageStart)
  | some back =>
      if back.complete then (vRecvMsg, .create pchMessageStart) else (vRecvMsg.dropLast, back)

/-- The loop of `ReceiveMsgBytes`, with at most so many rounds. -/
def receiveLoop (pchMessageStart : Bytes) :
    Nat → List CNetMessage → Bytes → Receiving (List CNetMessage × Bool)
  | 0, vRecvMsg, pch => if pch = [] then .ok (vRecvMsg, true) else .error .endless
  | fuel + 1, vRecvMsg, pch =>
      if pch = [] then .ok (vRecvMsg, true)
      else do
        let (before, msg) := currentMessage pchMessageStart vRecvMsg
        let (msg, handled) ← msg.absorb pch
        match handled with
        | none => return (before ++ [msg], false)
        | some handled =>
            if msg.inData ∧ msg.hdr.nMessageSize.toNat > maxProtocolMessageLength then
              return (before ++ [msg], false)
            else receiveLoop pchMessageStart fuel (before ++ [msg]) (pch.drop handled)

def receiveMsgBytes (pchMessageStart : Bytes) (vRecvMsg : List CNetMessage) (pch : Bytes) :
    Receiving (List CNetMessage × Bool) :=
  receiveLoop pchMessageStart pch.length vRecvMsg pch

/-- The socket thread: a peer whose bytes are refused is disconnected. -/
def receiveChunks (pchMessageStart : Bytes) :
    List CNetMessage → List Bytes → Receiving (List CNetMessage × Bool)
  | vRecvMsg, [] => .ok (vRecvMsg, true)
  | vRecvMsg, chunk :: chunks => do
      let (vRecvMsg, accepted) ← receiveMsgBytes pchMessageStart vRecvMsg chunk
      if accepted then receiveChunks pchMessageStart vRecvMsg chunks
      else return (vRecvMsg, false)

end RoiCoin
