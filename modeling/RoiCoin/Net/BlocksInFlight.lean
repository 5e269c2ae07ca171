import RoiCoin.Lib.Tally
import RoiCoin.ArithUint256

/-! Blocks that are requested from peers (`InitializeNode`, `FinalizeNode`, `MarkBlockAsReceived`,
`MarkBlockAsInFlight`).

An element of a list is named by its iterator, and no two elements that ever were have the same one.
Orphan transactions are not modelled. -/

namespace RoiCoin

abbrev NodeId := Int

structure QueuedBlock where
  hash : Uint256
  pindex : Option Uint256
  nTime : Int
  fValidatedHeaders : Bool
  nTimeDisconnect : Int
  deriving DecidableEq, Repr

/-- An element of a list of queued blocks with the iterator that points at it. -/
abbrev QueuedElement := Nat × QueuedBlock

structure CNodeState where
  address : String
  name : String
  fCurrentlyConnected : Bool
  nMisbehavior : Int
  fSyncStarted : Bool
  nStallingSince : Int
  vBlocksInFlight : List QueuedElement
  nBlocksInFlight : Int
  nBlocksInFlightValidHeaders : Int
  fPreferredDownload : Bool
  deriving DecidableEq, Repr

/-- `CNodeState()` -/
def CNodeState.blank : CNodeState := ⟨"", "", false, 0, false, 0, [], 0, 0, false⟩

def boolInt (flag : Bool) : Int := if flag then 1 else 0

namespace CNodeState

/-- An element leaves the list, and the counters follow. -/
def dequeue (state : CNodeState) (it : Nat) (entry : QueuedBlock) : CNodeState :=
  { state with
    nBlocksInFlightValidHeaders :=
      state.nBlocksInFlightValidHeaders - boolInt entry.fValidatedHeaders
    vBlocksInFlight := state.vBlocksInFlight.filter fun element => element.1 ≠ it
    nBlocksInFlight := state.nBlocksInFlight - 1
    nStallingSince := 0 }

/-- An element comes to the end of the list. -/
def enqueue (state : CNodeState) (it : Nat) (newentry : QueuedBlock) : CNodeState :=
  { state with
    vBlocksInFlight := state.vBlocksInFlight ++ [(it, newentry)]
    nBlocksInFlight := state.nBlocksInFlight + 1
    nBlocksInFlightValidHeaders :=
      state.nBlocksInFlightValidHeaders + boolInt newentry.fValidatedHeaders }

end CNodeState

/-- The variables of the anonymous namespace; `nextIterator` names the next list element. -/
structure InFlight where
  mapNodeState : AList fun _ : NodeId => CNodeState
  mapBlocksInFlight : AList fun _ : Uint256 => NodeId × Nat
  nQueuedValidatedHeaders : Int
  nSyncStarted : Int
  nPreferredDownload : Int
  nextIterator : Nat

def getBlockTimeout (nPowTargetSpacing nTime nValidatedQueuedBefore : Int) : Int :=
  nTime + 500000 * nPowTargetSpacing * (4 + nValidatedQueuedBefore)

namespace InFlight

def start : InFlight := ⟨∅, ∅, 0, 0, 0, 0⟩

/-- An existing state is kept, with a new name and address. -/
def initializeNode (st : InFlight) (nodeid : NodeId) (addrName addr : String) : InFlight :=
  let state := (st.mapNodeState.lookup nodeid).getD .blank
  { st with
    mapNodeState := st.mapNodeState.insert nodeid { state with name := addrName, address := addr } }

/-- The state after the call, and the address to mark as connected; `none` is a null pointer that is
followed. -/
def finalizeNode (st : InFlight) (nodeid : NodeId) : Option (InFlight × Option String) :=
  match st.mapNodeState.lookup nodeid with
  | none => none
  | some state =>
      let connected :=
        if state.nMisbehavior = 0 ∧ state.fCurrentlyConnected = true then some state.address
        else none
      some ({ st with
        nSyncStarted := st.nSyncStarted - boolInt state.fSyncStarted
        mapBlocksInFlight := state.vBlocksInFlight.foldl
          (fun map element => map.erase element.2.hash) st.mapBlocksInFlight
        nPreferredDownload := st.nPreferredDownload - boolInt state.fPreferredDownload
        mapNodeState := st.mapNodeState.erase nodeid }, connected)

/-- `none` is a null pointer or a dangling iterator that is followed. -/
def markBlockAsReceived (st : InFlight) (hash : Uint256) : Option (InFlight × Bool) :=
  match st.mapBlocksInFlight.lookup hash with
  | none => some (st, false)
  | some (nodeid, it) =>
      match st.mapNodeState.lookup nodeid with
      | none => none
      | some state =>
          match state.vBlocksInFlight.find? fun element => element.1 = it with
          | none => none
          | some (_, entry) =>
              some ({ st with
                nQueuedValidatedHeaders :=
                  st.nQueuedValidatedHeaders - boolInt entry.fValidatedHeaders
                mapNodeState := st.mapNodeState.insert nodeid (state.dequeue it entry)
                mapBlocksInFlight := st.mapBlocksInFlight.erase hash }, true)

/-- What `MarkBlockAsInFlight` adds, once the block is listed nowhere. -/
def enqueue (st : InFlight) (nPowTargetSpacing nNow : Int) (nodeid : NodeId) (state : CNodeState)
    (hash : Uint256) (pindex : Option Uint256) : InFlight :=
  let newentry : QueuedBlock := ⟨hash, pindex, nNow, pindex.isSome,
    getBlockTimeout nPowTargetSpacing nNow st.nQueuedValidatedHeaders⟩
  { st with
    nQueuedValidatedHeaders := st.nQueuedValidatedHeaders + boolInt newentry.fValidatedHeaders
    mapNodeState := st.mapNodeState.insert nodeid (state.enqueue st.nextIterator newentry)
    mapBlocksInFlight := st.mapBlocksInFlight.insert hash (nodeid, st.nextIterator)
    nextIterator := st.nextIterator + 1 }

/-- `none` is the failed assertion that the peer has a state, or what `MarkBlockAsReceived` meets. -/
def markBlockAsInFlight (st : InFlight) (nPowTargetSpacing nNow : Int) (nodeid : NodeId)
    (hash : Uint256) (pindex : Option Uint256) : Option InFlight :=
  match st.mapNodeState.lookup nodeid, st.markBlockAsReceived hash with
  | some _, some (st, _) =>
      (st.mapNodeState.lookup nodeid).map fun state =>
        st.enqueue nPowTargetSpacing nNow nodeid state hash pindex
  | _, _ => none

end InFlight

inductive InFlightStep where
  | initializeNode (nodeid : NodeId) (addrName addr : String)
  | finalizeNode (nodeid : NodeId)
  | markBlockAsReceived (hash : Uint256)
  | markBlockAsInFlight (nodeid : NodeId) (nNow : Int) (hash : Uint256) (pindex : Option Uint256)
  deriving DecidableEq, Repr

def InFlightStep.run (nPowTargetSpacing : Int) (st : InFlight) : InFlightStep → Option InFlight
  | initializeNode nodeid addrName addr => some (st.initializeNode nodeid addrName addr)
  | finalizeNode nodeid => (st.finalizeNode nodeid).map Prod.fst
  | markBlockAsReceived hash => (st.markBlockAsReceived hash).map Prod.fst
  | markBlockAsInFlight nodeid nNow hash pindex =>
      st.markBlockAsInFlight nPowTargetSpacing nNow nodeid hash pindex

def runInFlight (nPowTargetSpacing : Int) (st : InFlight) : List InFlightStep → Option InFlight
  | [] => some st
  | step :: steps => (step.run nPowTargetSpacing st).bind fun st => runInFlight nPowTargetSpacing st steps

/-! ## The bookkeeping -/

namespace CNodeState

/-- The iterator points at an element for the block. -/
def lists (state : CNodeState) (it : Nat) (hash : Uint256) : Prop :=
  ∃ entry, (it, entry) ∈ state.vBlocksInFlight ∧ entry.hash = hash

/-- The number of validated entries of the list. -/
def validated (state : CNodeState) : Nat :=
  state.vBlocksInFlight.countP fun element => element.2.fValidatedHeaders

/-- The list has every element once, and the counters count it. -/
structure Counted (state : CNodeState) : Prop where
  distinct : (state.vBlocksInFlight.map Prod.fst).Nodup
  hashes : (state.vBlocksInFlight.map fun element => element.2.hash).Nodup
  count : state.nBlocksInFlight = state.vBlocksInFlight.length
  valid : state.nBlocksInFlightValidHeaders = state.validated

end CNodeState

namespace InFlight

/-- The validated entries of all lists. -/
def totalValidated (st : InFlight) : Nat := Tally.total CNodeState.validated st.mapNodeState

/-- The map and the lists name the same blocks, each by its own element. -/
structure Listed (st : InFlight) : Prop where
  own : ∀ hash nodeid it, st.mapBlocksInFlight.lookup hash = some (nodeid, it) ↔
    ∃ state, st.mapNodeState.lookup nodeid = some state ∧ state.lists it hash
  counted : ∀ nodeid state, st.mapNodeState.lookup nodeid = some state → state.Counted
  fresh : ∀ nodeid state, st.mapNodeState.lookup nodeid = some state →
    ∀ element ∈ state.vBlocksInFlight, element.1 < st.nextIterator

/-- The four indices and counters agree. -/
structure Consistent (st : InFlight) : Prop where
  listed : Listed st
  queued : st.nQueuedValidatedHeaders = st.totalValidated

end InFlight

end RoiCoin
