import RoiCoin.ForkPoints
import RoiCoin.Net.BlocksInFlight

/-! Which blocks to request from a peer (`ProcessBlockAvailability`, `FindNextBlocksToDownload`).

The state of a peer is here what these functions use of it, and a null hash is zero. A result is
missing where the source would read through a null pointer. -/

namespace RoiCoin

open Branches

def blockDownloadWindow : Nat := 1024

/-- The blocks a `CNodeState` knows of its peer. -/
structure PeerBlocks where
  pindexBestKnownBlock : Option Uint256
  hashLastUnknownBlock : Uint256
  pindexLastCommonBlock : Option Uint256
  deriving DecidableEq, Repr

/-- The block tree, and the peer and the list element for each block in flight. -/
structure DownloadView where
  tree : ChainState
  mapBlocksInFlight : AList fun _ : Uint256 => NodeId × Nat

namespace DownloadView

variable (s : DownloadView)

/-- `chainActive`, with the genesis block first. -/
def vChain : CChain := s.tree.chainActive.reverse.map some

/-- The peer's last unknown block may have become known. -/
def processBlockAvailability (state : PeerBlocks) : PeerBlocks :=
  if state.hashLastUnknownBlock ≠ 0 then
    if s.tree.blockMap.Known state.hashLastUnknownBlock ∧
        s.tree.nChainWork state.hashLastUnknownBlock > 0 then
      let better :=
        match state.pindexBestKnownBlock with
        | none => true
        | some best =>
            decide (s.tree.nChainWork state.hashLastUnknownBlock ≥ s.tree.nChainWork best)
      { state with
        pindexBestKnownBlock :=
          if better then some state.hashLastUnknownBlock else state.pindexBestKnownBlock
        hashLastUnknownBlock := 0 }
    else state
  else state

/-! ## The fetch loop -/

/-- The variables of the loop. `earlier` keeps the values that `pindexLastCommonBlock` had in the
loop before, the latest first; nothing in the source reads it. -/
structure Fetching where
  pindexLastCommonBlock : Uint256
  earlier : List Uint256
  vBlocks : List Uint256
  waitingfor : NodeId
  deriving DecidableEq, Repr

/-- How the loop is left in the middle. -/
inductive Exit where
  /-- A return, with what is written to `nodeStaller` before. -/
  | returns (f : Fetching) (nodeStaller : Option NodeId)
  | nullPointer
  deriving DecidableEq, Repr

/-- `waitingfor` when no block in flight was met yet. -/
def noNode : NodeId := -1

/-- The body of the inner loop. -/
def fetchBlock (nodeid : NodeId) (count nWindowEnd : Nat) (f : Fetching) :
    Option Uint256 → Except Exit Fetching
  | none => .error .nullPointer
  | some pindex =>
      if (s.tree.nStatus pindex).isValid blockValidTree = false then
        -- the chain that the peer is on is considered invalid
        .error (.returns f none)
      else if s.tree.haveData pindex = true ∨
          s.tree.blockMap.contains s.vChain pindex = true then
        .ok (if s.tree.nChainTx pindex ≠ 0 then
            { f with
              pindexLastCommonBlock := pindex
              earlier := f.pindexLastCommonBlock :: f.earlier }
          else f)
      else
        match s.mapBlocksInFlight.lookup pindex with
        | none =>
            if s.tree.nHeight pindex > nWindowEnd then
              .error (.returns f
                (if f.vBlocks.length = 0 ∧ f.waitingfor ≠ nodeid then some f.waitingfor else none))
            else
              let f := { f with vBlocks := f.vBlocks ++ [pindex] }
              if f.vBlocks.length = count then .error (.returns f none) else .ok f
        | some (holder, _) =>
            .ok (if f.waitingfor = noNode then { f with waitingfor := holder } else f)

/-- `vToFetch`, filled from its end by the pointers to the parents. -/
def readBack : Nat → Option Uint256 → Option (List (Option Uint256))
  | 0, _ => none
  | 1, pindex => some [pindex]
  | n + 2, pindex =>
      pindex.bind fun p =>
        (readBack (n + 1) (s.tree.blockMap.pprev p)).map fun vToFetch => vToFetch ++ [pindex]

/-- `nToFetch`; the difference of the counts becomes an `int`. -/
def numberToFetch (nMaxHeight nHeight count size : Nat) : Nat :=
  (min ((nMaxHeight : Int) - nHeight)
    (max (BitVec.ofInt 32 ((count : Int) - size)).toInt 128)).toNat

/-- A result that is missing stops the loop. -/
def orNull {α : Type} : Option α → Except Exit α
  | none => .error .nullPointer
  | some a => .ok a

/-- One turn of the outer loop: a batch of successors of `pindexWalk` up to the new `pindexWalk`. -/
def fetchBatch (nodeid : NodeId) (count nWindowEnd nMaxHeight : Nat) (best pindexWalk : Uint256)
    (f : Fetching) : Except Exit (Option Uint256 × Fetching) := do
  let nHeight := s.tree.nHeight pindexWalk
  let nToFetch := numberToFetch nMaxHeight nHeight count f.vBlocks.length
  let pindexWalk ← orNull (s.tree.blockMap.getAncestor best (nHeight + nToFetch))
  let vToFetch ← orNull (s.readBack nToFetch pindexWalk)
  let f ← vToFetch.foldlM (s.fetchBlock nodeid count nWindowEnd) f
  return (pindexWalk, f)

/-- Every turn goes up by a block at least. -/
def fetchLoop (nodeid : NodeId) (count nWindowEnd nMaxHeight : Nat) (best : Uint256) :
    Nat → Option Uint256 → Fetching → Except Exit Fetching
  | 0, _, _ => .error .nullPointer
  | _ + 1, none, _ => .error .nullPointer
  | fuel + 1, some pindexWalk, f =>
      if s.tree.nHeight pindexWalk < nMaxHeight then do
        let (pindexWalk, f) ← s.fetchBatch nodeid count nWindowEnd nMaxHeight best pindexWalk f
        fetchLoop nodeid count nWindowEnd nMaxHeight best fuel pindexWalk f
      else .ok f

/-- What the call leaves: the state of the peer, the blocks, what is written to `nodeStaller`, and
the values that `pindexLastCommonBlock` had in the loop. -/
structure Found where
  state : PeerBlocks
  vBlocks : List Uint256
  nodeStaller : Option NodeId
  earlier : List Uint256
  deriving DecidableEq, Repr

def finish (state : PeerBlocks) (f : Fetching) (nodeStaller : Option NodeId) : Found :=
  ⟨{ state with pindexLastCommonBlock := some f.pindexLastCommonBlock }, f.vBlocks, nodeStaller,
    f.earlier⟩

/-- The loop from the last common block on. -/
def fetchFrom (nodeid : NodeId) (count : Nat) (state : PeerBlocks) (best last : Uint256)
    (vBlocks : List Uint256) : Option Found :=
  let nWindowEnd := s.tree.nHeight last + blockDownloadWindow
  let nMaxHeight := min (s.tree.nHeight best) (nWindowEnd + 1)
  match s.fetchLoop nodeid count nWindowEnd nMaxHeight best (nMaxHeight + 1) (some last)
      ⟨last, [], vBlocks, noNode⟩ with
  | .ok f => some (finish state f none)
  | .error (.returns f nodeStaller) => some (finish state f nodeStaller)
  | .error .nullPointer => none

/-- `pindexLastCommonBlock`, or where there is none a guess. -/
def guessLastCommon (state : PeerBlocks) (best : Uint256) : Option Uint256 :=
  match state.pindexLastCommonBlock with
  | none => s.vChain.entryAt (min (s.tree.nHeight best : Int) s.vChain.height)
  | some last => some last

/-- The last common block that the loop starts from. -/
def rebaseLastCommon (state : PeerBlocks) (best : Uint256) : Option Uint256 :=
  (s.guessLastCommon state best).bind fun last =>
    (s.tree.blockMap.lastCommonAncestor last best).bind id

/-- `state` is the state of the peer, which there must be. -/
def findNextBlocksToDownload (nodeid : NodeId) (count : BitVec 32) (state : PeerBlocks)
    (vBlocks : List Uint256) : Option Found :=
  if count.toNat = 0 then some ⟨state, vBlocks, none, []⟩
  else
    let state := s.processBlockAvailability state
    match state.pindexBestKnownBlock with
    | none => some ⟨state, vBlocks, none, []⟩
    | some best =>
        s.vChain.tip.bind fun tip =>
          if s.tree.nChainWork best < s.tree.nChainWork tip then some ⟨state, vBlocks, none, []⟩
          else
            (s.rebaseLastCommon state best).bind fun last =>
              if last = best then
                some ⟨{ state with pindexLastCommonBlock := some last }, vBlocks, none, []⟩
              else s.fetchFrom nodeid count.toNat state best last vBlocks

end DownloadView

end RoiCoin
