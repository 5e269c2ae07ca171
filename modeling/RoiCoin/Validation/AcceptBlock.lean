import RoiCoin.BlockTree

/-! Storing headers and blocks in the block tree (`AcceptBlockHeader`, `AcceptBlock`,
`AddToBlockIndex`, `ReceivedBlockTransactions`).

The checks of a block and of its header are inputs; so is whether its data could be written. -/

namespace RoiCoin

def minBlocksToKeep : Nat := 720

/-- The outcome of `CheckBlock` and `ContextualCheckBlock`. -/
inductive BlockVerdict where
  | valid
  | invalid
  /-- The block may have been damaged on the way. -/
  | corrupt
  deriving DecidableEq, Repr

/-- A block as it arrives. -/
structure OfferedBlock where
  hash : Uint256
  hashPrevBlock : Uint256
  nBits : BitVec 32
  /-- `vtx.size()` -/
  nTx : Nat
  /-- `CheckBlockHeader` -/
  checkHeader : Bool
  /-- `ContextualCheckBlockHeader`, which accepts the genesis block. -/
  contextualHeader : Bool
  check : BlockVerdict
  fRequested : Bool
  /-- `FindBlockPos` finds room and writing does not throw; the file is `nFile`. -/
  written : Bool
  nFile : Nat
  deriving DecidableEq, Repr

namespace ChainState

section Accept

variable (w : Surroundings)

/-- `AddToBlockIndex` for a hash that is not known. -/
def addToBlockIndex (s : ChainState) (block : OfferedBlock) : ChainState :=
  let pprev := if block.hashPrevBlock ∈ s.known then some block.hashPrevBlock else none
  let nHeight := pprev.elim 0 fun pprev => s.nHeight pprev + 1
  { s with
    known := block.hash :: s.known
    entry := Function.update s.entry block.hash {
      pprev
      pskip := pprev.bind fun pprev => s.getAncestor pprev (getSkipHeight nHeight)
      nHeight
      nFile := 0
      nBits := block.nBits
      nChainWork := pprev.elim 0 s.nChainWork + getBlockProof block.nBits
      nTx := 0
      nChainTx := 0
      nStatus := BlockStatus.raiseValidity ⟨0, false, false, false, false⟩ blockValidTree
      nSequenceId := 0 } }

/-- The hash gets its entry between the two states. -/
def Enters (before after : ChainState) (hash : Uint256) : Prop :=
  hash ∉ before.known ∧ hash ∈ after.known

instance (before after : ChainState) (hash : Uint256) : Decidable (Enters before after hash) :=
  inferInstanceAs (Decidable (_ ∧ _))

def acceptBlockHeader (s : ChainState) (block : OfferedBlock) : ChainState × Bool :=
  if block.hash ∈ s.known then (s, !s.failed block.hash)
  else if !block.checkHeader then (s, false)
  else if block.hash = w.hashGenesisBlock then (s.addToBlockIndex block, true)
  else if block.hashPrevBlock ∉ s.known then (s, false)
  else if s.failed block.hashPrevBlock then (s, false)
  else if !block.contextualHeader then (s, false)
  else (s.addToBlockIndex block, true)

/-- `chainActive.Tip() == NULL`, or the entry does not sort before the tip. -/
def notWorse (s : ChainState) (pindex : Uint256) : Bool :=
  s.tip.elim true fun tip => !workComparator w s pindex tip

/-- The transactions of the chain up to the parent. -/
def parentChainTx (s : ChainState) (pindex : Uint256) : Nat := (s.pprev pindex).elim 0 s.nChainTx

/-- One turn of the loop: the entry is linked, and its children that waited for it are returned. -/
def linkOne (s : ChainState) (pindex : Uint256) : ChainState × List Uint256 :=
  let s := s.modify pindex fun entry =>
    { entry with
      nChainTx := s.parentChainTx pindex + entry.nTx
      nSequenceId := s.nBlockSequenceId }
  let s := { s with nBlockSequenceId := s.nBlockSequenceId + 1 }
  let s := if s.notWorse w pindex then s.insertCandidate pindex else s
  let range := (s.mapBlocksUnlinked.filter fun pair => pair.1 = pindex).map Prod.snd
  ({ s with mapBlocksUnlinked := s.mapBlocksUnlinked.filter fun pair => pair.1 ≠ pindex }, range)

/-- The loop of `ReceivedBlockTransactions`; every turn takes one entry from the queue, and what
comes in leaves `mapBlocksUnlinked`. -/
def linkQueue : Nat → ChainState → List Uint256 → ChainState
  | 0, s, _ => s
  | _ + 1, s, [] => s
  | fuel + 1, s, pindex :: queue =>
      let (s, range) := s.linkOne w pindex
      linkQueue fuel s (queue ++ range)

def receivedBlockTransactions (s : ChainState) (nTx nFile : Nat) (pindexNew : Uint256) :
    ChainState :=
  let s := s.modify pindexNew fun entry =>
    { entry with
      nTx, nChainTx := 0, nFile
      nStatus := BlockStatus.raiseValidity { entry.nStatus with haveData := true }
        blockValidTransactions }
  match s.pprev pindexNew with
  | none => s.linkQueue w (s.mapBlocksUnlinked.length + 1) [pindexNew]
  | some pprev =>
      if s.nChainTx pprev ≠ 0 then s.linkQueue w (s.mapBlocksUnlinked.length + 1) [pindexNew]
      else if (s.nStatus pprev).isValid blockValidTree then s.insertUnlinked pindexNew
      else s

/-- `pindex->nStatus |= BLOCK_FAILED_VALID` -/
def setFailedValid (s : ChainState) (pindex : Uint256) : ChainState :=
  s.modify pindex fun entry => { entry with nStatus := { entry.nStatus with failedValid := true } }

/-- A block that nobody asked for is not processed unless it is new, has more work than the tip and
is not too far ahead. -/
def unwanted (s : ChainState) (pindex : Uint256) : Bool :=
  s.nTx pindex != 0 ||
    (s.tip.elim false fun tip => decide (s.nChainWork pindex ≤ s.nChainWork tip)) ||
    decide (s.nHeight pindex + 1 > s.chainActive.length + minBlocksToKeep)

/-- A block without transactions does not pass `CheckBlock`. -/
def acceptBlock (s : ChainState) (block : OfferedBlock) : ChainState × Bool :=
  let (s, known) := s.acceptBlockHeader w block
  if !known then (s, false)
  else if s.haveData block.hash then (s, true)
  else if !block.fRequested && s.unwanted block.hash then (s, true)
  else if block.check = .invalid ∨ block.nTx = 0 then (s.setFailedValid block.hash, false)
  else if block.check = .corrupt then (s, false)
  else if !block.written then (s, false)
  else (s.receivedBlockTransactions w block.nTx block.nFile block.hash, true)

end Accept

end ChainState

end RoiCoin
