import RoiCoin.Block
import RoiCoin.Lib.Branches
import Mathlib.Data.List.MinMax
import Mathlib.Data.Prod.Lex
import Mathlib.Order.OrderDual
import Mathlib.Logic.Function.Basic

/-! The block index in memory (`mapBlockIndex`, `CBlockIndex`, `CChain`) and the order of its
entries.

Entries are named by their hashes. Transaction counts and heights are natural numbers; the sequence
counter and the chain work wrap as in the source. -/

namespace RoiCoin

open ArithUint256 Branches

/-- `nStatus`: the validity level and the flags. -/
structure BlockStatus where
  valid : Nat
  haveData : Bool
  haveUndo : Bool
  failedValid : Bool
  failedChild : Bool
  deriving DecidableEq, Repr

def blockValidTree : Nat := 2
def blockValidTransactions : Nat := 3
def blockValidChain : Nat := 4
def blockValidScripts : Nat := 5

namespace BlockStatus

/-- `nStatus & BLOCK_FAILED_MASK` -/
def failed (nStatus : BlockStatus) : Bool := nStatus.failedValid || nStatus.failedChild

def isValid (nStatus : BlockStatus) (nUpTo : Nat) : Bool :=
  !nStatus.failed && decide (nUpTo ≤ nStatus.valid)

def raiseValidity (nStatus : BlockStatus) (nUpTo : Nat) : BlockStatus :=
  if nStatus.failed then nStatus
  else if nStatus.valid < nUpTo then { nStatus with valid := nUpTo }
  else nStatus

end BlockStatus

/-- The fields of a `CBlockIndex` that place it in the tree. -/
structure BlockEntry where
  pprev : Option Uint256
  pskip : Option Uint256
  nHeight : Nat
  nFile : Nat
  nBits : BitVec 32
  nChainWork : Uint256
  nTx : Nat
  nChainTx : Nat
  nStatus : BlockStatus
  nSequenceId : BitVec 32
  deriving DecidableEq, Repr

/-- The global variables over the block tree. `known` lists the keys of `mapBlockIndex`; the active
chain has its tip first. `trials` counts the attempts to connect or disconnect a block or to write
to disk, and `rejected` keeps what connecting found invalid, with the candidate on whose path it
lies; nothing in the source reads these two. -/
structure ChainState where
  known : List Uint256
  entry : Uint256 → BlockEntry
  setBlockIndexCandidates : List Uint256
  mapBlocksUnlinked : List (Uint256 × Uint256)
  chainActive : List Uint256
  nBlockSequenceId : BitVec 32
  fHavePruned : Bool
  trials : Nat
  rejected : List (Uint256 × Uint256)

def BlockEntry.blank : BlockEntry := ⟨none, none, 0, 0, 0, 0, 0, 0, ⟨0, false, false, false, false⟩, 0⟩

/-- Before the genesis block is stored. -/
def ChainState.start : ChainState := ⟨[], fun _ => .blank, [], [], [], 1, false, 0, []⟩

/-- `GetBlockProof` -/
def getBlockProof (nBits : BitVec 32) : Uint256 :=
  let bnTarget := setCompact nBits
  if bnTarget.fNegative || bnTarget.fOverflow || bnTarget.target == 0 then 0
  else ~~~bnTarget.target / (bnTarget.target + 1) + 1

/-- `InvertLowestOne` -/
def invertLowestOne (n : Nat) : Nat := n &&& (n - 1)

/-- `GetSkipHeight` -/
def getSkipHeight (height : Nat) : Nat :=
  if height < 2 then 0
  else if height % 2 = 1 then invertLowestOne (invertLowestOne (height - 1)) + 1
  else invertLowestOne height

namespace ChainState

section Fields

variable (s : ChainState) (pindex : Uint256)

def pprev : Option Uint256 := (s.entry pindex).pprev
def pskip : Option Uint256 := (s.entry pindex).pskip
def nHeight : Nat := (s.entry pindex).nHeight
def nChainWork : Uint256 := (s.entry pindex).nChainWork
def nTx : Nat := (s.entry pindex).nTx
def nChainTx : Nat := (s.entry pindex).nChainTx
def nStatus : BlockStatus := (s.entry pindex).nStatus
def nSequenceId : BitVec 32 := (s.entry pindex).nSequenceId

def haveData : Bool := (s.nStatus pindex).haveData
def failed : Bool := (s.nStatus pindex).failed

/-- An entry with all of its ancestors, down to the first block. -/
def branch : List Uint256 := Branches.branch s.pprev s.nHeight pindex

/-- `GetAncestor`: the skip pointers only shorten the walk. -/
def getAncestor (height : Nat) : Option Uint256 :=
  if height > s.nHeight pindex then none
  else (s.branch pindex).find? fun pindexWalk => s.nHeight pindexWalk = height

end Fields

/-- `chainActive.Tip()` -/
def tip (s : ChainState) : Option Uint256 := s.chainActive.head?

/-- `chainActive.SetTip(pindex)` -/
def setTip (s : ChainState) (pindex : Option Uint256) : ChainState :=
  { s with chainActive := pindex.elim [] s.branch }

theorem tip_set_tip (s : ChainState) (t : Option Uint256) : (s.setTip t).tip = t := by
  cases t with
  | none => rfl
  | some t => rfl

/-- Change one entry. -/
def modify (s : ChainState) (pindex : Uint256) (change : BlockEntry → BlockEntry) : ChainState :=
  { s with entry := Function.update s.entry pindex (change (s.entry pindex)) }

theorem modify_entry (s : ChainState) (pindex p : Uint256) (change : BlockEntry → BlockEntry) :
    (s.modify pindex change).entry p =
      if p = pindex then change (s.entry pindex) else s.entry p := by
  simp only [modify, Function.update_apply]

def insertCandidate (s : ChainState) (pindex : Uint256) : ChainState :=
  { s with setBlockIndexCandidates := s.setBlockIndexCandidates.insert pindex }

def eraseCandidate (s : ChainState) (pindex : Uint256) : ChainState :=
  { s with setBlockIndexCandidates := s.setBlockIndexCandidates.filter (· != pindex) }

def insertUnlinked (s : ChainState) (pindex : Uint256) : ChainState :=
  { s with mapBlocksUnlinked := ((s.pprev pindex).map (·, pindex)).toList ++ s.mapBlocksUnlinked }

/-- `chainActive.FindFork(pindex)`: jumping to the height of the active chain first only shortens
the walk. -/
def findFork (s : ChainState) (pindex : Uint256) : Option Uint256 :=
  (s.branch pindex).find? fun pindex => s.chainActive.contains pindex

end ChainState

/-! ## The order of the entries -/

/-- What else can go wrong in a trial. -/
inductive Trouble where
  /-- The block was found invalid, but may have been damaged on the way. -/
  | corruption
  /-- Reading or writing fails. -/
  | system
  deriving DecidableEq, Repr

/-- What the process meets around the block tree: where an entry lies in memory, which blocks do not
connect on top of their ancestors, and the troubles. -/
structure Surroundings where
  hashGenesisBlock : Uint256
  address : Uint256 → Nat
  distinct : ∀ pa pb, address pa = address pb → pa = pb
  invalidBlock : Uint256 → Bool
  trouble : Nat → Option Trouble

/-- `CBlockIndexWorkComparator` -/
def workComparator (w : Surroundings) (s : ChainState) (pa pb : Uint256) : Bool :=
  if s.nChainWork pa > s.nChainWork pb then false
  else if s.nChainWork pa < s.nChainWork pb then true
  else if s.nSequenceId pa < s.nSequenceId pb then false
  else if s.nSequenceId pa > s.nSequenceId pb then true
  else if w.address pa < w.address pb then false
  else if w.address pa > w.address pb then true
  else false

/-- More work first, then the earlier sequence number, then the lower address. -/
def sortKey (w : Surroundings) (s : ChainState) (pindex : Uint256) : ℕ ×ₗ (ℕᵒᵈ ×ₗ ℕᵒᵈ) :=
  toLex ((s.nChainWork pindex).toNat,
    toLex (OrderDual.toDual (s.nSequenceId pindex).toNat, OrderDual.toDual (w.address pindex)))

/-- The entry at the end of `setBlockIndexCandidates`. -/
def ChainState.bestCandidate (w : Surroundings) (s : ChainState) : Option Uint256 :=
  s.setBlockIndexCandidates.argmax (sortKey w s)

theorem workComparator_iff (w : Surroundings) (s : ChainState) (pa pb : Uint256) :
    workComparator w s pa pb = true ↔ sortKey w s pa < sortKey w s pb := by
  have work : (s.nChainWork pa).toNat = (s.nChainWork pb).toNat ↔
      s.nChainWork pa = s.nChainWork pb := ⟨BitVec.eq_of_toNat_eq, congrArg _⟩
  have order : (s.nSequenceId pa).toNat = (s.nSequenceId pb).toNat ↔
      s.nSequenceId pa = s.nSequenceId pb := ⟨BitVec.eq_of_toNat_eq, congrArg _⟩
  simp only [workComparator, sortKey, Prod.Lex.toLex_lt_toLex, OrderDual.toDual_lt_toDual,
    OrderDual.toDual_inj, gt_iff_lt, BitVec.lt_def]
  split_ifs <;> simp <;> omega

theorem sortKey_injective (w : Surroundings) (s : ChainState) (pa pb : Uint256)
    (same : sortKey w s pa = sortKey w s pb) : pa = pb := by
  apply w.distinct
  simp only [sortKey, toLex_inj, Prod.mk.injEq, OrderDual.toDual_inj] at same
  exact same.2.2

end RoiCoin
