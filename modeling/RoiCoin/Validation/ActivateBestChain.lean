import RoiCoin.Validation.AcceptBlock

/-! Making the best chain active (`FindMostWorkChain`, `PruneBlockIndexCandidates`,
`ActivateBestChainStep`, `ActivateBestChain`).

`none` is a failed assertion, or a loop that is still running when its fuel is used up. A block that
is handed over together with its entry only saves reading it. -/

namespace RoiCoin

namespace ChainState

section Activate

variable (w : Surroundings)

/-! ## `FindMostWorkChain` -/

/-- The entries from a candidate down to the active chain. -/
def pathToActive (s : ChainState) (pindexNew : Uint256) : List Uint256 :=
  (s.branch pindexNew).takeWhile fun pindex => !s.chainActive.contains pindex

/-- Neither failed nor without data. -/
def usable (s : ChainState) (pindex : Uint256) : Bool := !s.failed pindex && s.haveData pindex

/-- One turn of the inner loop, for an entry above `pindexTest`. -/
def discardOne (fFailedChain : Bool) (s : ChainState) (pindexFailed : Uint256) : ChainState :=
  let s :=
    if fFailedChain then
      s.modify pindexFailed fun entry =>
        { entry with nStatus := { entry.nStatus with failedChild := true } }
    else s.insertUnlinked pindexFailed
  s.eraseCandidate pindexFailed

/-- Remove the part of a path above an unusable entry, and that entry, from the candidates. -/
def discard (s : ChainState) (above : List Uint256) (pindexTest : Uint256) : ChainState :=
  (above.foldl (discardOne (s.failed pindexTest)) s).eraseCandidate pindexTest

/-- `assert(pindexTest->nChainTx || pindexTest->nHeight == 0)` -/
def linkedOrFirst (s : ChainState) (pindexTest : Uint256) : Bool :=
  s.nChainTx pindexTest != 0 || s.nHeight pindexTest == 0

def findMostWorkLoop : Nat → ChainState → Option (ChainState × Option Uint256)
  | 0, _ => none
  | fuel + 1, s =>
      match s.bestCandidate w with
      | none => some (s, none)
      | some pindexNew =>
          let path := s.pathToActive pindexNew
          let above := path.takeWhile s.usable
          if !above.all s.linkedOrFirst then none
          else
            match path.drop above.length with
            | [] => some (s, some pindexNew)
            | pindexTest :: _ =>
                if !s.linkedOrFirst pindexTest then none
                else findMostWorkLoop fuel (s.discard above pindexTest)

/-- Every turn that goes on removes a candidate. -/
def findMostWorkChain (s : ChainState) : Option (ChainState × Option Uint256) :=
  findMostWorkLoop w (s.setBlockIndexCandidates.length + 1) s

/-- The set is sorted, so the entries before the tip are those that sort before it. -/
def pruneBlockIndexCandidates (s : ChainState) : Option ChainState :=
  match s.tip with
  | none => none
  | some tip =>
      let s := { s with setBlockIndexCandidates :=
        s.setBlockIndexCandidates.filter fun pindex => !workComparator w s pindex tip }
      if s.setBlockIndexCandidates = [] then none else some s

/-! ## `ActivateBestChainStep` -/

inductive TipResult where
  | done
  | invalid (corruptionPossible : Bool)
  | error
  deriving DecidableEq, Repr

def disconnectTip (s : ChainState) : Option (ChainState × TipResult) :=
  match s.tip with
  | none => none
  | some pindexDelete =>
      let trouble := w.trouble s.trials
      let s := { s with trials := s.trials + 1 }
      if trouble ≠ none ∨ s.haveData pindexDelete = false ∨
          (s.nStatus pindexDelete).haveUndo = false then some (s, .error)
      else some (s.setTip (s.pprev pindexDelete), .done)

/-- What `ConnectBlock` notes in the entry; the genesis block has no undo data. -/
def connected (s : ChainState) (pindex : Uint256) : ChainState :=
  if pindex = w.hashGenesisBlock then s
  else
    s.modify pindex fun entry =>
      { entry with
        nStatus := BlockStatus.raiseValidity { entry.nStatus with haveUndo := true }
          blockValidScripts }

/-- `InvalidBlockFound` asserts that there is a tip. -/
def invalidBlockFound (s : ChainState) (pindex : Uint256) : Option ChainState :=
  match s.tip with
  | none => none
  | some _ => some ((s.setFailedValid pindex).eraseCandidate pindex)

def connectTip (s : ChainState) (pindexNew : Uint256) : Option (ChainState × TipResult) :=
  if s.pprev pindexNew ≠ s.tip then none
  else
    let trouble := w.trouble s.trials
    let s := { s with trials := s.trials + 1 }
    if trouble = some .system ∨ s.haveData pindexNew = false then some (s, .error)
    else if trouble = some .corruption then some (s, .invalid true)
    else if w.invalidBlock pindexNew then
      (s.invalidBlockFound pindexNew).map fun s => (s, .invalid false)
    else some ((s.connected w pindexNew).setTip (some pindexNew), .done)

/-- Disconnect active blocks which are no longer in the best chain. -/
def disconnectTo (pindexFork : Option Uint256) : Nat → ChainState → Option (ChainState × TipResult)
  | 0, _ => none
  | fuel + 1, s =>
      if s.tip = none ∨ s.tip = pindexFork then some (s, .done)
      else
        match s.disconnectTip w with
        | none => none
        | some (s, .done) => disconnectTo pindexFork fuel s
        | some (s, result) => some (s, result)

/-- `vpindexToConnect`, from the lowest entry to the highest. -/
def toConnect (s : ChainState) (pindexMostWork : Uint256) (nHeight nTargetHeight : Int) :
    List Uint256 :=
  (((s.branch pindexMostWork).dropWhile fun pindex =>
      ((s.nHeight pindex : Int) != nTargetHeight)).takeWhile fun pindex =>
        ((s.nHeight pindex : Int) != nHeight)).reverse

/-- A better position than before. -/
def improved (s : ChainState) (pindexOldTip : Option Uint256) : Bool :=
  pindexOldTip.elim true fun pindexOldTip =>
    s.tip.elim false fun tip => decide (s.nChainWork tip > s.nChainWork pindexOldTip)

/-- What follows a connected batch of blocks. -/
inductive Batch where
  | more
  | stop
  | error
  deriving DecidableEq, Repr

/-- What connecting found invalid is kept with the candidate. -/
def note (s : ChainState) (pindexConnect pindexMostWork : Uint256) : ChainState :=
  { s with rejected := (pindexConnect, pindexMostWork) :: s.rejected }

/-- The loop over one batch. -/
def connectBatch (pindexMostWork : Uint256) (pindexOldTip : Option Uint256) :
    ChainState → List Uint256 → Option (ChainState × Batch)
  | s, [] => some (s, .more)
  | s, pindexConnect :: batch =>
      match s.connectTip w pindexConnect with
      | none => none
      | some (s, .error) => some (s, .error)
      | some (s, .invalid true) => some (s, .stop)
      | some (s, .invalid false) => some (s.note pindexConnect pindexMostWork, .stop)
      | some (s, .done) =>
          match s.pruneBlockIndexCandidates w with
          | none => none
          | some s =>
              if s.improved pindexOldTip then some (s, .stop)
              else connectBatch pindexMostWork pindexOldTip s batch

/-- The loop over the batches of at most 32 blocks. -/
def connectBatches (pindexMostWork : Uint256) (pindexOldTip : Option Uint256) :
    Nat → Int → ChainState → Option (ChainState × Bool)
  | 0, _, _ => none
  | fuel + 1, nHeight, s =>
      if nHeight = s.nHeight pindexMostWork then some (s, true)
      else
        let nTargetHeight := min (nHeight + 32) (s.nHeight pindexMostWork)
        match s.connectBatch w pindexMostWork pindexOldTip
          (s.toConnect pindexMostWork nHeight nTargetHeight) with
        | none => none
        | some (s, .error) => some (s, false)
        | some (s, .stop) => some (s, true)
        | some (s, .more) => connectBatches pindexMostWork pindexOldTip fuel nTargetHeight s

def activateBestChainStep (s : ChainState) (pindexMostWork : Uint256) :
    Option (ChainState × Bool) :=
  let pindexFork := s.findFork pindexMostWork
  let nHeight := pindexFork.elim (-1) fun pindexFork => (s.nHeight pindexFork : Int)
  match s.disconnectTo w pindexFork (s.chainActive.length + 1) with
  | none => none
  | some (below, .done) =>
      below.connectBatches w pindexMostWork s.tip (s.nHeight pindexMostWork + 2) nHeight
  | some (below, _) => some (below, false)

/-- `FlushStateToDisk` of a node that does not prune. -/
def flushStateToDisk (s : ChainState) : ChainState × Bool :=
  ({ s with trials := s.trials + 1 }, w.trouble s.trials != some .system)

def activateBestChain : Nat → ChainState → Option (ChainState × Bool)
  | 0, _ => none
  | fuel + 1, s =>
      match s.findMostWorkChain w with
      | none => none
      | some (s, none) => some (s, true)
      | some (s, some pindexMostWork) =>
          if s.tip = some pindexMostWork then some (s, true)
          else
            match s.activateBestChainStep w pindexMostWork with
            | none => none
            | some (s, false) => some (s, false)
            | some (s, true) =>
                if s.tip = some pindexMostWork then some (s.flushStateToDisk w)
                else activateBestChain fuel s

end Activate

end ChainState

end RoiCoin
