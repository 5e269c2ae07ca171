import RoiCoin.Validation.StoreBlock
import RoiCoin.Validation.Tips

/-! `ConnectTip` and `DisconnectTip` with everything they can fail in, and the coins view beside the
active chain.

`none` is a call that does not return: an assertion fails, an exception leaves it, or a null pointer
is followed. -/

namespace RoiCoin

open Checked FlatView

/-- What a call finds on the disk: the block and the undo data, as far as they can be read, and
which of its writes succeed. -/
structure TipTrial where
  block : Option CBlock
  blockUndo : Option CBlockUndo
  undo : UndoTrial
  txIndexFails : Bool
  flush : FlushTrial

/-- The structures that move at the tip of the chain. -/
structure TipState where
  storage : Storage
  mempool : CTxMemPool

/-- A call up to `FlushStateToDisk`: it returns false, or the view is merged into `pcoinsTip`. -/
inductive Applied where
  | failed (node : TipState)
  | merged (node : TipState) (block : CBlock)

/-- Does a function that fails so return? -/
def Failure.returns : Failure → Bool
  | .invalid _ => true
  | .refused => true
  | _ => false

/-- `InvalidBlockFound`, for a block that cannot have been damaged. -/
def BlockStore.invalidBlockFound (store : BlockStore) (pindex : Uint256) : Option BlockStore :=
  match store.chain.tip with
  | none => none
  | some _ =>
      some (store.touch pindex fun chain => (chain.setFailedValid pindex).eraseCandidate pindex)

/-- `ConnectBlock` with what it writes: the files, and the view or why there is none. -/
def connectBlockStored (env : Environment) (config : StorageConfig) (trial : TipTrial)
    (block : CBlock) (pindexNew : Uint256) (pindex : CBlockIndex) (files : BlockStore)
    (view : FlatView) : BlockStore × Checking FlatView :=
  match connectBlock env block pindex view false with
  | .error failure => (files, .error failure)
  | .ok connected =>
      match connected.blockundo with
      | none => (files, .ok connected.view)
      | some blockundo =>
          let (files, written) := files.writeUndo config trial.undo
            (writeBlockUndo config.curve blockundo).length pindexNew
          if !written || trial.txIndexFails then (files, .error .refused)
          else (files, .ok connected.view)

namespace TipState

def chain (node : TipState) : ChainState := node.storage.files.chain

def pcoinsTip (node : TipState) : FlatView := node.storage.pcoinsTip

def withFiles (node : TipState) (files : BlockStore) : TipState :=
  { node with storage := { node.storage with files } }

/-- `view.Flush()` -/
def withView (node : TipState) (view : FlatView) : TipState :=
  { node with storage := { node.storage with pcoinsTip := view } }

/-- `chainActive.Height()` is one less than the length of the chain. -/
def environment (env : Environment) (node : TipState) : Environment :=
  env.at (node.chain.chainActive.length - 1)

/-- What `ConnectTip` does when `ConnectBlock` returns false. -/
def connectFailed (node : TipState) (pindexNew : Uint256) : Failure → Option Applied
  | .invalid rejection =>
      if rejection.corruptionPossible then some (.failed node)
      else
        (node.storage.files.invalidBlockFound pindexNew).map fun files =>
          .failed (node.withFiles files)
  | .refused => some (.failed node)
  | _ => none

/-- `ConnectTip` up to `FlushStateToDisk`. -/
def connectApply (env : Environment) (config : StorageConfig) (trial : TipTrial)
    (pindexNew : Uint256) (pblock : Option CBlock) (node : TipState) : Option Applied :=
  if node.chain.pprev pindexNew ≠ node.chain.tip then none
  else
    match env.mapBlockIndex pindexNew, pblock.or trial.block with
    | none, _ => none
    | some _, none => some (.failed node)
    | some pindex, some block =>
        match connectBlockStored (node.environment env) config trial block pindexNew pindex
          node.storage.files node.pcoinsTip with
        | (files, .error failure) => (node.withFiles files).connectFailed pindexNew failure
        | (files, .ok view) => some (.merged ((node.withFiles files).withView view) block)

/-- `GetUndoPos` and `UndoReadFromDisk`. -/
def undoRead (node : TipState) (trial : TipTrial) (pindexDelete : Uint256) :
    Checking CBlockUndo :=
  if (node.chain.nStatus pindexDelete).haveUndo = false then .error .refused
  else
    match node.chain.pprev pindexDelete, trial.blockUndo with
    | none, _ => .error .nullPointer
    | some _, none => .error .refused
    | some _, some blockUndo => .ok blockUndo

/-- `DisconnectTip` up to `FlushStateToDisk`. -/
def disconnectApply (env : Environment) (trial : TipTrial) (node : TipState) : Option Applied :=
  match node.chain.tip with
  | none => none
  | some pindexDelete =>
      match env.mapBlockIndex pindexDelete, trial.block with
      | none, _ => none
      | some _, none => some (.failed node)
      | some pindex, some block =>
          match disconnectBlockWith (node.environment env) block pindex node.pcoinsTip
            (node.undoRead trial pindexDelete) with
          | .error failure => if failure.returns then some (.failed node) else none
          | .ok disconnected =>
              if disconnected.fClean then some (.merged (node.withView disconnected.view) block)
              else some (.failed node)

/-- `UpdateTip` reads the new tip. -/
def updateTip (node : TipState) (pindexNew : Option Uint256) (mempool : CTxMemPool) :
    Option TipState :=
  pindexNew.map fun pindexNew =>
    { storage := { node.storage with
        files := { node.storage.files with chain := node.chain.setTip (some pindexNew) } }
      mempool }

/-- `ConnectTip` after `FlushStateToDisk`. -/
def connectFinish (env : Environment) (pindexNew : Uint256) (block : CBlock) (node : TipState) :
    Option TipState :=
  node.updateTip (some pindexNew) (node.mempool.removeForBlock env.getHash block.vtx)

/-- `DisconnectTip` after `FlushStateToDisk`. -/
def disconnectFinish (env : Environment) (policy : RelayPolicy) (block : CBlock)
    (node : TipState) : Option TipState :=
  match node.chain.tip with
  | none => none
  | some pindexDelete =>
      match resurrectAll (node.environment env) policy node.pcoinsTip node.mempool block.vtx with
      | .error _ => none
      | .ok pool =>
          node.updateTip (node.chain.pprev pindexDelete)
            (pool.removeCoinbaseSpends env.getHash node.pcoinsTip
              (node.chain.nHeight pindexDelete))

end TipState

inductive TipCall where
  | connectTip (pindexNew : Uint256) (pblock : Option CBlock)
  | disconnectTip (policy : RelayPolicy)

namespace TipCall

def apply (env : Environment) (config : StorageConfig) (trial : TipTrial) (node : TipState) :
    TipCall → Option Applied
  | connectTip pindexNew pblock => node.connectApply env config trial pindexNew pblock
  | disconnectTip _ => node.disconnectApply env trial

def finish (env : Environment) (block : CBlock) (node : TipState) : TipCall → Option TipState
  | connectTip pindexNew _ => node.connectFinish env pindexNew block
  | disconnectTip policy => node.disconnectFinish env policy block

/-- The state after the call, and what it returns. -/
def run (env : Environment) (config : StorageConfig) (trial : TipTrial) (node : TipState)
    (call : TipCall) : Option (TipState × Bool) :=
  match call.apply env config trial node with
  | none => none
  | some (.failed node) => some (node, false)
  | some (.merged node block) =>
      match node.storage.flushStateToDisk config trial.flush .ifNeeded with
      | (storage, false) => some ({ node with storage }, false)
      | (storage, true) => (call.finish env block { node with storage }).map (·, true)

end TipCall

end RoiCoin
