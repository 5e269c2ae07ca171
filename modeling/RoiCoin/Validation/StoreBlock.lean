import RoiCoin.Validation.FlushState

/-! Block data and undo data on their way to the files (`AcceptBlock`, the undo part of
`ConnectBlock`), with the index entries that point at them. -/

namespace RoiCoin

/-- How a block that is accepted is stored. `known` is the position it was read from, if it was;
`opens` and `throws` are what `WriteBlockToDisk` meets. -/
structure BlockTrial where
  nBlockSize : Nat
  nTime : Nat
  known : Option (Nat × Nat)
  freeBytes : Nat
  opens : Bool
  throws : Bool
  deriving DecidableEq, Repr

structure UndoTrial where
  freeBytes : Nat
  written : Bool
  deriving DecidableEq, Repr

/-- What `AcceptBlock` has done with a block; it returns false for `refused` only. -/
inductive AcceptResult where
  | refused
  /-- Had already, or unwanted. -/
  | passedOver
  | stored
  deriving DecidableEq, Repr

namespace BlockStore

/-- `AcceptBlockHeader`; a new entry is noted as changed. -/
def acceptBlockHeader (w : Surroundings) (store : BlockStore) (block : OfferedBlock) :
    BlockStore × Bool :=
  let (chain, accepted) := store.chain.acceptBlockHeader w block
  if store.chain.Enters chain block.hash then
    (store.touch block.hash fun _ => chain, accepted)
  else (store, accepted)

/-- The block in its file. A `WriteBlockToDisk` that returns false stops the node, not the
function. -/
def placeBlock (trial : BlockTrial) (hash : Uint256) (store : BlockStore) : BlockStore :=
  if trial.known.isSome then store.recallBlock store.nLastBlockFile hash
  else if trial.opens then store.appendBlock store.nLastBlockFile hash
  else store

/-- The part of `AcceptBlock` under "Write block to history file". -/
def writeBlock (w : Surroundings) (config : StorageConfig) (trial : BlockTrial)
    (block : OfferedBlock) (store : BlockStore) : BlockStore × AcceptResult :=
  let (store, found) := store.findBlockPos config trial.freeBytes (trial.nBlockSize + 8)
    (store.chain.nHeight block.hash) trial.nTime trial.known
  if !found then (store, .refused)
  else if trial.known.isNone && trial.throws then (store, .refused)
  else
    let store := store.placeBlock trial block.hash
    (store.touch block.hash fun chain =>
      chain.receivedBlockTransactions w block.nTx store.nLastBlockFile block.hash, .stored)

/-- `AcceptBlock` up to the check for pruning. -/
def acceptBlock (w : Surroundings) (config : StorageConfig) (trial : BlockTrial)
    (block : OfferedBlock) (store : BlockStore) : BlockStore × AcceptResult :=
  let (store, known) := store.acceptBlockHeader w block
  if !known then (store, .refused)
  else if store.chain.haveData block.hash then (store, .passedOver)
  else if !block.fRequested && store.chain.unwanted block.hash then (store, .passedOver)
  else if block.check = .invalid ∨ block.nTx = 0 then
    (store.touch block.hash fun chain => chain.setFailedValid block.hash, .refused)
  else if block.check = .corrupt then (store, .refused)
  else store.writeBlock w config trial block

/-- What follows `FindUndoPos`: the undo data is written and noted in the entry. -/
def noteUndo (trial : UndoTrial) (pindex : Uint256) : BlockStore × Bool → BlockStore × Bool
  | (store, found) =>
      if !found || !trial.written then (store, false)
      else
        ((store.appendUndo (store.chain.entry pindex).nFile pindex).touch pindex fun chain =>
          chain.modify pindex fun entry =>
            { entry with
              nStatus := BlockStatus.raiseValidity { entry.nStatus with haveUndo := true }
                blockValidScripts }, true)

/-- The part of `ConnectBlock` under "Write undo information to disk"; `nUndoSize` is the size of
the undo data. -/
def writeUndo (config : StorageConfig) (trial : UndoTrial) (nUndoSize : Nat) (pindex : Uint256)
    (store : BlockStore) : BlockStore × Bool :=
  if (store.chain.nStatus pindex).haveUndo then
    if (store.chain.nStatus pindex).isValid blockValidScripts then (store, true)
    else
      (store.touch pindex fun chain => chain.modify pindex fun entry =>
        { entry with nStatus := entry.nStatus.raiseValidity blockValidScripts }, true)
  else
    noteUndo trial pindex
      (store.findUndoPos config trial.freeBytes (store.chain.entry pindex).nFile (nUndoSize + 40))

end BlockStore

/-- `AcceptBlock`; what `FlushStateToDisk` returns is not looked at. -/
def Storage.acceptBlock (w : Surroundings) (config : StorageConfig) (trial : BlockTrial)
    (flush : FlushTrial) (block : OfferedBlock) (storage : Storage) : Storage × AcceptResult :=
  let (files, result) := storage.files.acceptBlock w config trial block
  let storage := { storage with files }
  if result = .stored ∧ files.fCheckForPruning = true then
    ((storage.flushStateToDisk config flush .none).1, result)
  else (storage, result)

end RoiCoin
