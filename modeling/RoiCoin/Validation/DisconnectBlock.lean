import RoiCoin.Validation.ConnectBlock

/-! Disconnecting a block (`ApplyTxInUndo`, `DisconnectBlock`).

A modifier shows an empty record for a pruned one. -/

namespace RoiCoin

open Checked CCoins FlatView

/-- The view and `fClean`; `DisconnectBlock` returns true when the caller asks for the flag, else
the flag itself. -/
structure Disconnected where
  view : FlatView
  fClean : Bool

/-- The record with the height, version and coinbase flag of the undo record, if it has them. -/
def undoRecord (undo : CTxInUndo) (coins : CCoins) : CCoins :=
  if undo.nHeight ≠ 0 then ⟨undo.fCoinBase, [], signed32 undo.nHeight, undo.nVersion⟩ else coins

def restoreOutput (undo : CTxInUndo) (nPos : Nat) (coins : CCoins) : CCoins :=
  { undoRecord undo coins with
    vout := Slots.fill (undoRecord undo coins).vout nPos undo.txout.unspent }

def applyTxInUndo (undo : CTxInUndo) (out : COutPoint) (st : Disconnected) : Disconnected :=
  let coins := st.view.record out.hash
  let fClean := if undo.nHeight ≠ 0 then coins.isPruned else !coins.isPruned
  { view := st.view.modify out.hash (restoreOutput undo out.n.toNat)
    fClean := st.fClean && (fClean && !(undoRecord undo coins).isAvailable out.n.toNat) }

/-- The loop over the inputs, last input first. -/
def restoreInputs (st : Disconnected) : List (CTxIn × CTxInUndo) → Disconnected
  | [] => st
  | (txin, undo) :: inputs => applyTxInUndo undo txin.prevout (restoreInputs st inputs)

/-- The record whose outputs are compared with the block: a negative version is not serialized. -/
def withVersion (nVersion : Int) (outs : CCoins) : CCoins :=
  if nVersion < 0 then { outs with nVersion } else outs

/-- Compare the outputs of a transaction with the view and remove them. -/
def removeOutputs (env : Environment) (nHeight : Int) (tx : CTransaction) (st : Disconnected) :
    Disconnected :=
  let outs := withVersion tx.nVersion (st.view.record (env.getHash tx)).clearUnspendable
  { view := st.view.modify (env.getHash tx) fun _ => .empty
    fClean := st.fClean && outs.same (.fromTx tx nHeight) }

/-- The loop body; the coinbase has no undo data. -/
def disconnectTx (env : Environment) (nHeight : Int) (st : Disconnected) (tx : CTransaction) :
    Option CTxUndo → Checking Disconnected
  | none => .ok (removeOutputs env nHeight tx st)
  | some txundo => do
      require (txundo.length = tx.vin.length) .refused
      return restoreInputs (removeOutputs env nHeight tx st) (tx.vin.zip txundo)

/-- The loop over the transactions, last transaction first. -/
def disconnectTxs (env : Environment) (nHeight : Int) (st : Disconnected) :
    List (CTransaction × Option CTxUndo) → Checking Disconnected
  | [] => .ok st
  | (tx, txundo) :: vtx => do
      let st ← disconnectTxs env nHeight st vtx
      disconnectTx env nHeight st tx txundo

/-- `undoData` is the file from `GetUndoPos` on, if the index entry has such a position. -/
def readUndo (file : UndoFile) (pindex : CBlockIndex) (undoData : Option Bytes) :
    Checking CBlockUndo :=
  match undoData, pindex.pprev with
  | none, _ => .error .refused
  | some _, none => .error .nullPointer
  | some data, some hashPrev =>
      match undoReadFromDisk file data hashPrev with
      | some blockUndo => .ok blockUndo
      | none => .error .refused

/-- `DisconnectBlock` around the reading of the undo data. -/
def disconnectBlockWith (env : Environment) (block : CBlock) (pindex : CBlockIndex)
    (view : FlatView) (undoRead : Checking CBlockUndo) : Checking Disconnected :=
  match pindex.phashBlock with
  | none => .error .nullPointer
  | some hash => do
      require (hash = view.hashBlock) (.assertion .bestBlock)
      let blockUndo ← undoRead
      require (blockUndo.length + 1 = block.vtx.length) .refused
      let st ← disconnectTxs env pindex.nHeight ⟨view, true⟩
        (block.vtx.zip (none :: blockUndo.map some))
      return { st with view := st.view.setBestBlock (pindex.pprev.getD 0) }

def disconnectBlock (env : Environment) (file : UndoFile) (block : CBlock) (pindex : CBlockIndex)
    (view : FlatView) (undoData : Option Bytes) : Checking Disconnected :=
  disconnectBlockWith env block pindex view (readUndo file pindex undoData)

end RoiCoin
