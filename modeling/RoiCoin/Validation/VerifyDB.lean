import RoiCoin.Validation.Reconnect
import RoiCoin.Validation.Tips

/-! The check of the last blocks at start-up (`CVerifyDB::VerifyDB`).

It runs before `AppInit2` tells the interest code the height of the chain, which is still the
initial zero. -/

namespace RoiCoin

open Checked FlatView

/-- `GetHex` -/
def hashHex (hash : Uint256) : String :=
  let digits := Nat.toDigits 16 hash.toNat
  String.ofList (List.replicate (64 - digits.length) '0' ++ digits)

namespace CVerifyDB

/-- The block files: `ReadBlockFromDisk`, whether the index entry has a position of undo data, and
`UndoReadFromDisk` there. -/
structure Disk where
  readBlock : CBlockIndex → Option CBlock
  hasUndoPos : CBlockIndex → Bool
  readUndo : CBlockIndex → Option CBlockUndo

/-- What the loop sees of the machine at each block: whether the coins are within
`nCoinCacheUsage`, and whether a shutdown has been requested. -/
structure Machine where
  fits : CBlockIndex → Bool
  shutdownRequested : CBlockIndex → Bool

/-- The ways to return false. -/
inductive VerifyError where
  | readFailed (pindex : CBlockIndex)
  | badBlock (pindex : CBlockIndex)
  | badUndo (pindex : CBlockIndex)
  | irrecoverable (pindex : CBlockIndex)
  | inconsistencies (nBlocks : Int) (nGoodTransactions : Nat)
  /-- With the reason `ConnectBlock` has. -/
  | unconnectable (pindex : CBlockIndex) (failure : Failure)
  deriving DecidableEq

/-- The message of a report about one block. -/
def report (what : String) (pindex : CBlockIndex) : String :=
  "VerifyDB(): *** " ++ what ++ " at " ++ toString pindex.nHeight ++ ", hash=" ++
    hashHex (pindex.phashBlock.getD 0)

def VerifyError.text : VerifyError → String
  | readFailed pindex => report "ReadBlockFromDisk failed" pindex
  | badBlock pindex => report "found bad block" pindex
  | badUndo pindex => report "found bad undo data" pindex
  | irrecoverable pindex => report "irrecoverable inconsistency in block data" pindex
  | inconsistencies nBlocks nGoodTransactions =>
      "VerifyDB(): *** coin database inconsistencies found (last " ++ toString nBlocks ++
        " blocks, " ++ toString nGoodTransactions ++ " good transactions before that)"
  | unconnectable pindex _ => report "found unconnectable block" pindex

/-- The variables of the loop down the chain. -/
structure Walk where
  coins : FlatView
  pindexState : Option Uint256
  pindexFailure : Option CBlockIndex
  nGoodTransactions : Nat

/-- `UndoReadFromDisk` as `DisconnectBlock` calls it. -/
def undoFor (disk : Disk) (pindex : CBlockIndex) : Checking CBlockUndo :=
  match disk.hasUndoPos pindex, disk.readUndo pindex with
  | true, some blockUndo => .ok blockUndo
  | _, _ => .error .refused

/-- The walk after a block has been disconnected in memory. -/
def Walk.disconnected (walk : Walk) (block : CBlock) (pindex : CBlockIndex)
    (after : Disconnected) : Walk where
  coins := after.view
  pindexState := pindex.pprev
  pindexFailure := if after.fClean then walk.pindexFailure else some pindex
  nGoodTransactions := if after.fClean then walk.nGoodTransactions + block.vtx.length else 0

/-- Level 3. -/
def disconnect (env : Environment) (disk : Disk) (machine : Machine) (nCheckLevel : Int)
    (block : CBlock) (pindex : CBlockIndex) (walk : Walk) : Except VerifyError Walk :=
  if 3 ≤ nCheckLevel ∧ pindex.phashBlock = walk.pindexState ∧ machine.fits pindex = true then
    match disconnectBlockWith env block pindex walk.coins (undoFor disk pindex) with
    | .ok after => .ok (walk.disconnected block pindex after)
    | .error _ => .error (.irrecoverable pindex)
  else .ok walk

/-- The body of the loop down the chain. -/
def checkBlockAt (env : Environment) (disk : Disk) (machine : Machine) (nCheckLevel : Int)
    (walk : Walk) (pindex : CBlockIndex) : Except VerifyError Walk :=
  match disk.readBlock pindex with
  | none => .error (.readFailed pindex)
  | some block => do
      require (1 ≤ nCheckLevel → (checkBlock env block true true).toBool = true)
        (VerifyError.badBlock pindex)
      require (2 ≤ nCheckLevel → disk.hasUndoPos pindex = true →
        (disk.readUndo pindex).isSome = true) (VerifyError.badUndo pindex)
      disconnect env disk machine nCheckLevel block pindex walk

/-- The loop down the chain to the height `nLowest`; nothing when a shutdown was requested. -/
def walkDown (env : Environment) (disk : Disk) (machine : Machine) (nCheckLevel nLowest : Int)
    (walk : Walk) : List CBlockIndex → Except VerifyError (Option Walk)
  | [] => .ok (some walk)
  | pindex :: below =>
      if pindex.pprev = none ∨ pindex.nHeight < nLowest then .ok (some walk)
      else do
        let walk ← checkBlockAt env disk machine nCheckLevel walk pindex
        if machine.shutdownRequested pindex then .ok none
        else walkDown env disk machine nCheckLevel nLowest walk below

def clampLevel (nCheckLevel : Int) : Int := max 0 (min 4 nCheckLevel)

/-- The number of blocks below the tip that are checked. -/
def clampDepth (nHeight nCheckDepth : Int) : Int :=
  min (if nCheckDepth ≤ 0 then 1000000000 else nCheckDepth) nHeight

/-- Everything before level 4. -/
def verifyDown (env : Environment) (disk : Disk) (machine : Machine) (tip : CBlockIndex)
    (below : List CBlockIndex) (coinsview : FlatView) (nCheckLevel nCheckDepth : Int) :
    Except VerifyError (Option Walk) := do
  let walked ← walkDown env disk machine (clampLevel nCheckLevel)
    (tip.nHeight - clampDepth tip.nHeight nCheckDepth) ⟨coinsview, tip.phashBlock, none, 0⟩
    (tip :: below)
  match walked with
  | none => .ok none
  | some walk =>
      match walk.pindexFailure with
      | none => .ok (some walk)
      | some pindexFailure =>
          .error (.inconsistencies (tip.nHeight - pindexFailure.nHeight + 1)
            walk.nGoodTransactions)

/-- The blocks level 4 connects again, the lowest first. -/
def toReconnect (nCheckLevel : Int) (chain : List CBlockIndex) (walk : Walk) : List CBlockIndex :=
  if 4 ≤ clampLevel nCheckLevel then
    (chain.takeWhile fun pindex => pindex.phashBlock != walk.pindexState).reverse
  else []

/-- Level 4. -/
def reconnect (env : Environment) (disk : Disk) (coins : FlatView) :
    List CBlockIndex → Except VerifyError FlatView
  | [] => .ok coins
  | pindex :: rest =>
      match disk.readBlock pindex with
      | none => .error (.readFailed pindex)
      | some block =>
          match connectBlock env block pindex coins false with
          | .error failure => .error (.unconnectable pindex failure)
          | .ok connected => reconnect env disk connected.view rest

/-- The chain has its tip first. -/
def verifyDB (env : Environment) (disk : Disk) (machine : Machine) (chain : List CBlockIndex)
    (coinsview : FlatView) (nCheckLevel nCheckDepth : Int) : Except VerifyError Unit :=
  match chain with
  | [] => .ok ()
  | tip :: below =>
      if tip.pprev = none then .ok ()
      else do
        let walked ← verifyDown env disk machine tip below coinsview nCheckLevel nCheckDepth
        match walked with
        | none => return ()
        | some walk =>
            let _ ← reconnect env disk walk.coins (toReconnect nCheckLevel (tip :: below) walk)
            return ()

/-! ## The calls of `ConnectBlock` -/

structure ConnectCall where
  block : CBlock
  pindex : CBlockIndex
  coins : FlatView

/-- The values that the call gives the inputs of its block. -/
def ConnectCall.values (env : Environment) (call : ConnectCall) : List (List Int) :=
  blockValues env call.block call.pindex call.coins

def reconnectCalls (env : Environment) (disk : Disk) (coins : FlatView) :
    List CBlockIndex → List ConnectCall
  | [] => []
  | pindex :: rest =>
      match disk.readBlock pindex with
      | none => []
      | some block =>
          ⟨block, pindex, coins⟩ ::
            match connectBlock env block pindex coins false with
            | .error _ => []
            | .ok connected => reconnectCalls env disk connected.view rest

/-- The calls of a whole check. -/
def connectCalls (env : Environment) (disk : Disk) (machine : Machine) (tip : CBlockIndex)
    (below : List CBlockIndex) (coinsview : FlatView) (nCheckLevel nCheckDepth : Int) :
    List ConnectCall :=
  match verifyDown env disk machine tip below coinsview nCheckLevel nCheckDepth with
  | .ok (some walk) =>
      reconnectCalls env disk walk.coins (toReconnect nCheckLevel (tip :: below) walk)
  | _ => []

end CVerifyDB

end RoiCoin
