import RoiCoin.BlockIndexDb
import RoiCoin.Transaction

/-! Checks of a block that need no coins (`CheckBlock`, `IsSuperMajority`, `GetBlockSubsidy`). -/

namespace RoiCoin

open Checked

structure CBlock where
  header : CBlockHeader
  vtx : List CTransaction
  deriving DecidableEq, Repr

def CBlock.serializeSize (block : CBlock) : Nat :=
  88 + (sizeOfCompactSize block.vtx.length + (block.vtx.map CTransaction.serializeSize).sum)

/-- What validation reads besides the block, its index entry and the coins. `pow` is the
floating-point product of the interest code; `verifyScript` returns the script error of an input. -/
structure Environment where
  params : ConsensusParams
  getHash : CTransaction → Uint256
  blockHash : CBlockHeader → Uint256
  hash : Uint256 → Uint256 → Uint256
  pow : Int → Int → Int
  chainHeight : Int
  adjustedTime : Int
  mapBlockIndex : Uint256 → Option CBlockIndex
  fCheckpointsEnabled : Bool
  totalBlocksEstimate : Int
  /-- Script checks are queued and waited for at the end of the block. -/
  nScriptCheckThreads : Nat
  verifyScript : CTransaction → Nat → CScript → BitVec 32 → Option String

def Environment.parent (env : Environment) (pindex : CBlockIndex) : Option CBlockIndex :=
  pindex.pprev.bind env.mapBlockIndex

/-- One level of the Merkle tree above `hashes`, and whether its last two hashes repeat. -/
def merkleLevel (hash : Uint256 → Uint256 → Uint256) : List Uint256 → List Uint256 × Bool
  | [] => ([], false)
  | [a] => ([hash a a], false)
  | [a, b] => ([hash a b], a == b)
  | a :: b :: hashes =>
      let (level, mutated) := merkleLevel hash hashes
      (hash a b :: level, mutated)

/-- `BuildMerkleTree`; every level is shorter, so the number of leaves is enough fuel. -/
def buildMerkleTree (hash : Uint256 → Uint256 → Uint256) : Nat → List Uint256 → Uint256 × Bool
  | 0, hashes => (hashes.headD 0, false)
  | fuel + 1, hashes =>
      if hashes.length ≤ 1 then (hashes.headD 0, false)
      else
        let (level, mutated) := merkleLevel hash hashes
        let (root, above) := buildMerkleTree hash fuel level
        (root, mutated || above)

def CBlock.merkleTree (env : Environment) (block : CBlock) : Uint256 × Bool :=
  buildMerkleTree env.hash block.vtx.length (block.vtx.map env.getHash)

def getLegacySigOpCount (tx : CTransaction) : Nat :=
  (tx.vin.map fun txin => getSigOpCount false txin.scriptSig).sum +
    (tx.vout.map fun txout => getSigOpCount false txout.scriptPubKey).sum

/-- The Merkle root part of `CheckBlock`. -/
def checkMerkleRoot (env : Environment) (block : CBlock) (fCheckMerkleRoot : Bool) :
    Checking Unit := do
  require (fCheckMerkleRoot = false ∨ block.header.hashMerkleRoot = (block.merkleTree env).1)
    (dosCorrupt 100 "bad-txnmrklroot")
  require (fCheckMerkleRoot = false ∨ (block.merkleTree env).2 = false)
    (dosCorrupt 100 "bad-txns-duplicate")

def checkBlock (env : Environment) (block : CBlock) (fCheckPOW fCheckMerkleRoot : Bool) :
    Checking Unit := do
  checkBlockHeader env.blockHash env.adjustedTime env.params block.header fCheckPOW
  checkMerkleRoot env block fCheckMerkleRoot
  require (block.vtx ≠ [] ∧ block.vtx.length ≤ maxBlockSize ∧ block.serializeSize ≤ maxBlockSize)
    (dos 100 "bad-blk-length")
  require ((block.vtx.head?.map CTransaction.isCoinBase) = some true) (dos 100 "bad-cb-missing")
  require (∀ tx ∈ block.vtx.tail, tx.isCoinBase = false) (dos 100 "bad-cb-multiple")
  each checkTransaction block.vtx
  require ((block.vtx.map getLegacySigOpCount).sum ≤ maxBlockSigOps)
    (dosCorrupt 100 "bad-blk-sigops")

/-- The loop of `IsSuperMajority`; `fuel` counts the rest of the window. -/
def superMajorityLoop (env : Environment) (minVersion : Int) (nRequired : Nat) :
    Nat → Nat → Option CBlockIndex → Nat
  | 0, nFound, _ => nFound
  | _ + 1, nFound, none => nFound
  | fuel + 1, nFound, some pstart =>
      if nFound < nRequired then
        superMajorityLoop env minVersion nRequired fuel
          (if pstart.nVersion.toInt ≥ minVersion then nFound + 1 else nFound) (env.parent pstart)
      else nFound

def isSuperMajority (env : Environment) (minVersion : Int) (pstart : Option CBlockIndex)
    (nRequired : Nat) : Bool :=
  nRequired ≤ superMajorityLoop env minVersion nRequired env.params.nMajorityWindow.toNat 0 pstart

def getBlockSubsidy (nHeight : Int) : Int :=
  if nHeight < 50 then 77 * coin
  else if nHeight < 100 ∧ nHeight > 50 then 777 * coin
  else if nHeight < 201 ∧ nHeight > 100 then 600000 * coin
  else if nHeight < 7884000 ∧ nHeight > 201 then 120 * coin
  else 120 * coin

/-- What connecting a block relies on after `CheckBlock`. -/
structure CheckedBlock (block : CBlock) : Prop where
  nonempty : block.vtx ≠ []
  count : block.vtx.length ≤ maxBlockSize
  first : block.vtx.head?.map CTransaction.isCoinBase = some true
  rest : ∀ tx ∈ block.vtx.tail, tx.isCoinBase = false
  checked : ∀ tx ∈ block.vtx, CheckedTransaction tx

theorem checkBlock_ok (env : Environment) (block : CBlock) (fCheckPOW fCheckMerkleRoot : Bool)
    (passed : checkBlock env block fCheckPOW fCheckMerkleRoot = .ok ()) : CheckedBlock block := by
  simp only [checkBlock, then_ok, require_ok, each_ok] at passed
  obtain ⟨-, -, ⟨nonempty, count, -⟩, first, regular, transactions, -⟩ := passed
  exact ⟨nonempty, count, first, regular, fun tx member => checkTransaction_ok tx (transactions tx member)⟩

end RoiCoin
