import RoiCoin.Failure
import RoiCoin.Pow

/-! The proof-of-work test of a header at run time (`CheckBlockHeader`, `ReadBlockFromDisk`)
and of its stored index entry at the next start (`CBlockTreeDB::LoadBlockIndexGuts`).

`getHash` is the header hash, `adjustedTime` the network-adjusted clock. -/

namespace RoiCoin

open ArithUint256 Checked

def fork4Height : BitVec 32 := 75100
def fullForkVersionMin : BitVec 32 := fork4Height
def fullForkVersionMax : BitVec 32 := fullForkVersionMin + 15

/-- The limit selected by the masked version; the three places differ only in `mask`. -/
def activePowLimit (params : ConsensusParams) (mask nVersion : BitVec 32) : Uint256 :=
  if nVersion &&& mask ≥ fullForkVersionMin then params.powLimitResetAtFork
  else params.powLimitHistoric

def checkBlockHeader (getHash : CBlockHeader → Uint256) (adjustedTime : Int)
    (params : ConsensusParams) (block : CBlockHeader) (fCheckPOW : Bool) : Checking Unit := do
  let limit := activePowLimit params fullForkVersionMax block.nVersion
  require (fCheckPOW = false ∨ checkProofOfWork (getHash block) block.nBits limit = true)
    (dos 50 "high-hash")
  require (block.getBlockTime ≤ adjustedTime + 2 * 60 * 60) (dos 0 "time-too-new")

/-- The header test of `ReadBlockFromDisk`. -/
def readBlockFromDiskPow (getHash : CBlockHeader → Uint256) (params : ConsensusParams)
    (block : CBlockHeader) : Bool :=
  checkProofOfWork (getHash block) block.nBits
    (activePowLimit params fullForkVersionMax block.nVersion)

/-- The entry `AddToBlockIndex` makes: `AcceptBlockHeader` has found the parent, or the
header is the genesis header, whose parent hash is null. -/
def addToBlockIndex (getHash : CBlockHeader → Uint256) (block : CBlockHeader) (nHeight : Int) :
    CBlockIndex :=
  .ofHeader block (some (getHash block))
    (if block.hashPrevBlock = 0 then none else some block.hashPrevBlock) nHeight

/-- A `CDiskBlockIndex` record: the entry with the parent pointer replaced by its hash. -/
structure CDiskBlockIndex where
  nHeight : Int
  hashPrev : Uint256
  nVersion : BitVec 32
  hashMerkleRoot : Uint256
  nTime : BitVec 32
  nBits : BitVec 32
  nNonce : BitVec 32
  nStartLocation : BitVec 32
  nFinalCalculation : BitVec 32
  deriving DecidableEq, Repr

def CDiskBlockIndex.ofIndex (pindex : CBlockIndex) : CDiskBlockIndex where
  nHeight := pindex.nHeight
  hashPrev := pindex.pprev.getD 0
  nVersion := pindex.nVersion
  hashMerkleRoot := pindex.hashMerkleRoot
  nTime := pindex.nTime
  nBits := pindex.nBits
  nNonce := pindex.nNonce
  nStartLocation := pindex.nStartLocation
  nFinalCalculation := pindex.nFinalCalculation

def CDiskBlockIndex.header (diskindex : CDiskBlockIndex) : CBlockHeader where
  nVersion := diskindex.nVersion
  hashPrevBlock := diskindex.hashPrev
  hashMerkleRoot := diskindex.hashMerkleRoot
  nTime := diskindex.nTime
  nBits := diskindex.nBits
  nNonce := diskindex.nNonce
  nStartLocation := diskindex.nStartLocation
  nFinalCalculation := diskindex.nFinalCalculation

def CDiskBlockIndex.getBlockHash (getHash : CBlockHeader → Uint256) (diskindex : CDiskBlockIndex) :
    Uint256 :=
  getHash diskindex.header

/-- One turn of the `LoadBlockIndexGuts` loop; `none` is the error return that keeps
the node from starting. -/
def loadBlockIndexEntry (getHash : CBlockHeader → Uint256) (params : ConsensusParams)
    (diskindex : CDiskBlockIndex) : Option CBlockIndex :=
  let pindexNew : CBlockIndex :=
    .ofHeader diskindex.header (some (diskindex.getBlockHash getHash))
      (if diskindex.hashPrev = 0 then none else some diskindex.hashPrev) diskindex.nHeight
  if checkProofOfWork (diskindex.getBlockHash getHash) pindexNew.nBits
      (activePowLimit params fullForkVersionMin pindexNew.nVersion) then some pindexNew
  else none

theorem checkProofOfWork_iff (hash : Uint256) (nBits : BitVec 32) (limit : Uint256) :
    checkProofOfWork hash nBits limit = true ↔
      (setCompact nBits).fNegative = false ∧ (setCompact nBits).fOverflow = false ∧
        (setCompact nBits).target ≠ 0 ∧ (setCompact nBits).target ≤ limit ∧
        hash ≤ (setCompact nBits).target := by
  simp only [checkProofOfWork, gt_iff_lt, Bool.or_eq_true, beq_iff_eq, decide_eq_true_eq]
  split
  · rename_i rejected
    constructor
    · intro impossible; cases impossible
    · rintro ⟨sign, size, nonzero, below, -⟩
      simp only [sign, size, nonzero, Bool.false_eq_true, false_or, or_false] at rejected
      exact absurd rejected (BitVec.not_lt.mpr below)
  · rename_i kept
    simp only [not_or, Bool.not_eq_true, BitVec.not_lt] at kept
    simp only [Bool.not_eq_true', decide_eq_false_iff_not, BitVec.not_lt]
    exact ⟨fun met => ⟨kept.1.1.1, kept.1.2, kept.1.1.2, kept.2, met⟩, fun all => all.2.2.2.2⟩

/-- Storing an entry and reading it back gives the header that was accepted. -/
theorem stored_header (getHash : CBlockHeader → Uint256) (block : CBlockHeader) (nHeight : Int) :
    (CDiskBlockIndex.ofIndex (addToBlockIndex getHash block nHeight)).header = block := by
  have parent : (if block.hashPrevBlock = 0 then none else some block.hashPrevBlock).getD 0 =
      block.hashPrevBlock := by
    split
    · rename_i null
      simp [null]
    · rfl
  simp only [CDiskBlockIndex.header, CDiskBlockIndex.ofIndex, addToBlockIndex, CBlockIndex.ofHeader,
    parent]

theorem reload_succeeds (getHash : CBlockHeader → Uint256) (params : ConsensusParams)
    (block : CBlockHeader) (nHeight : Int) :
    (loadBlockIndexEntry getHash params
      (.ofIndex (addToBlockIndex getHash block nHeight))).isSome =
      checkProofOfWork (getHash block) block.nBits
        (activePowLimit params fullForkVersionMin block.nVersion) := by
  simp only [loadBlockIndexEntry, CDiskBlockIndex.getBlockHash, stored_header,
    CBlockIndex.ofHeader]
  cases checkProofOfWork (getHash block) block.nBits
    (activePowLimit params fullForkVersionMin block.nVersion) <;> rfl

theorem accepted_pow (getHash : CBlockHeader → Uint256) (adjustedTime : Int)
    (params : ConsensusParams) (block : CBlockHeader)
    (accepted : checkBlockHeader getHash adjustedTime params block true = .ok ()) :
    checkProofOfWork (getHash block) block.nBits
      (activePowLimit params fullForkVersionMax block.nVersion) = true := by
  simp only [checkBlockHeader, then_ok, require_ok, Bool.true_eq_false, false_or] at accepted
  exact accepted.1

/-- A header carrying `FULL_FORK_VERSION_CUR` with a target between the two limits. -/
def betweenLimits : CBlockHeader where
  nVersion := fullForkVersionMin
  hashPrevBlock := mainHashGenesisBlock
  hashMerkleRoot := 0
  nTime := 1509857120
  nBits := 0x2000ffff
  nNonce := 0
  nStartLocation := 0
  nFinalCalculation := 0

end RoiCoin
