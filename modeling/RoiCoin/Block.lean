import RoiCoin.ArithUint256

/-! Block headers and block index entries (`primitives/block.h`, `chain.h`). -/

namespace RoiCoin

structure CBlockHeader where
  nVersion : BitVec 32
  hashPrevBlock : Uint256
  hashMerkleRoot : Uint256
  nTime : BitVec 32
  nBits : BitVec 32
  nNonce : BitVec 32
  nStartLocation : BitVec 32
  nFinalCalculation : BitVec 32
  deriving DecidableEq, Repr

def CBlockHeader.getBlockTime (block : CBlockHeader) : Int := block.nTime.toNat

/-- An index entry. `pprev` is the hash of the parent entry, if there is one;
`phashBlock` is null for the dummy entry of `TestBlockValidity`. -/
structure CBlockIndex where
  phashBlock : Option Uint256
  pprev : Option Uint256
  nHeight : Int
  nVersion : BitVec 32
  hashMerkleRoot : Uint256
  nTime : BitVec 32
  nBits : BitVec 32
  nNonce : BitVec 32
  nStartLocation : BitVec 32
  nFinalCalculation : BitVec 32
  deriving DecidableEq, Repr

def CBlockIndex.getBlockTime (pindex : CBlockIndex) : Int := pindex.nTime.toNat

/-- `CBlockIndex(const CBlockHeader&)` followed by the hash and parent links that
`AddToBlockIndex` sets. -/
def CBlockIndex.ofHeader (block : CBlockHeader) (phashBlock pprev : Option Uint256)
    (nHeight : Int) : CBlockIndex where
  phashBlock
  pprev
  nHeight
  nVersion := block.nVersion
  hashMerkleRoot := block.hashMerkleRoot
  nTime := block.nTime
  nBits := block.nBits
  nNonce := block.nNonce
  nStartLocation := block.nStartLocation
  nFinalCalculation := block.nFinalCalculation

end RoiCoin
