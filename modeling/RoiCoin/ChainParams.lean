import RoiCoin.ArithUint256

/-! Consensus parameters of the three networks (`chainparams.cpp`, `consensus/params.h`). -/

namespace RoiCoin

structure ConsensusParams where
  hashGenesisBlock : Uint256
  nMajorityEnforceBlockUpgrade : Nat
  nMajorityRejectBlockOutdated : Nat
  nMajorityWindow : Int
  powLimitHistoric : Uint256
  powLimitResetAtFork : Uint256
  fPowAllowMinDifficultyBlocks : Bool
  fPowNoRetargeting : Bool
  nPowTargetSpacing : Int
  nPowTargetTimespan : Int
  nPowAdjustmentInterval : Int
  nPowMidasTimeStart : Nat
  nPowMidasBlockStart : Int
  deriving DecidableEq, Repr

def ConsensusParams.difficultyAdjustmentInterval (params : ConsensusParams) : Int :=
  params.nPowTargetTimespan.tdiv params.nPowTargetSpacing

def powLimitForkMainnet : Uint256 :=
  0x00007fffffffffffffffffffffffffffffffffffffffffffffffffffffffffff

def mainHashGenesisBlock : Uint256 :=
  0x003852bfe1d708c4dfac4d48f5d678031c12f07fe478916c40351a84ab85747d

inductive Network where
  | main
  | testnet
  | regtest
  deriving DecidableEq, Repr

/-- `CMainParams`; the other two classes derive from it and override single fields. -/
def mainParams : ConsensusParams where
  hashGenesisBlock := mainHashGenesisBlock
  nMajorityEnforceBlockUpgrade := 750
  nMajorityRejectBlockOutdated := 950
  nMajorityWindow := 1000
  powLimitHistoric := 0x0fffffffffffffffffffffffffffffffffffffffffffffffffffffffffffffff
  powLimitResetAtFork := powLimitForkMainnet
  fPowAllowMinDifficultyBlocks := false
  fPowNoRetargeting := false
  nPowTargetSpacing := 120
  nPowTargetTimespan := 1200
  nPowAdjustmentInterval := 20 * 60
  nPowMidasTimeStart := 1509857120
  nPowMidasBlockStart := 1

/-- The genesis hashes of the test networks are computed at start-up, not written down. -/
def testNetParams (hashGenesisBlock : Uint256) : ConsensusParams :=
  { mainParams with
    hashGenesisBlock
    nMajorityEnforceBlockUpgrade := 51
    nMajorityRejectBlockOutdated := 75
    nMajorityWindow := 100
    fPowAllowMinDifficultyBlocks := true }

def regTestParams (hashGenesisBlock : Uint256) : ConsensusParams :=
  { testNetParams hashGenesisBlock with
    nMajorityEnforceBlockUpgrade := 750
    nMajorityRejectBlockOutdated := 950
    nMajorityWindow := 1000
    powLimitHistoric := 0x7fffffffffffffffffffffffffffffffffffffffffffffffffffffffffffffff }

def consensusParams (hashGenesisBlock : Uint256) : Network → ConsensusParams
  | .main => mainParams
  | .testnet => testNetParams hashGenesisBlock
  | .regtest => regTestParams hashGenesisBlock

variable (hashGenesisBlock : Uint256) (network : Network)

@[simp] theorem target_timespan :
    (consensusParams hashGenesisBlock network).nPowTargetTimespan = 1200 := by
  cases network <;> rfl

@[simp] theorem retargets : (consensusParams hashGenesisBlock network).fPowNoRetargeting = false := by
  cases network <;> rfl

@[simp] theorem fork_limit :
    (consensusParams hashGenesisBlock network).powLimitResetAtFork = powLimitForkMainnet := by
  cases network <;> rfl

theorem historic_limit_large :
    2 ^ 252 - 1 ≤ (consensusParams hashGenesisBlock network).powLimitHistoric.toNat := by
  cases network <;> simp [consensusParams, mainParams, testNetParams, regTestParams]

/-- On every network the limit reset at the fork is the stricter one. -/
theorem fork_limit_lt_historic :
    (consensusParams hashGenesisBlock network).powLimitResetAtFork.toNat <
      (consensusParams hashGenesisBlock network).powLimitHistoric.toNat := by
  have large := historic_limit_large hashGenesisBlock network
  have small : powLimitForkMainnet.toNat < 2 ^ 252 - 1 := by decide
  rw [fork_limit]
  exact lt_of_lt_of_le small large

end RoiCoin
