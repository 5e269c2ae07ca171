import RoiCoin.Pow
import Mathlib.Algebra.Order.Ring.Int

/-! The required work of the next block (`GetNextWorkRequired` and MIDAS in `pow.cpp`).

A chain is the list of its index entries, the tip first. `none` is a failed assertion, a null
dereference or a division by zero. -/

namespace RoiCoin

open ArithUint256

/-- The constants of `pow.h`. -/
inductive DiffAlgorithm where
  | btc2016
  | btcMidas
  deriving DecidableEq, Repr

/-- `GetAncestor`: the skip list only shortens the walk. -/
def getAncestor (chain : List CBlockIndex) (height : Int) : Option CBlockIndex :=
  chain.find? (fun pindex => pindex.nHeight == height)

/-! ## MIDAS -/

/-- The intervals between the last blocks; the parent of the first block is dereferenced. -/
def recentIntervals (params : ConsensusParams) : Nat → List CBlockIndex → Option (List Int)
  | 0, _ => some []
  | n + 1, [] => (recentIntervals params n []).map (params.nPowTargetSpacing :: ·)
  | _ + 1, [_] => none
  | n + 1, last :: prev :: ancestors =>
      (recentIntervals params n (prev :: ancestors)).map
        ((last.getBlockTime - prev.getBlockTime) :: ·)

structure RecentAverages where
  avgOf5 : Int
  avgOf7 : Int
  avgOf9 : Int
  avgOf17 : Int
  deriving DecidableEq, Repr

def avgRecentTimestamps (params : ConsensusParams) (chain : List CBlockIndex) :
    Option RecentAverages :=
  (recentIntervals params 17 chain).map fun intervals =>
    { avgOf5 := (intervals.take 5).sum.tdiv 5
      avgOf7 := (intervals.take 7).sum.tdiv 7
      avgOf9 := (intervals.take 9).sum.tdiv 9
      avgOf17 := intervals.sum.tdiv 17 }

/-- The interval regulated for: slower when ahead of schedule, faster when behind. -/
def intervalDesired (params : ConsensusParams) (now blockHeightTime : Int) : Int :=
  let nFastInterval := (params.nPowTargetSpacing * 9).tdiv 10
  let nSlowInterval := (params.nPowTargetSpacing * 11).tdiv 10
  let adjustment := params.nPowAdjustmentInterval
  if now < blockHeightTime + adjustment ∧ now > blockHeightTime then
    ((adjustment - (now - blockHeightTime)) * params.nPowTargetSpacing +
      (now - blockHeightTime) * nFastInterval).tdiv adjustment
  else if now + adjustment > blockHeightTime ∧ now < blockHeightTime then
    ((adjustment - (blockHeightTime - now)) * params.nPowTargetSpacing +
      (blockHeightTime - now) * nSlowInterval).tdiv adjustment
  else if now < blockHeightTime then nSlowInterval
  else nFastInterval

/-- In ten-thousandths, before it is limited to doubling or halving. -/
def difficultyFactor (avg : RecentAverages) (nIntervalDesired : Int) : Option Int :=
  let toofast := (nIntervalDesired * 2).tdiv 3
  let tooslow := (nIntervalDesired * 3).tdiv 2
  if avg.avgOf5 < toofast ∧ avg.avgOf9 < toofast ∧ avg.avgOf17 < toofast then
    some ((10000 * 8 : Int).tdiv 5)
  else if avg.avgOf5 > tooslow ∧ avg.avgOf7 > tooslow ∧ avg.avgOf9 > tooslow then
    some ((10000 * 5 : Int).tdiv 8)
  else if ((avg.avgOf5 > nIntervalDesired ∨ avg.avgOf7 > nIntervalDesired) ∧
        avg.avgOf9 > nIntervalDesired ∧ avg.avgOf17 > nIntervalDesired) ∨
      ((avg.avgOf5 < nIntervalDesired ∨ avg.avgOf7 < nIntervalDesired) ∧
        avg.avgOf9 < nIntervalDesired ∧ avg.avgOf17 < nIntervalDesired) then
    if avg.avgOf17 + 5 * nIntervalDesired = 0 then none
    else some ((10000 * (6 * nIntervalDesired)).tdiv (avg.avgOf17 + 5 * nIntervalDesired))
  else some 10000

/-- Back over the entries at the limit, not past the fork. -/
def lastRegularMidas (params : ConsensusParams) (nProofOfWorkLimit : BitVec 32) :
    CBlockIndex → List CBlockIndex → CBlockIndex
  | pindex, [] => pindex
  | pindex, pprev :: ancestors =>
      if pindex.nBits = nProofOfWorkLimit ∧ pindex.nHeight > params.nPowMidasBlockStart then
        lastRegularMidas params nProofOfWorkLimit pprev ancestors
      else pindex

def getNextWorkRequiredMidas (params : ConsensusParams) (blockTime : Int)
    (pindexLast : CBlockIndex) (ancestors : List CBlockIndex) : Option (BitVec 32) :=
  let nProofOfWorkLimit := getCompact params.powLimitResetAtFork
  if params.fPowAllowMinDifficultyBlocks then
    if blockTime > pindexLast.getBlockTime + params.nPowTargetSpacing * 2 then
      some nProofOfWorkLimit
    else some (lastRegularMidas params nProofOfWorkLimit pindexLast ancestors).nBits
  else
    let blockHeightTime := (params.nPowMidasTimeStart : Int) +
      (pindexLast.nHeight - params.nPowMidasBlockStart) * params.nPowTargetSpacing
    let nIntervalDesired := intervalDesired params pindexLast.getBlockTime blockHeightTime
    do
      let avg ← avgRecentTimestamps params (pindexLast :: ancestors)
      let factor ← difficultyFactor avg nIntervalDesired
      let factor := if factor > 20000 then 20000 else factor
      let factor := if factor < 5000 then 5000 else factor
      let bnOld := (setCompact pindexLast.nBits).target
      if factor = 10000 then some (getCompact bnOld)
      else
        let bnNew := mulAssign (bnOld / BitVec.ofInt 256 factor) 10000
        some (getCompact (if bnNew > params.powLimitResetAtFork then params.powLimitResetAtFork
          else bnNew))

/-! ## The rule in force -/

/-- Back over the entries at the limit, not past the last adjustment. -/
def lastRegular (params : ConsensusParams) (nProofOfWorkLimit : BitVec 32) :
    CBlockIndex → List CBlockIndex → CBlockIndex
  | pindex, [] => pindex
  | pindex, pprev :: ancestors =>
      if pindex.nHeight.tmod params.difficultyAdjustmentInterval ≠ 0 ∧
          pindex.nBits = nProofOfWorkLimit then
        lastRegular params nProofOfWorkLimit pprev ancestors
      else pindex

/-- Both assignments to `retarget` choose the constant of the legacy rule. -/
def getNextWorkRequired (params : ConsensusParams) (blockTime : Int)
    (pindexLast : CBlockIndex) (ancestors : List CBlockIndex) : Option (BitVec 32) :=
  let atOrPastFork := pindexLast.nHeight + 1 ≥ params.nPowMidasBlockStart
  let retarget := if atOrPastFork then DiffAlgorithm.btcMidas else DiffAlgorithm.btcMidas
  let nProofOfWorkLimit :=
    getCompact (if atOrPastFork then params.powLimitResetAtFork else params.powLimitHistoric)
  if pindexLast.nHeight + 1 = params.nPowMidasBlockStart then some nProofOfWorkLimit
  else if retarget = DiffAlgorithm.btcMidas then
    if (pindexLast.nHeight + 1).tmod params.difficultyAdjustmentInterval ≠ 0 then
      if params.fPowAllowMinDifficultyBlocks then
        if blockTime > pindexLast.getBlockTime + params.nPowTargetSpacing * 2 then
          some nProofOfWorkLimit
        else some (lastRegular params nProofOfWorkLimit pindexLast ancestors).nBits
      else some pindexLast.nBits
    else
      let nHeightFirst := pindexLast.nHeight - (params.difficultyAdjustmentInterval - 1)
      if nHeightFirst < 0 then none
      else
        match getAncestor (pindexLast :: ancestors) nHeightFirst with
        | none => none
        | some pindexFirst =>
            some (calculateNextWorkRequired pindexLast pindexFirst.getBlockTime params)
  else getNextWorkRequiredMidas params blockTime pindexLast ancestors

/-- Headers from the first block on, each with the work required of it. -/
inductive HeaderChain (params : ConsensusParams) : List CBlockIndex → Prop
  | genesis (pindex : CBlockIndex) (height : pindex.nHeight = 0) : HeaderChain params [pindex]
  | next (pindex pindexLast : CBlockIndex) (ancestors : List CBlockIndex)
      (chain : HeaderChain params (pindexLast :: ancestors))
      (height : pindex.nHeight = pindexLast.nHeight + 1)
      (work : getNextWorkRequired params pindex.getBlockTime pindexLast ancestors =
        some pindex.nBits) :
      HeaderChain params (pindex :: pindexLast :: ancestors)

/-- A compact target the proof-of-work test accepts under a limit. -/
structure TargetWithin (limit : Uint256) (nBits : BitVec 32) : Prop where
  nonnegative : (setCompact nBits).fNegative = false
  no_overflow : (setCompact nBits).fOverflow = false
  positive : 0 < (setCompact nBits).target.toNat
  within : (setCompact nBits).target ≤ limit

/-- The old target times the limited timespan of the last adjustment period. -/
def retargetProduct (params : ConsensusParams) (pindexLast : CBlockIndex)
    (ancestors : List CBlockIndex) : Nat :=
  match getAncestor (pindexLast :: ancestors)
    (pindexLast.nHeight - (params.difficultyAdjustmentInterval - 1)) with
  | none => 0
  | some pindexFirst => (setCompact pindexLast.nBits).target.toNat *
      (limitTimespan params (pindexLast.getBlockTime - pindexFirst.getBlockTime)).toNat

/-- What keeps one block under the limit of the fork: at an adjustment the scaled target is
positive and under the limit; on the test networks the walk back past blocks of minimal difficulty
does not end at a first block above the limit. -/
def StepInRange (params : ConsensusParams) (pindexLast : CBlockIndex)
    (ancestors : List CBlockIndex) : Prop :=
  pindexLast.nHeight + 1 = params.nPowMidasBlockStart ∨
    if (pindexLast.nHeight + 1).tmod params.difficultyAdjustmentInterval ≠ 0 then
      params.fPowAllowMinDifficultyBlocks = true →
        let pindex := lastRegular params (getCompact params.powLimitResetAtFork) pindexLast ancestors
        pindex.nHeight = 0 → TargetWithin params.powLimitResetAtFork pindex.nBits
    else
      params.nPowTargetTimespan.toNat ≤ retargetProduct params pindexLast ancestors ∧
        retargetProduct params pindexLast ancestors / params.nPowTargetTimespan.toNat ≤
          params.powLimitResetAtFork.toNat

/-! ## Chains -/

section Chains

variable {params : ConsensusParams}

theorem HeaderChain.suffix {chain suffix : List CBlockIndex} (headers : HeaderChain params chain)
    (part : suffix <:+ chain) (some_entry : suffix ≠ []) : HeaderChain params suffix := by
  induction headers with
  | genesis pindex height =>
      rcases List.suffix_cons_iff.mp part with whole | rest
      · rw [whole]
        exact HeaderChain.genesis pindex height
      · exact absurd (List.suffix_nil.mp rest) some_entry
  | next pindex pindexLast ancestors chain height work ih =>
      rcases List.suffix_cons_iff.mp part with whole | rest
      · rw [whole]
        exact HeaderChain.next pindex pindexLast ancestors chain height work
      · exact ih rest

theorem HeaderChain.height_nonneg {chain : List CBlockIndex} (headers : HeaderChain params chain) :
    ∀ pindex ∈ chain, 0 ≤ pindex.nHeight := by
  induction headers with
  | genesis first zero =>
      intro pindex member
      rw [List.mem_singleton.mp member, zero]
  | next tip pindexLast ancestors _ height _ ih =>
      intro pindex member
      rcases List.mem_cons.mp member with rfl | below
      · have last := ih pindexLast List.mem_cons_self
        omega
      · exact ih pindex below

theorem HeaderChain.height_mem {pindexLast : CBlockIndex} {ancestors : List CBlockIndex}
    (headers : HeaderChain params (pindexLast :: ancestors)) (height : Int) (nonneg : 0 ≤ height)
    (below : height ≤ pindexLast.nHeight) :
    ∃ pindex ∈ pindexLast :: ancestors, pindex.nHeight = height := by
  generalize whole : pindexLast :: ancestors = chain at headers
  induction headers generalizing pindexLast ancestors with
  | genesis pindex zero =>
      cases whole
      exact ⟨pindex, List.mem_cons_self, by omega⟩
  | next pindex pindexLast' ancestors' _ above _ ih =>
      cases whole
      by_cases same : pindex.nHeight = height
      · exact ⟨pindex, List.mem_cons_self, same⟩
      · obtain ⟨found, member, at_height⟩ := ih (by omega) rfl
        exact ⟨found, List.mem_cons_of_mem _ member, at_height⟩

/-- Every height up to the tip's has its ancestor. -/
theorem HeaderChain.getAncestor_some {pindexLast : CBlockIndex} {ancestors : List CBlockIndex}
    (headers : HeaderChain params (pindexLast :: ancestors)) (height : Int) (nonneg : 0 ≤ height)
    (below : height ≤ pindexLast.nHeight) :
    ∃ pindex, getAncestor (pindexLast :: ancestors) height = some pindex := by
  obtain ⟨pindex, member, at_height⟩ := headers.height_mem height nonneg below
  rw [← Option.isSome_iff_exists, getAncestor, List.find?_isSome]
  exact ⟨pindex, member, by simp [at_height]⟩

theorem lastRegular_mem (nProofOfWorkLimit : BitVec 32) (pindex : CBlockIndex)
    (ancestors : List CBlockIndex) :
    lastRegular params nProofOfWorkLimit pindex ancestors ∈ pindex :: ancestors := by
  induction ancestors generalizing pindex with
  | nil => exact List.mem_singleton.mpr rfl
  | cons pprev ancestors ih =>
      rw [lastRegular]
      split
      · exact List.mem_cons_of_mem _ (ih pprev)
      · exact List.mem_cons_self

end Chains

/-! ## The limit of the fork -/

section Limit

variable (hashGenesisBlock : Uint256) (network : Network)

theorem adjustment_interval :
    (consensusParams hashGenesisBlock network).difficultyAdjustmentInterval = 10 := by
  cases network <;> rfl

theorem target_spacing : (consensusParams hashGenesisBlock network).nPowTargetSpacing = 120 := by
  cases network <;> rfl

theorem midas_start : (consensusParams hashGenesisBlock network).nPowMidasBlockStart = 1 := by
  cases network <;> rfl

/-- The reset target itself is within the limit. -/
theorem reset_within :
    TargetWithin (consensusParams hashGenesisBlock network).powLimitResetAtFork
      (getCompact (consensusParams hashGenesisBlock network).powLimitResetAtFork) := by
  rw [fork_limit]
  constructor <;> decide

/-- A value is stored within the limit of the fork just when it is positive and under it. -/
theorem getCompact_within (a : Uint256) :
    TargetWithin powLimitForkMainnet (getCompact a) ↔
      0 < a.toNat ∧ a.toNat ≤ powLimitForkMainnet.toNat := by
  have limit : powLimitForkMainnet.toNat = 2 ^ 239 - 1 := by decide
  constructor
  · intro target
    have under : (setCompact (getCompact a)).target.toNat ≤ powLimitForkMainnet.toNat :=
      target.within
    constructor
    · by_contra none
      have zero : a = 0 := BitVec.eq_of_toNat_eq (by simpa using none)
      have empty : (setCompact (getCompact (0 : Uint256))).target.toNat = 0 := by decide
      have positive := target.positive
      rw [zero] at positive
      omega
    · by_contra above
      have kept := setCompact_getCompact_pow a 239 (by omega)
      omega
  · rintro ⟨positive, under⟩
    obtain ⟨nonnegative, no_overflow⟩ := setCompact_getCompact_flags a positive (by omega)
    obtain ⟨lower, upper⟩ := setCompact_getCompact a positive
    exact ⟨nonnegative, no_overflow, by omega, Nat.le_trans lower under⟩

/-- An adjustment from a target under the limit of the fork does not wrap, and the historic limit
does not cut what is under the limit of the fork. -/
theorem adjustment_within (pindexLast : CBlockIndex) (firstTime : Int)
    (within : TargetWithin powLimitForkMainnet pindexLast.nBits) :
    let params := consensusParams hashGenesisBlock network
    let product := (setCompact pindexLast.nBits).target.toNat *
      (limitTimespan params (pindexLast.getBlockTime - firstTime)).toNat
    TargetWithin powLimitForkMainnet (calculateNextWorkRequired pindexLast firstTime params) ↔
      1200 ≤ product ∧ product / 1200 ≤ powLimitForkMainnet.toNat := by
  intro params product
  have limit : powLimitForkMainnet.toNat = 2 ^ 239 - 1 := by decide
  have historic : 2 ^ 252 - 1 ≤ params.powLimitHistoric.toNat :=
    historic_limit_large hashGenesisBlock network
  have bounds := limitTimespan_bounds hashGenesisBlock network
    (pindexLast.getBlockTime - firstTime)
  have under : (setCompact pindexLast.nBits).target.toNat ≤ powLimitForkMainnet.toNat :=
    within.within
  have timespan : (limitTimespan params (pindexLast.getBlockTime - firstTime) % 2 ^ 32).toNat =
      (limitTimespan params (pindexLast.getBlockTime - firstTime)).toNat := by
    simp only [params]
    omega
  have small : product ≤ powLimitForkMainnet.toNat * 4800 := by
    apply Nat.mul_le_mul under
    simp only [params]
    omega
  have value := retarget_value hashGenesisBlock network pindexLast.nBits
    (limitTimespan params (pindexLast.getBlockTime - firstTime)).toNat
    (by simp only [params]; omega)
  have exact : (setCompact pindexLast.nBits).target.toNat *
      (limitTimespan params (pindexLast.getBlockTime - firstTime)).toNat % 2 ^ 256 = product :=
    Nat.mod_eq_of_lt (by omega)
  rw [exact] at value
  have result : calculateNextWorkRequired pindexLast firstTime params =
      getCompact (BitVec.ofNat 256 (min params.powLimitHistoric.toNat (product / 1200))) := by
    rw [← value, BitVec.ofNat_toNat, BitVec.setWidth_eq, ← timespan]
    simp only [calculateNextWorkRequired, params, retargets, target_timespan,
      Bool.false_eq_true, if_false]
  have size : (BitVec.ofNat 256 (min params.powLimitHistoric.toNat (product / 1200))).toNat =
      min params.powLimitHistoric.toNat (product / 1200) := by
    rw [BitVec.toNat_ofNat]
    exact Nat.mod_eq_of_lt (lt_of_le_of_lt (Nat.min_le_left _ _) params.powLimitHistoric.isLt)
  rw [result, getCompact_within, size]
  omega

/-- One block: under a chain within the limit, the next target is within it just when the step is
in range. -/
theorem next_work_within (pindexLast : CBlockIndex) (ancestors : List CBlockIndex)
    (headers : HeaderChain (consensusParams hashGenesisBlock network) (pindexLast :: ancestors))
    (within : ∀ pindex ∈ pindexLast :: ancestors, 0 < pindex.nHeight →
      TargetWithin (consensusParams hashGenesisBlock network).powLimitResetAtFork pindex.nBits) :
    let params := consensusParams hashGenesisBlock network
    (∀ nTime : BitVec 32, ∃ nBits,
      getNextWorkRequired params nTime.toNat pindexLast ancestors = some nBits ∧
        TargetWithin params.powLimitResetAtFork nBits) ↔
      StepInRange params pindexLast ancestors := by
  intro params
  have nonneg := headers.height_nonneg pindexLast List.mem_cons_self
  have start : params.nPowMidasBlockStart = 1 := midas_start hashGenesisBlock network
  have interval : params.difficultyAdjustmentInterval = 10 :=
    adjustment_interval hashGenesisBlock network
  have past : pindexLast.nHeight + 1 ≥ (1 : Int) := by omega
  have reset := reset_within hashGenesisBlock network
  simp only [getNextWorkRequired, StepInRange, start, interval, if_pos past, if_true]
  by_cases first : pindexLast.nHeight + 1 = 1
  · simp only [first, if_true, true_or, iff_true]
    intro _
    exact ⟨_, rfl, reset⟩
  · simp only [first, if_false, false_or]
    have last := within pindexLast List.mem_cons_self (by omega)
    by_cases between : (pindexLast.nHeight + 1).tmod 10 ≠ 0
    · simp only [if_pos between]
      by_cases minimal : params.fPowAllowMinDifficultyBlocks = true
      · simp only [minimal, if_true, true_implies]
        have member : lastRegular params (getCompact params.powLimitResetAtFork) pindexLast
          ancestors ∈ pindexLast :: ancestors := lastRegular_mem _ pindexLast ancestors
        constructor
        · intro required _
          obtain ⟨nBits, work, target⟩ := required pindexLast.nTime
          have spacing : params.nPowTargetSpacing = 120 := target_spacing hashGenesisBlock network
          rw [if_neg (by rw [CBlockIndex.getBlockTime, spacing]; omega)] at work
          rwa [Option.some.inj work]
        · intro in_range nTime
          split
          · exact ⟨_, rfl, reset⟩
          · refine ⟨_, rfl, ?_⟩
            have walked := headers.height_nonneg _ member
            by_cases genesis : (lastRegular params (getCompact params.powLimitResetAtFork) pindexLast
                ancestors).nHeight = 0
            · exact in_range genesis
            · exact within _ member (by omega)
      · simp only [minimal, Bool.false_eq_true, if_false, false_implies, iff_true]
        intro _
        exact ⟨_, rfl, last⟩
    · simp only [if_neg between]
      -- the tenth block of a period has the first one nine below it
      have period : 9 ≤ pindexLast.nHeight := by
        rw [ne_eq, not_not, Int.tmod_eq_emod_of_nonneg (by omega)] at between
        omega
      obtain ⟨pindexFirst, found⟩ := headers.getAncestor_some (pindexLast.nHeight - (10 - 1))
        (by omega) (by omega)
      rw [fork_limit] at last
      have adjusted := adjustment_within hashGenesisBlock network pindexLast
        pindexFirst.getBlockTime last
      have product : retargetProduct params pindexLast ancestors =
          (setCompact pindexLast.nBits).target.toNat *
            (limitTimespan params (pindexLast.getBlockTime - pindexFirst.getBlockTime)).toNat := by
        simp only [retargetProduct, interval, found]
      have timespan : params.nPowTargetTimespan.toNat = 1200 := by
        rw [target_timespan]
        rfl
      have limit : params.powLimitResetAtFork = powLimitForkMainnet :=
        fork_limit hashGenesisBlock network
      rw [product, timespan, limit]
      refine Iff.trans ?_ adjusted
      simp only [if_neg (by omega : ¬ pindexLast.nHeight - (10 - 1) < 0), found]
      constructor
      · intro required
        obtain ⟨nBits, work, target⟩ := required 0
        rwa [Option.some.inj work]
      · intro target _
        exact ⟨_, rfl, target⟩

/-- Every block past the first is within the limit when its parent's next target was, as long as
the blocks below are. -/
theorem entries_within (chain : List CBlockIndex)
    (headers : HeaderChain (consensusParams hashGenesisBlock network) chain) :
    let params := consensusParams hashGenesisBlock network
    (∀ pindexLast ancestors, (pindexLast :: ancestors) <:+ chain →
      (∀ pindex ∈ pindexLast :: ancestors, 0 < pindex.nHeight →
        TargetWithin params.powLimitResetAtFork pindex.nBits) →
      ∀ nTime : BitVec 32, ∃ nBits,
        getNextWorkRequired params nTime.toNat pindexLast ancestors = some nBits ∧
          TargetWithin params.powLimitResetAtFork nBits) →
      ∀ pindex ∈ chain, 0 < pindex.nHeight →
        TargetWithin params.powLimitResetAtFork pindex.nBits := by
  intro params
  induction headers with
  | genesis first zero =>
      intro _ pindex member positive
      rw [List.mem_singleton.mp member, zero] at positive
      omega
  | next tip pindexLast ancestors below height work ih =>
      intro steps
      have within := ih (fun last rest part => steps last rest
        (part.trans (List.suffix_cons tip _)))
      intro pindex member positive
      rcases List.mem_cons.mp member with rfl | earlier
      · obtain ⟨nBits, next, target⟩ := steps pindexLast ancestors (List.suffix_cons _ _) within
          pindex.nTime
        have same : some nBits = some pindex.nBits := next.symm.trans work
        rwa [Option.some.inj same] at target
      · exact within pindex earlier positive

end Limit

/-! A chain mined at a quarter of the intended pace. -/

def slowBlock (height : Nat) : CBlockIndex where
  phashBlock := none
  pprev := none
  nHeight := height
  nVersion := 4
  hashMerkleRoot := 0
  nTime := BitVec.ofNat 32 (1509853643 + 600 * height)
  nBits := if height = 0 then 0x21000fff else 0x1e7fffff
  nNonce := 0
  nStartLocation := 0
  nFinalCalculation := 0

def slowChain : Nat → List CBlockIndex
  | 0 => [slowBlock 0]
  | n + 1 => slowBlock (n + 1) :: slowChain n

theorem slowChain_extends (n : Nat) (headers : HeaderChain mainParams (slowChain n))
    (work : ∀ pindexLast ancestors, slowChain n = pindexLast :: ancestors →
      getNextWorkRequired mainParams (slowBlock (n + 1)).getBlockTime pindexLast ancestors =
        some (slowBlock (n + 1)).nBits) : HeaderChain mainParams (slowChain (n + 1)) := by
  cases n with
  | zero => exact HeaderChain.next _ _ _ headers rfl (work _ _ rfl)
  | succ n => exact HeaderChain.next _ _ _ headers rfl (work _ _ rfl)

theorem slowChain_headers : ∀ n, n < 10 → HeaderChain mainParams (slowChain n) := by
  intro n few
  induction n with
  | zero => exact HeaderChain.genesis _ rfl
  | succ n ih =>
      apply slowChain_extends n (ih (by omega))
      intro pindexLast ancestors chain
      have known : n = 0 ∨ n = 1 ∨ n = 2 ∨ n = 3 ∨ n = 4 ∨ n = 5 ∨ n = 6 ∨ n = 7 ∨ n = 8 := by
        omega
      rcases known with rfl | rfl | rfl | rfl | rfl | rfl | rfl | rfl | rfl <;>
        (cases chain; decide)

end RoiCoin
