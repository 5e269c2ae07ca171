import RoiCoin.NextWork

/-! Legacy retargeting of a chain whose blocks arrive exactly on schedule.

The measured interval spans one block less than the adjustment interval, so that it is too short
by one spacing. -/

namespace RoiCoin

open ArithUint256

/-- Entries from the genesis block on, each one spacing after its parent. -/
inductive OnSchedule (params : ConsensusParams) : List CBlockIndex → Prop
  | genesis (pindex : CBlockIndex) (height : pindex.nHeight = 0) : OnSchedule params [pindex]
  | next (pindex pindexLast : CBlockIndex) (ancestors : List CBlockIndex)
      (chain : OnSchedule params (pindexLast :: ancestors))
      (height : pindex.nHeight = pindexLast.nHeight + 1)
      (time : pindex.getBlockTime = pindexLast.getBlockTime + params.nPowTargetSpacing) :
      OnSchedule params (pindex :: pindexLast :: ancestors)

/-- A chain on schedule from a starting block at or past the fork, with the work required of every
later block. -/
inductive Scheduled (params : ConsensusParams) (start : CBlockIndex) (earlier : List CBlockIndex) :
    List CBlockIndex → Prop
  | start (legacy : params.nPowMidasBlockStart ≤ start.nHeight)
      (schedule : OnSchedule params (start :: earlier)) :
      Scheduled params start earlier (start :: earlier)
  | next (pindex pindexLast : CBlockIndex) (ancestors : List CBlockIndex)
      (chain : Scheduled params start earlier (pindexLast :: ancestors))
      (height : pindex.nHeight = pindexLast.nHeight + 1)
      (time : pindex.getBlockTime = pindexLast.getBlockTime + params.nPowTargetSpacing)
      (work : getNextWorkRequired params pindex.getBlockTime pindexLast ancestors =
        some pindex.nBits) :
      Scheduled params start earlier (pindex :: pindexLast :: ancestors)

/-- A compact target as `GetCompact` writes it, of at most `2 ^ 240`. -/
structure CanonicalTarget (nBits : BitVec 32) : Prop where
  canonical : getCompact (setCompact nBits).target = nBits
  small : (setCompact nBits).target.toNat ≤ 2 ^ 240

/-- Where minimum-difficulty blocks are allowed, the block is not a special one: the last regular
block has its target. -/
def NotSpecial (params : ConsensusParams) (pindex : CBlockIndex) (ancestors : List CBlockIndex) :
    Prop :=
  params.fPowAllowMinDifficultyBlocks = true →
    (lastRegular params (getCompact params.powLimitResetAtFork) pindex ancestors).nBits =
      pindex.nBits

/-- The next block on schedule is required to have the target of its parent. -/
def KeepsBits (params : ConsensusParams) (pindex : CBlockIndex) (ancestors : List CBlockIndex) :
    Prop :=
  getNextWorkRequired params (pindex.getBlockTime + params.nPowTargetSpacing) pindex ancestors =
    some pindex.nBits

/-! ## The chain -/

section Chain

variable {params : ConsensusParams}

theorem OnSchedule.lower_heights {pindex : CBlockIndex} {ancestors : List CBlockIndex}
    (schedule : OnSchedule params (pindex :: ancestors)) :
    ∀ other ∈ ancestors, other.nHeight < pindex.nHeight := by
  generalize whole : pindex :: ancestors = chain at schedule
  induction schedule generalizing pindex ancestors with
  | genesis first zero =>
      cases whole
      simp
  | next tip pindexLast rest chain height time ih =>
      cases whole
      rw [List.forall_mem_cons]
      refine ⟨by omega, ?_⟩
      intro other member
      have lower := ih rfl other member
      omega

/-- The ancestor at a height is as many spacings older. -/
theorem OnSchedule.ancestor {pindex : CBlockIndex} {ancestors : List CBlockIndex}
    (schedule : OnSchedule params (pindex :: ancestors)) (height : Int) (nonneg : 0 ≤ height)
    (below : height ≤ pindex.nHeight) :
    ∃ pindexFirst, getAncestor (pindex :: ancestors) height = some pindexFirst ∧
      pindexFirst.getBlockTime =
        pindex.getBlockTime - (pindex.nHeight - height) * params.nPowTargetSpacing := by
  generalize whole : pindex :: ancestors = chain at schedule
  induction schedule generalizing pindex ancestors with
  | genesis first zero =>
      cases whole
      have same : height = 0 := by omega
      refine ⟨first, ?_, ?_⟩
      · rw [getAncestor, List.find?_cons_of_pos]
        simp [zero, same]
      · rw [zero, same]
        simp
  | next tip pindexLast rest chain above time ih =>
      cases whole
      by_cases here : tip.nHeight = height
      · refine ⟨tip, ?_, ?_⟩
        · rw [getAncestor, List.find?_cons_of_pos]
          simp [here]
        · rw [here]
          simp
      · obtain ⟨pindexFirst, found, older⟩ := ih (by omega) rfl
        refine ⟨pindexFirst, ?_, ?_⟩
        · rw [getAncestor, List.find?_cons_of_neg (by simpa using here)]
          exact found
        · rw [older, time, above]
          ring

theorem Scheduled.schedule {start : CBlockIndex} {earlier chain : List CBlockIndex}
    (scheduled : Scheduled params start earlier chain) : OnSchedule params chain := by
  induction scheduled with
  | start legacy schedule => exact schedule
  | next pindex pindexLast ancestors chain height time work ih =>
      exact .next pindex pindexLast ancestors ih height time

theorem Scheduled.above {start : CBlockIndex} {earlier : List CBlockIndex} {pindex : CBlockIndex}
    {ancestors : List CBlockIndex}
    (scheduled : Scheduled params start earlier (pindex :: ancestors)) :
    params.nPowMidasBlockStart ≤ start.nHeight ∧ start.nHeight ≤ pindex.nHeight := by
  generalize whole : pindex :: ancestors = chain at scheduled
  induction scheduled generalizing pindex ancestors with
  | start legacy schedule =>
      cases whole
      exact ⟨legacy, Int.le_refl _⟩
  | next tip pindexLast below chain height time work ih =>
      cases whole
      have lower := ih rfl
      exact ⟨lower.1, by omega⟩

end Chain

/-! ## One block -/

section Networks

variable (hashGenesisBlock : Uint256) (network : Network)

/-- The adjustment on schedule: nine spacings are measured in place of ten. -/
theorem adjustment_on_schedule (pindexLast : CBlockIndex) (firstTime : Int)
    (small : (setCompact pindexLast.nBits).target.toNat ≤ 2 ^ 240)
    (measured : pindexLast.getBlockTime - firstTime = 1080) :
    calculateNextWorkRequired pindexLast firstTime (consensusParams hashGenesisBlock network) =
      getCompact (BitVec.ofNat 256 ((setCompact pindexLast.nBits).target.toNat * 1080 / 1200)) := by
  have limited : limitTimespan (consensusParams hashGenesisBlock network) 1080 = 1080 := by
    have quarter : (1200 : Int).tdiv 4 = 300 := rfl
    rw [limitTimespan, target_timespan, quarter]
    rfl
  have value := retarget_value hashGenesisBlock network pindexLast.nBits 1080 (by omega)
  have historic := historic_limit_large hashGenesisBlock network
  have whole : (setCompact pindexLast.nBits).target.toNat * 1080 % 2 ^ 256 =
      (setCompact pindexLast.nBits).target.toNat * 1080 := Nat.mod_eq_of_lt (by omega)
  have capped : min (consensusParams hashGenesisBlock network).powLimitHistoric.toNat
      ((setCompact pindexLast.nBits).target.toNat * 1080 / 1200) =
      (setCompact pindexLast.nBits).target.toNat * 1080 / 1200 := Nat.min_eq_right (by omega)
  simp only at value
  rw [whole, capped] at value
  rw [← value, BitVec.ofNat_toNat, BitVec.setWidth_eq]
  simp only [calculateNextWorkRequired, retargets, target_timespan, measured, limited,
    Bool.false_eq_true, if_false]
  rfl

/-- At an adjustment nine tenths of the target are required. -/
theorem next_adjusts (pindex : CBlockIndex) (ancestors : List CBlockIndex)
    (schedule : OnSchedule (consensusParams hashGenesisBlock network) (pindex :: ancestors))
    (legacy : 1 ≤ pindex.nHeight) (adjusts : (pindex.nHeight + 1) % 10 = 0)
    (small : (setCompact pindex.nBits).target.toNat ≤ 2 ^ 240) (blockTime : Int) :
    getNextWorkRequired (consensusParams hashGenesisBlock network) blockTime pindex ancestors =
      some (getCompact (BitVec.ofNat 256
        ((setCompact pindex.nBits).target.toNat * 1080 / 1200))) := by
  have start := midas_start hashGenesisBlock network
  have interval := adjustment_interval hashGenesisBlock network
  have spacing := target_spacing hashGenesisBlock network
  have past : pindex.nHeight + 1 ≥ 1 := by omega
  have later : ¬ pindex.nHeight + 1 = 1 := by omega
  have remainder : (pindex.nHeight + 1).tmod 10 = 0 := by
    rw [Int.tmod_eq_emod_of_nonneg (by omega), adjusts]
  simp only [getNextWorkRequired, start, interval, if_pos past, if_neg later, remainder, if_true,
    ne_eq, not_true_eq_false, if_false]
  obtain ⟨pindexFirst, found, older⟩ :=
    schedule.ancestor (pindex.nHeight - (10 - 1)) (by omega) (by omega)
  rw [spacing] at older
  rw [if_neg (by omega), found]
  dsimp only
  rw [adjustment_on_schedule hashGenesisBlock network pindex _ small (by omega)]

/-- Between adjustments the target of the parent is required. -/
theorem next_between (pindex : CBlockIndex) (ancestors : List CBlockIndex)
    (legacy : 1 ≤ pindex.nHeight) (between : (pindex.nHeight + 1) % 10 ≠ 0)
    (regular : NotSpecial (consensusParams hashGenesisBlock network) pindex ancestors) :
    KeepsBits (consensusParams hashGenesisBlock network) pindex ancestors := by
  have start := midas_start hashGenesisBlock network
  have interval := adjustment_interval hashGenesisBlock network
  have spacing := target_spacing hashGenesisBlock network
  have past : pindex.nHeight + 1 ≥ 1 := by omega
  have later : ¬ pindex.nHeight + 1 = 1 := by omega
  have remainder : (pindex.nHeight + 1).tmod 10 = (pindex.nHeight + 1) % 10 :=
    Int.tmod_eq_emod_of_nonneg (by omega)
  simp only [KeepsBits, getNextWorkRequired, start, interval, spacing, if_pos past, if_neg later,
    remainder, if_true, between, ne_eq, not_false_eq_true]
  split
  · rename_i minimal
    rw [if_neg (by omega), regular minimal]
  · rfl

/-- A canonical target scaled by nine tenths is another compact number, unless it is zero. -/
theorem scaled_differs (nBits : BitVec 32) (target : CanonicalTarget nBits) :
    getCompact (BitVec.ofNat 256 ((setCompact nBits).target.toNat * 1080 / 1200)) = nBits ↔
      (setCompact nBits).target = 0 := by
  have bound := target.small
  have scaled : (BitVec.ofNat 256 ((setCompact nBits).target.toNat * 1080 / 1200)).toNat =
      (setCompact nBits).target.toNat * 1080 / 1200 := by
    rw [BitVec.toNat_ofNat]
    exact Nat.mod_eq_of_lt (by omega)
  constructor
  · intro same
    by_contra nonzero
    have positive : 0 < (setCompact nBits).target.toNat := by
      by_contra none
      exact nonzero (BitVec.eq_of_toNat_eq (by simpa using none))
    by_cases vanishes : (setCompact nBits).target.toNat * 1080 / 1200 = 0
    · rw [vanishes] at same
      have empty : (setCompact (getCompact (BitVec.ofNat 256 0))).target.toNat = 0 := by decide
      rw [same] at empty
      omega
    · have kept := (setCompact_getCompact
        (BitVec.ofNat 256 ((setCompact nBits).target.toNat * 1080 / 1200)) (by omega)).1
      rw [same, scaled] at kept
      omega
  · intro zero
    have canonical := target.canonical
    rw [zero] at canonical ⊢
    exact canonical

/-! ## The whole chain -/

/-- Where the next target is the parent's from the start on, every block has the starting target. -/
theorem Scheduled.kept {params : ConsensusParams} {start : CBlockIndex}
    {earlier chain : List CBlockIndex} (scheduled : Scheduled params start earlier chain)
    (keeps : ∀ pindex ancestors, Scheduled params start earlier (pindex :: ancestors) →
      pindex :: ancestors <:+ chain → KeepsBits params pindex ancestors) :
    ∀ pindex ancestors, chain = pindex :: ancestors → pindex.nBits = start.nBits := by
  induction scheduled with
  | start legacy schedule =>
      intro pindex ancestors whole
      cases whole
      rfl
  | next tip pindexLast rest lower height time work ih =>
      intro pindex ancestors whole
      cases whole
      have last := ih (fun other ancestors' part below =>
        keeps other ancestors' part (below.trans (List.suffix_cons _ _))) pindexLast rest rfl
      have kept := keeps pindexLast rest lower (List.suffix_cons _ _)
      rw [KeepsBits, ← time, work, Option.some.injEq] at kept
      exact kept.trans last

/-- Away from adjustments, or with a target of zero, the blocks of a chain on schedule keep the
starting target. -/
theorem Scheduled.keeps {start : CBlockIndex} {earlier chain : List CBlockIndex}
    (scheduled : Scheduled (consensusParams hashGenesisBlock network) start earlier chain)
    (target : CanonicalTarget start.nBits)
    (regular : NotSpecial (consensusParams hashGenesisBlock network) start earlier)
    (away : (setCompact start.nBits).target = 0 ∨
      ∀ pindex ∈ chain, start.nHeight ≤ pindex.nHeight → (pindex.nHeight + 1) % 10 ≠ 0) :
    ∀ pindex ancestors, chain = pindex :: ancestors →
      pindex.nBits = start.nBits ∧
        NotSpecial (consensusParams hashGenesisBlock network) pindex ancestors ∧
        KeepsBits (consensusParams hashGenesisBlock network) pindex ancestors := by
  have step : ∀ pindex ancestors,
      Scheduled (consensusParams hashGenesisBlock network) start earlier (pindex :: ancestors) →
      pindex.nBits = start.nBits →
      NotSpecial (consensusParams hashGenesisBlock network) pindex ancestors →
      ((setCompact start.nBits).target = 0 ∨ (pindex.nHeight + 1) % 10 ≠ 0) →
      KeepsBits (consensusParams hashGenesisBlock network) pindex ancestors := by
    intro pindex ancestors part bits ordinary here
    have above := part.above
    rw [midas_start] at above
    by_cases adjusts : (pindex.nHeight + 1) % 10 = 0
    · rw [KeepsBits, next_adjusts hashGenesisBlock network pindex ancestors part.schedule
        (by omega) adjusts (by rw [bits]; exact target.small), bits, Option.some.injEq,
        scaled_differs start.nBits target]
      exact here.resolve_right fun other => other adjusts
    · exact next_between hashGenesisBlock network pindex ancestors (by omega) adjusts ordinary
  induction scheduled with
  | start legacy schedule =>
      intro pindex ancestors whole
      cases whole
      refine ⟨rfl, regular, step start earlier (.start legacy schedule) rfl regular ?_⟩
      exact away.imp_right fun off => off start List.mem_cons_self (Int.le_refl _)
  | next tip pindexLast rest lower height time work ih =>
      intro pindex ancestors whole
      cases whole
      obtain ⟨bits, ordinary, kept⟩ := ih (away.imp_right fun off other member =>
        off other (List.mem_cons_of_mem _ member)) pindexLast rest rfl
      have same : tip.nBits = pindexLast.nBits := by
        rw [KeepsBits, ← time, work, Option.some.injEq] at kept
        exact kept
      have ordinary' : NotSpecial (consensusParams hashGenesisBlock network) tip
          (pindexLast :: rest) := by
        intro minimal
        rw [lastRegular]
        split
        · rw [ordinary minimal, same]
        · rfl
      have part := Scheduled.next tip pindexLast rest lower height time work
      refine ⟨same.trans bits, ordinary', step tip _ part (same.trans bits) ordinary' ?_⟩
      exact away.imp_right fun off => off tip List.mem_cons_self part.above.2

/-- A block from the start on, with its ancestors, is again a chain on schedule. -/
theorem Scheduled.suffix {params : ConsensusParams} {start : CBlockIndex}
    {earlier chain : List CBlockIndex} (scheduled : Scheduled params start earlier chain)
    (pindex : CBlockIndex) (ancestors : List CBlockIndex) (part : pindex :: ancestors <:+ chain)
    (later : start.nHeight ≤ pindex.nHeight) :
    Scheduled params start earlier (pindex :: ancestors) := by
  induction scheduled with
  | start legacy schedule =>
      rcases List.suffix_cons_iff.mp part with whole | below
      · rw [whole]
        exact .start legacy schedule
      · have lower := schedule.lower_heights pindex (below.subset List.mem_cons_self)
        omega
  | next tip pindexLast rest lower height time work ih =>
      rcases List.suffix_cons_iff.mp part with whole | below
      · rw [whole]
        exact .next tip pindexLast rest lower height time work
      · exact ih below

/-- On schedule every later block is required to have the target of its parent exactly when no
adjustment lies between the start and the next block, or the target is zero. -/
theorem on_schedule_keeps_bits (start : CBlockIndex) (earlier chain : List CBlockIndex)
    (scheduled : Scheduled (consensusParams hashGenesisBlock network) start earlier chain)
    (target : CanonicalTarget start.nBits)
    (regular : NotSpecial (consensusParams hashGenesisBlock network) start earlier) :
    (∀ pindex ancestors, pindex :: ancestors <:+ chain → start.nHeight ≤ pindex.nHeight →
        KeepsBits (consensusParams hashGenesisBlock network) pindex ancestors) ↔
      (setCompact start.nBits).target = 0 ∨
        ∀ pindex ∈ chain, start.nHeight ≤ pindex.nHeight → (pindex.nHeight + 1) %
          (consensusParams hashGenesisBlock network).difficultyAdjustmentInterval ≠ 0 := by
  rw [adjustment_interval]
  constructor
  · intro keeps
    by_contra neither
    rw [not_or] at neither
    obtain ⟨nonzero, adjustment⟩ := neither
    apply adjustment
    intro pindex member later adjusts
    obtain ⟨upper, ancestors, whole⟩ := List.append_of_mem member
    have suffix : pindex :: ancestors <:+ chain := ⟨upper, whole.symm⟩
    have part := scheduled.suffix pindex ancestors suffix later
    have bits : pindex.nBits = start.nBits := by
      apply part.kept _ pindex ancestors rfl
      intro other below lower inside
      exact keeps other below (inside.trans suffix) lower.above.2
    have above := part.above
    rw [midas_start] at above
    have kept := keeps pindex ancestors suffix later
    rw [KeepsBits, next_adjusts hashGenesisBlock network pindex ancestors part.schedule (by omega)
      adjusts (by rw [bits]; exact target.small), bits, Option.some.injEq,
      scaled_differs start.nBits target] at kept
    exact nonzero kept
  · intro away pindex ancestors suffix later
    have part := scheduled.suffix pindex ancestors suffix later
    refine (part.keeps hashGenesisBlock network target regular ?_ pindex ancestors rfl).2.2
    exact away.imp_right fun off other member => off other (suffix.subset member)

end Networks

/-! ## A chain of one target -/

def entryAt (n : Nat) : CBlockIndex where
  phashBlock := none
  pprev := none
  nHeight := n
  nVersion := 4
  hashMerkleRoot := 0
  nTime := BitVec.ofNat 32 (1000 + 120 * n)
  nBits := 0x1d00ffff
  nNonce := 0
  nStartLocation := 0
  nFinalCalculation := 0

/-- The entries up to a height, the last one first. -/
def entriesTo : Nat → List CBlockIndex
  | 0 => [entryAt 0]
  | n + 1 => entryAt (n + 1) :: entriesTo n

theorem entryAt_time (n : Nat) (small : n < 100) :
    (entryAt n).getBlockTime = 1000 + 120 * (n : Int) := by
  rw [CBlockIndex.getBlockTime, entryAt]
  dsimp only
  rw [BitVec.toNat_ofNat, Nat.mod_eq_of_lt (by omega)]
  omega

theorem entry_target (n : Nat) : CanonicalTarget (entryAt n).nBits := by
  change CanonicalTarget 0x1d00ffff
  constructor <;> decide

theorem notSpecial_main (pindex : CBlockIndex) (ancestors : List CBlockIndex) :
    NotSpecial (consensusParams 0 .main) pindex ancestors := by
  intro minimal
  cases minimal

theorem entries_scheduled (n : Nat) (small : n < 9) :
    Scheduled (consensusParams 0 .main) (entryAt 1) [entryAt 0] (entriesTo (n + 1)) := by
  have later : ∀ m < 9, (entryAt (m + 1)).getBlockTime =
      (entryAt m).getBlockTime + (consensusParams 0 .main).nPowTargetSpacing := by
    intro m below
    rw [entryAt_time (m + 1) (by omega), entryAt_time m (by omega), target_spacing]
    omega
  have above : ∀ m, (entryAt (m + 1)).nHeight = (entryAt m).nHeight + 1 := Int.natCast_succ
  induction n with
  | zero =>
      refine .start (Int.le_refl 1) (.next _ _ _ (.genesis _ rfl) (above 0) (later 0 small))
  | succ n ih =>
      have chain := ih (by omega)
      have height : (entryAt (n + 1)).nHeight = (n : Int) + 1 := above n
      have kept := next_between 0 .main (entryAt (n + 1)) (entriesTo n) (by omega) (by omega)
        (notSpecial_main _ _)
      rw [KeepsBits, ← later (n + 1) small] at kept
      exact .next _ _ _ chain (above (n + 1)) (later (n + 1) small) kept

/-- Five blocks on schedule within one adjustment period. -/
theorem on_schedule_keeps_bits_early : KeepsBits (consensusParams 0 .main) (entryAt 5)
    (entriesTo 4) := by
  refine (on_schedule_keeps_bits 0 .main (entryAt 1) [entryAt 0] (entriesTo 5)
    (entries_scheduled 4 (by decide)) (entry_target 1) (notSpecial_main _ _)).mpr ?_ _ _
    (List.suffix_refl _) (by decide)
  right
  decide

/-- The tenth block is required to be harder although every block was on schedule. -/
theorem on_schedule_gets_harder :
    Scheduled (consensusParams 0 .main) (entryAt 1) [entryAt 0] (entriesTo 9) ∧
      CanonicalTarget (entryAt 1).nBits ∧
      getNextWorkRequired (consensusParams 0 .main)
          ((entryAt 9).getBlockTime + (consensusParams 0 .main).nPowTargetSpacing) (entryAt 9)
          (entriesTo 8) = some 0x1d00e665 ∧
      ¬ KeepsBits (consensusParams 0 .main) (entryAt 9) (entriesTo 8) := by
  refine ⟨entries_scheduled 8 (by decide), entry_target 1, ?_, ?_⟩
  · decide
  · rw [KeepsBits]
    decide

end RoiCoin
