import RoiCoin.Validation.MostWork

/-! The best chain is active when `ActivateBestChain` succeeds.

Through all of its steps the candidate that `FindMostWorkChain` returned stays the largest one,
until connecting a block on its path is found invalid; then the next turn marks that path. -/

namespace RoiCoin

open Branches Candidates

namespace ChainState

/-- On the way to the best candidate. -/
structure Towards (w : Surroundings) (s : ChainState) (m : Uint256) : Prop where
  sound : s.Sound w []
  ready : s.Ready m
  best : s.bestCandidate w = some m

/-- Nothing but the tip and the counters moves. -/
structure Calm (s s' : ChainState) : Prop where
  keeps : Keeps s s'
  failed : s'.failed = s.failed
  candidates : s'.setBlockIndexCandidates = s.setBlockIndexCandidates
  rejected : s'.rejected = s.rejected

section Calm

variable (w : Surroundings) (s s' : ChainState) (calm : Calm s s')
include calm

theorem calm_ready (p : Uint256) (ready : s.Ready p) : s'.Ready p := by
  rw [Ready, calm.keeps.known, calm.keeps.nChainTx, same_tree_branch s s' calm.keeps.toSameTree,
    calm.failed]
  exact ready

theorem calm_sure (p : Uint256) (sure : s.Sure w p) : s'.Sure w p := by
  refine ⟨calm_ready s s' calm p sure.1, ?_⟩
  rw [same_tree_branch s s' calm.keeps.toSameTree]
  exact sure.2

theorem calm_best : s'.bestCandidate w = s.bestCandidate w := by
  rw [bestCandidate, bestCandidate, calm.candidates, same_tree_key w s s' calm.keeps.toSameTree]

/-- A tip that connects may take the place of the old one. -/
theorem calm_sound (active : s'.chainActive = s'.tip.elim [] s.branch)
    (sure : ∀ t, s'.tip = some t → s.Sure w t) (sound : s.Sound w []) : s'.Sound w [] := by
  have same := calm.keeps.toSameTree
  have stays : ∀ g ∈ s.setBlockIndexCandidates, s.Sure w g →
      g ∈ s'.setBlockIndexCandidates ∧ s'.Sure w g := by
    intro g among fits
    rw [calm.candidates]
    exact ⟨among, calm_sure w s s' calm g fits⟩
  refine ⟨keeps_consistent s s' calm.keeps sound.consistent, ⟨?_, ?_, ?_⟩, ?_⟩
  · rw [same_tree_branch s s' same]
    exact active
  · intro t top
    exact calm_sure w s s' calm t (sure t top)
  · rw [same_tree_key w s s' same]
    apply covered_drop _ _ _ _ _ _ _ sound.ranked.covered (same_tree_ready s s' same) _ stays
    intro a among _
    rw [calm.candidates]
    exact among
  · exact same_tree_recorded s s' same calm.rejected sound.recorded

theorem calm_towards (m : Uint256) (active : s'.chainActive = s'.tip.elim [] s.branch)
    (sure : ∀ t, s'.tip = some t → s.Sure w t) (towards : s.Towards w m) : s'.Towards w m := by
  refine ⟨calm_sound w s s' calm active sure towards.sound, ?_, ?_⟩
  · exact calm_ready s s' calm m towards.ready
  · rw [calm_best w s s' calm]
    exact towards.best

end Calm

/-- One more trial. -/
def tried (s : ChainState) : ChainState := { s with trials := s.trials + 1 }

theorem tried_calm (s : ChainState) : Calm s s.tried :=
  ⟨⟨⟨rfl, rfl, rfl, rfl, rfl, rfl, fun _ bad => bad⟩, rfl, rfl, fun _ => le_rfl, rfl,
    fun _ member => member⟩, rfl, rfl, rfl⟩

theorem set_tip_calm (s s' : ChainState) (t : Option Uint256) (calm : Calm s s') :
    Calm s (s'.setTip t) := by
  obtain ⟨keeps, failed, candidates, rejected⟩ := calm
  have moved : Keeps s' (s'.setTip t) :=
    ⟨⟨rfl, rfl, rfl, rfl, rfl, rfl, fun _ bad => bad⟩, rfl, rfl, fun _ => le_rfl, rfl,
      fun _ member => member⟩
  exact ⟨keeps_trans s s' _ keeps moved, failed, candidates, rejected⟩

theorem tried_towards (w : Surroundings) (s : ChainState) (m : Uint256)
    (towards : s.Towards w m) : s.tried.Towards w m :=
  calm_towards w s _ (tried_calm s) m towards.sound.ranked.active towards.sound.ranked.sure towards

/-! ## Disconnecting -/

theorem disconnect_tip_cases (w : Surroundings) (s s' : ChainState) (result : TipResult)
    (returned : s.disconnectTip w = some (s', result)) :
    s' = s.tried ∨ ∃ t, s.tip = some t ∧ s' = s.tried.setTip (s.pprev t) := by
  rw [disconnectTip] at returned
  cases top : s.tip with
  | none =>
      rw [top] at returned
      cases returned
  | some t =>
      rw [top] at returned
      dsimp only at returned
      split_ifs at returned
      · cases returned
        exact .inl rfl
      · cases returned
        exact .inr ⟨t, rfl, rfl⟩

theorem disconnect_tip_towards (w : Surroundings) (s s' : ChainState) (m : Uint256)
    (result : TipResult) (towards : s.Towards w m)
    (returned : s.disconnectTip w = some (s', result)) : s'.Towards w m := by
  rcases disconnect_tip_cases w s s' result returned with rfl | ⟨t, top, rfl⟩
  · exact tried_towards w s m towards
  · have consistent := towards.sound.consistent
    have sure := towards.sound.ranked.sure t top
    apply calm_towards w s _ (set_tip_calm s s.tried _ (tried_calm s)) m _ _ towards
    · rw [tip_set_tip]
      rfl
    · rw [tip_set_tip]
      intro a link
      apply sure_branch s [] consistent w t sure a
      apply (mem_branch s.pprev s.nHeight _ consistent.rooted t a sure.1.1).mpr
      have inside := consistent.rooted.closed t a sure.1.1 link
      exact .inr ⟨a, link, mem_branch_self s.pprev s.nHeight _ consistent.rooted a inside⟩

theorem disconnect_to_towards (w : Surroundings) (fork : Option Uint256) (fuel : Nat)
    (s s' : ChainState) (m : Uint256) (result : TipResult) (towards : s.Towards w m)
    (returned : s.disconnectTo w fork fuel = some (s', result)) : s'.Towards w m := by
  induction fuel generalizing s with
  | zero => cases returned
  | succ fuel ih =>
      rw [disconnectTo] at returned
      split_ifs at returned
      · cases returned
        exact towards
      · cases step : s.disconnectTip w with
        | none =>
            rw [step] at returned
            cases returned
        | some value =>
            obtain ⟨below, outcome⟩ := value
            have next := disconnect_tip_towards w s below m outcome towards step
            rw [step] at returned
            cases outcome with
            | done => exact ih below next returned
            | invalid corruptionPossible =>
                cases returned
                exact next
            | error =>
                cases returned
                exact next

/-! ## Connecting -/

theorem connect_tip_cases (w : Surroundings) (s s' : ChainState) (b : Uint256)
    (result : TipResult) (returned : s.connectTip w b = some (s', result)) :
    s.pprev b = s.tip ∧
      ((result = .error ∨ result = .invalid true) ∧ s' = s.tried ∨
        result = .invalid false ∧ w.invalidBlock b = true ∧ s.tip ≠ none ∧
          s' = (s.tried.setFailedValid b).eraseCandidate b ∨
        result = .done ∧ w.invalidBlock b = false ∧
          s' = (s.tried.connected w b).setTip (some b)) := by
  rw [connectTip] at returned
  dsimp only at returned
  split_ifs at returned with apart stuck corrupt bad
  · cases returned
    exact ⟨not_not.mp apart, .inl ⟨.inl rfl, rfl⟩⟩
  · cases returned
    exact ⟨not_not.mp apart, .inl ⟨.inr rfl, rfl⟩⟩
  · refine ⟨not_not.mp apart, .inr (.inl ?_)⟩
    unfold invalidBlockFound at returned
    split at returned
    · cases returned
    · next t top =>
        cases returned
        refine ⟨rfl, bad, ?_, rfl⟩
        intro empty
        change s.tip = some t at top
        rw [empty] at top
        cases top
  · cases returned
    exact ⟨not_not.mp apart, .inr (.inr ⟨rfl, by simpa using bad, rfl⟩)⟩

/-- What `ConnectBlock` notes in the entry. -/
theorem connected_calm (w : Surroundings) (s : ChainState) (b : Uint256) :
    Calm s (s.connected w b) := by
  rw [connected]
  split_ifs
  · exact ⟨keeps_refl s, rfl, rfl, rfl⟩
  · have raised : (BlockStatus.raiseValidity { s.nStatus b with haveUndo := true }
        blockValidScripts).failed = s.failed b := by
      rw [BlockStatus.raise_failed]
      rfl
    refine ⟨keeps_status s b (BlockStatus.raiseValidity { s.nStatus b with haveUndo := true }
      blockValidScripts) ?_ ?_ ?_, ?_, rfl, rfl⟩
    · rw [BlockStatus.raise_have_data]
      rfl
    · exact BlockStatus.raise_valid { s.nStatus b with haveUndo := true } blockValidScripts
    · rw [raised]
      exact id
    · funext x
      rw [failed, nStatus, modify_entry]
      split_ifs with here
      · rw [here]
        exact raised
      · rfl

theorem calm_trans (s₁ s₂ s₃ : ChainState) (first : Calm s₁ s₂) (second : Calm s₂ s₃) :
    Calm s₁ s₃ where
  keeps := keeps_trans s₁ s₂ s₃ first.keeps second.keeps
  failed := second.failed.trans first.failed
  candidates := second.candidates.trans first.candidates
  rejected := second.rejected.trans first.rejected

section Connect

variable (w : Surroundings) (s : ChainState) (m b : Uint256) (towards : s.Towards w m)
  (onPath : b ∈ s.branch m) (next : s.pprev b = s.tip)
include towards onPath next

/-- A block that connects on top of the tip connects with its whole branch. -/
theorem connect_sure (connects : w.invalidBlock b = false) : s.Sure w b := by
  have consistent := towards.sound.consistent
  have ready := ready_branch s [] consistent m towards.ready b onPath
  refine ⟨ready, ?_⟩
  intro x member
  rcases (mem_branch s.pprev s.nHeight _ consistent.rooted b x ready.1).mp member
    with rfl | ⟨a, link, below⟩
  · exact connects
  · rw [next] at link
    exact (towards.sound.ranked.sure a link).2 x below

theorem connect_done_towards (connects : w.invalidBlock b = false) :
    ((s.tried.connected w b).setTip (some b)).Towards w m := by
  have calm := calm_trans s _ _ (tried_calm s) (connected_calm w s.tried b)
  have sure := connect_sure w s m b towards onPath next connects
  apply calm_towards w s _ (set_tip_calm s _ (some b) calm) m _ _ towards
  · rw [tip_set_tip, setTip, same_tree_branch s _ calm.keeps.toSameTree]
  · rw [tip_set_tip]
    intro t same
    cases same
    exact sure

/-- The block is not active, and is not the tip when it is a candidate. -/
theorem connect_aside (grown : s.tip ≠ none) : b ∉ s.chainActive ∧ s.tip ≠ some m := by
  have consistent := towards.sound.consistent
  have known := branch_known s [] consistent m towards.ready.1 b onPath
  obtain ⟨t, top⟩ := Option.ne_none_iff_exists'.mp grown
  rw [top] at next
  have above := consistent.rooted.above b t known next
  have inside := consistent.rooted.closed b t known next
  have outside : b ∉ s.branch t := by
    intro member
    rcases height_branch s.pprev s.nHeight _ consistent.rooted t inside b member with rfl | lower
    · omega
    · omega
  rw [towards.sound.ranked.active, top]
  refine ⟨outside, ?_⟩
  intro same
  cases same
  exact outside onPath

/-- What connecting found invalid is flagged, and waits for the path above it to be marked. -/
theorem connect_invalid_awaiting (bad : w.invalidBlock b = true) (grown : s.tip ≠ none) :
    (((s.tried.setFailedValid b).eraseCandidate b).note b m).Awaiting w ∧
      (((s.tried.setFailedValid b).eraseCandidate b).note b m).tip ≠ some m := by
  have consistent := towards.sound.consistent
  have known := branch_known s [] consistent m towards.ready.1 b onPath
  have aside := connect_aside w s m b towards onPath next grown
  have flagged : Marks s (s.tried.setFailedValid b) [b] [] := by
    refine ⟨keeps_trans s _ _ (tried_calm s).keeps (keeps_failed_valid s.tried b), rfl, rfl, ?_, ?_⟩
    · intro x
      rw [List.mem_singleton]
      by_cases here : x = b
      · rw [here, failed_valid_self]
        simp
      · rw [failed_valid_other s.tried b x here]
        exact ⟨.inl, fun either => either.resolve_right here⟩
    · intro x
      exact ⟨fun among => ⟨among, List.not_mem_nil⟩, fun among => among.1⟩
  have marks := erase_marks s _ b [b] [] flagged
  have after : Keeps s (((s.tried.setFailedValid b).eraseCandidate b).note b m) :=
    keeps_trans s _ _ marks.keeps ⟨⟨rfl, rfl, rfl, rfl, rfl, rfl, fun _ bad => bad⟩, rfl, rfl,
      fun _ => le_rfl, rfl, fun _ member => member⟩
  have clean (x : Uint256) (other : x ≠ b) :
      (((s.tried.setFailedValid b).eraseCandidate b).note b m).failed x = s.failed x :=
    failed_valid_other s.tried b x other
  have fails : (((s.tried.setFailedValid b).eraseCandidate b).note b m).failed b = true :=
    failed_valid_self s.tried b
  have branches := same_tree_branch s _ after.toSameTree
  refine ⟨⟨keeps_consistent s _ after consistent, ?_, ?_⟩, aside.2⟩
  · apply same_tree_ranked w s _ after.toSameTree rfl
    · intro g sure
      apply same_tree_sure w s _ after.toSameTree g sure
      intro x member
      rw [clean x]
      · exact sure.1.2.2 x member
      · rintro rfl
        rw [sure.2 x member] at bad
        cases bad
    · intro a among ready
      refine (marks.left a).mpr ⟨among, ?_⟩
      rw [List.mem_singleton]
      rintro rfl
      have own := mem_branch_self s.pprev s.nHeight _ consistent.rooted a known
      rw [← branch, ← branches] at own
      rw [ready.2.2 a own] at fails
      cases fails
    · exact towards.sound.ranked
  · intro p q member
    rcases List.mem_cons.mp member with new | old
    · cases new
      by_cases whole : b = m
      · left
        rw [RecordedPair, branches, after.known, whole]
        refine ⟨towards.ready.1, mem_branch_self s.pprev s.nHeight _ consistent.rooted m
          towards.ready.1, ?_⟩
        intro x member between
        have same := branch_antisymm s.pprev s.nHeight _ consistent.rooted m x towards.ready.1
          member between
        rw [← same, ← whole]
        exact fails
      · right
        refine ⟨?_, ?_, aside.1, fails, ?_⟩
        · apply best_of_largest
          · exact (marks.left m).mpr ⟨best_mem w s m towards.best, by
              rw [List.mem_singleton]
              exact fun same => whole same.symm⟩
          · rw [same_tree_key w s _ after.toSameTree]
            intro g among
            exact best_largest w s m towards.best g (after.fewer among)
        · rw [branches]
          exact onPath
        · rw [branches]
          intro x member _ other
          have stored := linked_have_data s [] consistent m towards.ready.1 towards.ready.2.1 x
            member
          rw [usable, clean x other, towards.ready.2.2 x member, after.haveData, stored]
          rfl
    · exact .inl (same_tree_recorded_pair s _ after.toSameTree p q
        (towards.sound.recorded p q old))

end Connect

/-- Pruning keeps the best candidate, which does not sort before the tip. -/
theorem prune_towards (w : Surroundings) (s s' : ChainState) (m : Uint256)
    (towards : s.Towards w m) (returned : s.pruneBlockIndexCandidates w = some s') :
    s'.Towards w m ∧ s'.branch = s.branch := by
  rw [pruneBlockIndexCandidates] at returned
  cases top : s.tip with
  | none =>
      rw [top] at returned
      cases returned
  | some t =>
      rw [top] at returned
      dsimp only at returned
      split_ifs at returned
      cases returned
      have ranked := towards.sound.ranked
      have reached := ranked_reached w s ranked t top
      have kept : ∀ g ∈ s.setBlockIndexCandidates, sortKey w s t ≤ sortKey w s g →
          g ∈ s.setBlockIndexCandidates.filter fun p => !workComparator w s p t := by
        intro g among above
        rw [List.mem_filter, Bool.not_eq_true', ← Bool.not_eq_true, workComparator_iff]
        exact ⟨among, not_lt.mpr above⟩
      have keeps : Keeps s { s with setBlockIndexCandidates :=
          s.setBlockIndexCandidates.filter fun p => !workComparator w s p t } :=
        ⟨⟨rfl, rfl, rfl, rfl, rfl, rfl, fun _ bad => bad⟩, rfl, rfl, fun _ => le_rfl, rfl,
          List.filter_subset_self _⟩
      have largest := best_largest w s m towards.best
      have bounded := covered_bound _ _ _ _ ranked.covered _ largest t (ranked.sure t top).1
      refine ⟨⟨⟨keeps_consistent s _ keeps towards.sound.consistent, ⟨ranked.active, ranked.sure,
        ?_⟩, towards.sound.recorded⟩, towards.ready, ?_⟩, rfl⟩
      · exact covered_prune _ _ _ _ _ ranked.covered t reached kept
      · apply best_of_largest
        · exact kept m (best_mem w s m towards.best) bounded
        · intro g among
          exact largest g (keeps.fewer among)

/-! ## The loops of `ActivateBestChainStep` -/

/-- Still on the way, or a block on the way was found invalid. -/
theorem connect_batch_outcome (w : Surroundings) (m : Uint256) (old : Option Uint256)
    (batch : List Uint256) (s s' : ChainState) (result : Batch) (towards : s.Towards w m)
    (onPath : ∀ b ∈ batch, b ∈ s.branch m)
    (returned : s.connectBatch w m old batch = some (s', result)) :
    s'.Towards w m ∨ result = .stop ∧ s'.Awaiting w ∧ s'.tip ≠ some m := by
  induction batch generalizing s with
  | nil =>
      cases returned
      exact .inl towards
  | cons b batch ih =>
      have first := onPath b List.mem_cons_self
      rw [connectBatch] at returned
      cases step : s.connectTip w b with
      | none =>
          rw [step] at returned
          cases returned
      | some value =>
          obtain ⟨s₁, outcome⟩ := value
          rw [step] at returned
          obtain ⟨next, cases⟩ := connect_tip_cases w s s₁ b outcome step
          rcases cases with ⟨rfl | rfl, rfl⟩ | ⟨rfl, bad, grown, rfl⟩ | ⟨rfl, connects, rfl⟩
          · cases returned
            exact .inl (tried_towards w s m towards)
          · cases returned
            exact .inl (tried_towards w s m towards)
          · have awaiting := connect_invalid_awaiting w s m b towards first next bad grown
            cases returned
            exact .inr ⟨rfl, awaiting⟩
          · have moved := connect_done_towards w s m b towards first next connects
            have calm := calm_trans s _ _ (tried_calm s) (connected_calm w s.tried b)
            have moves := set_tip_calm s _ (some b) calm
            dsimp only at returned
            cases pruned : ((s.tried.connected w b).setTip (some b)).pruneBlockIndexCandidates w with
            | none =>
                rw [pruned] at returned
                cases returned
            | some s₂ =>
                have after := prune_towards w _ s₂ m moved pruned
                rw [pruned] at returned
                dsimp only at returned
                split_ifs at returned
                · cases returned
                  exact .inl after.1
                · apply ih s₂ after.1 _ returned
                  rw [after.2, same_tree_branch s _ moves.keeps.toSameTree]
                  intro x member
                  exact onPath x (List.mem_cons_of_mem _ member)

/-- The entries to connect lie on the path. -/
theorem to_connect_path (s : ChainState) (m : Uint256) (nHeight nTargetHeight : Int) :
    ∀ b ∈ s.toConnect m nHeight nTargetHeight, b ∈ s.branch m := by
  intro b member
  rw [toConnect, List.mem_reverse] at member
  exact (List.dropWhile_sublist _).subset ((List.takeWhile_sublist _).subset member)

theorem connect_batches_outcome (w : Surroundings) (m : Uint256) (old : Option Uint256)
    (fuel : Nat) (nHeight : Int) (s s' : ChainState) (result : Bool) (towards : s.Towards w m)
    (returned : s.connectBatches w m old fuel nHeight = some (s', result)) :
    s'.Towards w m ∨ result = true ∧ s'.Awaiting w ∧ s'.tip ≠ some m := by
  induction fuel generalizing s nHeight with
  | zero => cases returned
  | succ fuel ih =>
      rw [connectBatches] at returned
      split_ifs at returned
      · cases returned
        exact .inl towards
      · dsimp only at returned
        have onPath := to_connect_path s m nHeight (min (nHeight + 32) (s.nHeight m))
        cases step : s.connectBatch w m old
            (s.toConnect m nHeight (min (nHeight + 32) (s.nHeight m))) with
        | none =>
            rw [step] at returned
            cases returned
        | some value =>
            obtain ⟨s₁, outcome⟩ := value
            have next := connect_batch_outcome w m old _ s s₁ outcome towards onPath step
            rw [step] at returned
            cases outcome with
            | error =>
                cases returned
                rcases next with still | ⟨stop, _⟩
                · exact .inl still
                · cases stop
            | stop =>
                cases returned
                rcases next with still | ⟨_, awaiting⟩
                · exact .inl still
                · exact .inr ⟨rfl, awaiting⟩
            | more =>
                rcases next with still | ⟨stop, _⟩
                · exact ih _ s₁ still returned
                · cases stop

theorem activate_step_outcome (w : Surroundings) (s s' : ChainState) (m : Uint256)
    (result : Bool) (towards : s.Towards w m)
    (returned : s.activateBestChainStep w m = some (s', result)) :
    s'.Towards w m ∨ result = true ∧ s'.Awaiting w ∧ s'.tip ≠ some m := by
  rw [activateBestChainStep] at returned
  cases fall : s.disconnectTo w (s.findFork m) (s.chainActive.length + 1) with
  | none =>
      rw [fall] at returned
      cases returned
  | some value =>
      obtain ⟨below, outcome⟩ := value
      have next := disconnect_to_towards w _ _ s below m outcome towards fall
      rw [fall] at returned
      cases outcome with
      | done => exact connect_batches_outcome w m _ _ _ below s' result next returned
      | invalid corruptionPossible =>
          cases returned
          exact .inl next
      | error =>
          cases returned
          exact .inl next

/-! ## `ActivateBestChain` -/

/-- No entry that could be the tip sorts after the tip. -/
def Best (w : Surroundings) (s : ChainState) : Prop :=
  ∀ p, s.Ready p → ∃ t, s.tip = some t ∧ workComparator w s t p = false

theorem best_candidate_best (w : Surroundings) (s : ChainState) (ranked : s.Ranked w)
    (m : Uint256) (best : s.bestCandidate w = some m) (top : s.tip = some m) : s.Best w := by
  intro p ready
  refine ⟨m, top, ?_⟩
  have largest := best_largest w s m best
  have bounded := covered_bound _ _ _ _ ranked.covered _ largest p ready
  rw [← Bool.not_eq_true, workComparator_iff]
  exact not_lt.mpr bounded

/-- Without candidates there is nothing to choose from. -/
theorem no_candidate_best (w : Surroundings) (s : ChainState) (ranked : s.Ranked w)
    (none : s.bestCandidate w = none) : s.Best w := by
  intro p ready
  have empty := best_none w s none
  have missing : p ∉ s.setBlockIndexCandidates := by
    rw [empty]
    exact List.not_mem_nil
  obtain ⟨g, among, _⟩ := ranked.covered p ready missing
  rw [empty] at among
  cases among

theorem activate_best_chain_sound (w : Surroundings) (fuel : Nat) (s s' : ChainState)
    (result : Bool) (awaiting : s.Awaiting w)
    (returned : s.activateBestChain w fuel = some (s', result)) :
    s'.Sound w [] ∧ (result = true → s'.Best w) := by
  induction fuel generalizing s with
  | zero => cases returned
  | succ fuel ih =>
      rw [activateBestChain] at returned
      cases find : s.findMostWorkChain w with
      | none =>
          rw [find] at returned
          cases returned
      | some value =>
          obtain ⟨s₁, candidate⟩ := value
          obtain ⟨sound, best, ready⟩ := find_most_work_loop_sound w _ s s₁ candidate awaiting find
          rw [find] at returned
          cases candidate with
          | none =>
              cases returned
              exact ⟨sound, fun _ => no_candidate_best w _ sound.ranked best.symm⟩
          | some m =>
              have towards : s₁.Towards w m := ⟨sound, ready m rfl, best.symm⟩
              dsimp only at returned
              split_ifs at returned with there
              · cases returned
                exact ⟨sound, fun _ => best_candidate_best w _ sound.ranked m best.symm there⟩
              · cases step : s₁.activateBestChainStep w m with
                | none =>
                    rw [step] at returned
                    cases returned
                | some value =>
                    obtain ⟨s₂, outcome⟩ := value
                    have next := activate_step_outcome w s₁ s₂ m outcome towards step
                    rw [step] at returned
                    cases outcome with
                    | false =>
                        cases returned
                        rcases next with still | ⟨stop, _⟩
                        · exact ⟨still.sound, fun impossible => by cases impossible⟩
                        · cases stop
                    | true =>
                        dsimp only at returned
                        split_ifs at returned with arrived
                        · rcases next with still | ⟨_, _, elsewhere⟩
                          · have written := tried_towards w s₂ m still
                            cases returned
                            refine ⟨written.sound, fun _ => ?_⟩
                            exact best_candidate_best w _ written.sound.ranked m written.best arrived
                          · exact absurd arrived elsewhere
                        · apply ih s₂ _ returned
                          rcases next with still | ⟨_, waits, _⟩
                          · exact sound_awaiting w s₂ still.sound
                          · exact waits

/-! ## Every run -/

/-- What headers, blocks and attempts to activate the best chain lead to, in any order. -/
inductive Reachable (w : Surroundings) : ChainState → Prop where
  | start : Reachable w .start
  | header (s : ChainState) (block : OfferedBlock) :
      Reachable w s → Reachable w (s.acceptBlockHeader w block).1
  | block (s : ChainState) (block : OfferedBlock) :
      Reachable w s → Reachable w (s.acceptBlock w block).1
  | activate (s s' : ChainState) (fuel : Nat) (result : Bool) :
      Reachable w s → s.activateBestChain w fuel = some (s', result) → Reachable w s'

theorem reachable_sound (w : Surroundings) (s : ChainState) (reachable : Reachable w s) :
    s.Sound w [] := by
  induction reachable with
  | start => exact start_sound w
  | header s block _ ih => exact accept_header_sound w s block ih
  | block s block _ ih => exact accept_block_sound w s block ih
  | activate s s' fuel result _ returned ih =>
      exact (activate_best_chain_sound w fuel s s' result (sound_awaiting w s ih) returned).1

/-- Data for an entry and its ancestors is enough for it to be linked. -/
theorem stored_ready (s : ChainState) (consistent : s.Consistent []) (p : Uint256)
    (known : p ∈ s.known)
    (stored : ∀ x ∈ s.branch p, s.haveData x = true ∧ s.failed x = false) : s.Ready p := by
  have linked : s.nChainTx p ≠ 0 := by
    revert stored known p
    apply rooted_induction s.pprev s.nHeight _ consistent.rooted
    intro p known ih stored apart
    have own := stored p (mem_branch_self s.pprev s.nHeight _ consistent.rooted p known)
    have data := (consistent.data p known).mp own.1
    rcases consistent.waiting p known data apart with none | ⟨a, link, held⟩
    · cases none
    · have inside := consistent.rooted.closed p a known link
      have lower : ∀ x ∈ s.branch a, s.haveData x = true ∧ s.failed x = false := by
        intro x below
        exact stored x ((mem_branch s.pprev s.nHeight _ consistent.rooted p x known).mpr
          (.inr ⟨a, link, below⟩))
      rcases held with waits | bad
      · exact ih a link inside lower (consistent.unlinked a p waits).2.2
      · rw [(lower a (mem_branch_self s.pprev s.nHeight _ consistent.rooted a inside)).2] at bad
        cases bad
  exact ⟨known, linked, fun x member => (stored x member).2⟩

def sampleSurroundings : Surroundings where
  hashGenesisBlock := 1
  address := BitVec.toNat
  distinct := fun _ _ same => BitVec.eq_of_toNat_eq same
  invalidBlock := fun pindex => pindex == 4
  trouble := fun _ => none

def sampleBlock (hash hashPrevBlock : Uint256) : OfferedBlock :=
  ⟨hash, hashPrevBlock, 0x207fffff, 1, true, true, .valid, true, true, 0⟩

def sampleBlocks : List OfferedBlock :=
  [sampleBlock 1 0, sampleBlock 2 1, sampleBlock 3 2, sampleBlock 4 1, sampleBlock 5 4,
    sampleBlock 6 5]

def acceptBlocks (w : Surroundings) (s : ChainState) (blocks : List OfferedBlock) : ChainState :=
  blocks.foldl (fun s block => (s.acceptBlock w block).1) s

theorem reachable_blocks (w : Surroundings) (s : ChainState) (blocks : List OfferedBlock)
    (reachable : Reachable w s) : Reachable w (s.acceptBlocks w blocks) := by
  induction blocks generalizing s with
  | nil => exact reachable
  | cons block blocks ih => exact ih _ (.block s block reachable)

end ChainState

end RoiCoin
