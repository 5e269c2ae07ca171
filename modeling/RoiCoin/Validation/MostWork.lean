import RoiCoin.Validation.ActivateBestChain
import RoiCoin.Validation.AcceptInvariant
import Mathlib.Data.List.TakeWhile

/-! What `FindMostWorkChain` returns.

Every turn that does not return flags and removes entries that could not have been the tip; what it
returns is the candidate with the largest key, and no entry of its branch has failed. -/

namespace RoiCoin

open Branches Candidates

namespace ChainState

/-! ## The best candidate -/

theorem best_none (w : Surroundings) (s : ChainState) (none : s.bestCandidate w = none) :
    s.setBlockIndexCandidates = [] :=
  List.argmax_eq_none.mp none

theorem best_mem (w : Surroundings) (s : ChainState) (m : Uint256)
    (best : s.bestCandidate w = some m) : m ∈ s.setBlockIndexCandidates :=
  List.argmax_mem best

theorem best_largest (w : Surroundings) (s : ChainState) (m : Uint256)
    (best : s.bestCandidate w = some m) :
    ∀ g ∈ s.setBlockIndexCandidates, sortKey w s g ≤ sortKey w s m := by
  intro g among
  exact List.le_of_mem_argmax among best

/-- The largest candidate is the only one with its key. -/
theorem best_of_largest (w : Surroundings) (s : ChainState) (m : Uint256)
    (among : m ∈ s.setBlockIndexCandidates)
    (largest : ∀ g ∈ s.setBlockIndexCandidates, sortKey w s g ≤ sortKey w s m) :
    s.bestCandidate w = some m := by
  cases found : s.bestCandidate w with
  | none =>
      rw [best_none w s found] at among
      cases among
  | some g =>
      have below := largest g (best_mem w s g found)
      have above := best_largest w s g found m among
      rw [sortKey_injective w s g m (le_antisymm below above)]

/-! ## A block that was just found invalid -/

/-- The path of the best candidate `m` leads through the failed block `b`, and nothing is marked
above it yet. -/
structure Pending (w : Surroundings) (s : ChainState) (b m : Uint256) : Prop where
  best : s.bestCandidate w = some m
  below : b ∈ s.branch m
  aside : b ∉ s.chainActive
  failed : s.failed b = true
  above : ∀ x ∈ s.branch m, b ∈ s.branch x → x ≠ b → s.usable x = true

/-- Between two steps of `ActivateBestChain`. -/
structure Awaiting (w : Surroundings) (s : ChainState) : Prop where
  consistent : s.Consistent []
  ranked : s.Ranked w
  awaited : ∀ b m, (b, m) ∈ s.rejected → s.RecordedPair b m ∨ s.Pending w b m

theorem sound_awaiting (w : Surroundings) (s : ChainState) (sound : s.Sound w []) :
    s.Awaiting w :=
  ⟨sound.consistent, sound.ranked, fun b m member => .inl (sound.recorded b m member)⟩

/-! ## One turn of the inner loop -/

/-- What marking an entry and removing it from the candidates changes. -/
structure Marks (s s' : ChainState) (marked removed : List Uint256) : Prop where
  keeps : Keeps s s'
  active : s'.chainActive = s.chainActive
  rejected : s'.rejected = s.rejected
  failed : ∀ x, s'.failed x = true ↔ s.failed x = true ∨ x ∈ marked
  left : ∀ x, x ∈ s'.setBlockIndexCandidates ↔ x ∈ s.setBlockIndexCandidates ∧ x ∉ removed

theorem erase_marks (s s' : ChainState) (p : Uint256) (marked removed : List Uint256)
    (marks : Marks s s' marked removed) :
    Marks s (s'.eraseCandidate p) marked (p :: removed) := by
  have erased : Keeps s' (s'.eraseCandidate p) :=
    ⟨⟨rfl, rfl, rfl, rfl, rfl, rfl, fun _ bad => bad⟩, rfl, rfl, fun _ => le_rfl, rfl,
      List.filter_subset_self _⟩
  refine ⟨keeps_trans s s' _ marks.keeps erased, marks.active, marks.rejected, marks.failed, ?_⟩
  intro x
  change x ∈ s'.setBlockIndexCandidates.filter (· != p) ↔ _
  rw [List.mem_filter, marks.left, bne_iff_ne, List.mem_cons, not_or, and_assoc, and_comm (a := x ≠ p)]

theorem discard_one_marks (s s' : ChainState) (p : Uint256) (marked removed : List Uint256)
    (marks : Marks s s' marked removed) :
    Marks s (s'.discardOne true p) (p :: marked) (p :: removed) := by
  have flags := keeps_status s' p { s'.nStatus p with failedChild := true } rfl le_rfl
    (fun _ => by simp [BlockStatus.failed])
  have flagged : Marks s (s'.modify p fun entry =>
      { entry with nStatus := { entry.nStatus with failedChild := true } }) (p :: marked) removed := by
    refine ⟨keeps_trans s s' _ marks.keeps flags, marks.active, marks.rejected, ?_, marks.left⟩
    intro x
    rw [List.mem_cons, ← or_left_comm, ← marks.failed, ChainState.failed, ChainState.nStatus,
      modify_entry]
    split_ifs with here
    · simp [BlockStatus.failed, here]
    · simp only [here, false_or]
      rfl
  exact erase_marks s _ p (p :: marked) removed flagged

theorem discard_fold_marks (s s' : ChainState) (above marked removed : List Uint256)
    (marks : Marks s s' marked removed) :
    Marks s (above.foldl (discardOne true) s') (above.reverse ++ marked)
      (above.reverse ++ removed) := by
  induction above generalizing s' marked removed with
  | nil => exact marks
  | cons p above ih =>
      rw [List.foldl_cons, List.reverse_cons, List.append_assoc, List.append_assoc]
      exact ih _ _ _ (discard_one_marks s s' p marked removed marks)

/-- A failed entry marks what is above it. -/
theorem discard_marks (s : ChainState) (above : List Uint256) (b : Uint256)
    (bad : s.failed b = true) :
    Marks s (s.discard above b) above.reverse (b :: above.reverse) := by
  have nothing : Marks s s [] [] := by
    refine ⟨keeps_refl s, rfl, rfl, ?_, ?_⟩
    · intro x
      simp
    · intro x
      simp
  have folded := discard_fold_marks s s above [] [] nothing
  rw [List.append_nil] at folded
  rw [discard, bad]
  exact erase_marks s _ b above.reverse above.reverse folded

/-! ## The path of a candidate -/

section Path

variable (w : Surroundings) (s : ChainState) (m : Uint256)

theorem path_rest : (s.pathToActive m).drop ((s.pathToActive m).takeWhile s.usable).length =
    (s.pathToActive m).dropWhile s.usable := by
  have parts := List.takeWhile_append_dropWhile (p := s.usable) (l := s.pathToActive m)
  calc
    _ = ((s.pathToActive m).takeWhile s.usable ++ (s.pathToActive m).dropWhile s.usable).drop
        ((s.pathToActive m).takeWhile s.usable).length := congrArg (List.drop _) parts.symm
    _ = _ := List.drop_left

/-- The usable part of a path, with what follows it on the branch. -/
theorem path_stop (b : Uint256) (rest : List Uint256)
    (stop : (s.pathToActive m).dropWhile s.usable = b :: rest) :
    s.usable b = false ∧
      ∃ tail, s.branch m = (s.pathToActive m).takeWhile s.usable ++ b :: tail := by
  have first := List.head?_dropWhile_not s.usable (s.pathToActive m)
  rw [stop] at first
  have parts := List.takeWhile_append_dropWhile (p := s.usable) (l := s.pathToActive m)
  have active := List.takeWhile_append_dropWhile (p := fun p => !s.chainActive.contains p)
    (l := s.branch m)
  rw [stop] at parts
  change s.pathToActive m ++ _ = s.branch m at active
  refine ⟨first, rest ++ (s.branch m).dropWhile (fun p => !s.chainActive.contains p), ?_⟩
  calc
    s.branch m = ((s.pathToActive m).takeWhile s.usable ++ b :: rest) ++
        (s.branch m).dropWhile (fun p => !s.chainActive.contains p) := by rw [parts, active]
    _ = _ := by rw [List.append_assoc, List.cons_append]

/-- An entry is in the usable part of a path, unless one on the way down to it is active or not
usable. -/
theorem path_member (consistent : s.Consistent []) (known : m ∈ s.known) (x : Uint256)
    (member : x ∈ s.branch m) : x ∈ (s.pathToActive m).takeWhile s.usable ∨
      ∃ a ∈ s.branch m, (a ∈ s.chainActive ∨ s.usable a = false) ∧ x ∈ s.branch a := by
  rw [pathToActive, List.takeWhile_takeWhile]
  rcases mem_takeWhile_branch s.pprev s.nHeight _ consistent.rooted
      (fun a => decide (s.usable a = true ∧ (!s.chainActive.contains a) = true)) m x known member
    with first | ⟨a, above, ends, later⟩
  · exact .inl first
  · refine .inr ⟨a, above, ?_, later⟩
    rw [decide_eq_false_iff_not, not_and_or] at ends
    rcases ends with bad | active
    · exact .inr (by simpa using bad)
    · exact .inl (by simpa using active)

end Path

/-- What is below an active entry is active and connects. -/
theorem active_branch (w : Surroundings) (s : ChainState) (consistent : s.Consistent [])
    (ranked : s.Ranked w) (a : Uint256) (member : a ∈ s.chainActive) :
    s.Sure w a ∧ ∀ x ∈ s.branch a, x ∈ s.chainActive := by
  rw [ranked.active] at member ⊢
  cases top : s.tip with
  | none =>
      rw [top] at member
      cases member
  | some t =>
      rw [top, Option.elim_some] at member
      have sure := ranked.sure t top
      refine ⟨sure_branch s [] consistent w t sure a member, ?_⟩
      intro x below
      rw [Option.elim_some]
      exact mem_branch_trans s.pprev s.nHeight _ consistent.rooted t a x sure.1.1 member below

/-- When the whole path of a linked entry is usable, no entry of its branch has failed. -/
theorem path_ready (w : Surroundings) (s : ChainState) (consistent : s.Consistent [])
    (ranked : s.Ranked w) (m : Uint256) (known : m ∈ s.known) (linked : s.nChainTx m ≠ 0)
    (whole : (s.pathToActive m).dropWhile s.usable = []) : s.Ready m := by
  refine ⟨known, linked, ?_⟩
  intro x member
  have parts := List.takeWhile_append_dropWhile (p := fun p => !s.chainActive.contains p)
    (l := s.branch m)
  rw [← parts] at member
  rcases mem_takeWhile_branch s.pprev s.nHeight _ consistent.rooted
      (fun p => !s.chainActive.contains p) m x known (by rwa [parts] at member)
    with first | ⟨a, above, ends, below⟩
  · have fine := List.dropWhile_eq_nil_iff.mp whole x first
    rw [usable, Bool.and_eq_true, Bool.not_eq_true'] at fine
    exact fine.1
  · have active : a ∈ s.chainActive := by simpa using ends
    exact (active_branch w s consistent ranked a active).1.1.2.2 x below

/-- On the branch of a linked entry only a flag is in the way. -/
theorem unusable_failed (s : ChainState) (consistent : s.Consistent []) (m b : Uint256)
    (known : m ∈ s.known) (linked : s.nChainTx m ≠ 0) (member : b ∈ s.branch m)
    (stuck : s.usable b = false) : s.failed b = true := by
  have stored := linked_have_data s [] consistent m known linked b member
  rw [usable, stored, Bool.and_true, Bool.not_eq_false'] at stuck
  exact stuck

/-! ## One turn of `FindMostWorkChain` -/

section Turn

variable (w : Surroundings) (s : ChainState) (m b : Uint256) (rest : List Uint256)
  (consistent : s.Consistent []) (ranked : s.Ranked w) (best : s.bestCandidate w = some m)
  (stop : (s.pathToActive m).dropWhile s.usable = b :: rest)
include consistent best stop

theorem turn_marks : Marks s (s.discard ((s.pathToActive m).takeWhile s.usable) b)
    ((s.pathToActive m).takeWhile s.usable).reverse
    (b :: ((s.pathToActive m).takeWhile s.usable).reverse) := by
  have listed := consistent.candidates m (best_mem w s m best)
  obtain ⟨stuck, tail, split⟩ := path_stop s m b rest stop
  apply discard_marks
  apply unusable_failed s consistent m b listed.1 listed.2
  · rw [split]
    exact List.mem_append_right _ List.mem_cons_self
  · exact stuck

/-- Everything that is marked has the failed entry on its branch. -/
theorem turn_above (x : Uint256) (member : x ∈ (s.pathToActive m).takeWhile s.usable) :
    b ∈ s.branch x ∧ s.failed b = true := by
  have listed := consistent.candidates m (best_mem w s m best)
  obtain ⟨stuck, tail, split⟩ := path_stop s m b rest stop
  refine ⟨branch_split s.pprev s.nHeight _ consistent.rooted m b x listed.1 _ tail split member, ?_⟩
  apply unusable_failed s consistent m b listed.1 listed.2
  · rw [split]
    exact List.mem_append_right _ List.mem_cons_self
  · exact stuck

include ranked in
theorem turn_ranked :
    (s.discard ((s.pathToActive m).takeWhile s.usable) b).Ranked w := by
  have marks := turn_marks w s m b rest consistent best stop
  have above := turn_above w s m b rest consistent best stop
  have listed := consistent.candidates m (best_mem w s m best)
  obtain ⟨stuck, tail, split⟩ := path_stop s m b rest stop
  have onPath : b ∈ s.branch m := by
    rw [split]
    exact List.mem_append_right _ List.mem_cons_self
  have bad := unusable_failed s consistent m b listed.1 listed.2 onPath stuck
  have keeps := marks.keeps
  apply same_tree_ranked w s _ keeps.toSameTree marks.active
  · intro g sure
    apply same_tree_sure w s _ keeps.toSameTree g sure
    intro x member
    by_contra flag
    rcases (marks.failed x).mp (by simpa using flag) with before | marked
    · rw [sure.1.2.2 x member] at before
      cases before
    · have below := (above x (List.mem_reverse.mp marked)).1
      have through := mem_branch_trans s.pprev s.nHeight _ consistent.rooted g x b sure.1.1 member
        below
      rw [sure.1.2.2 b through] at bad
      cases bad
  · intro a among ready
    refine (marks.left a).mpr ⟨among, ?_⟩
    have own := mem_branch_self s.pprev s.nHeight _ consistent.rooted a
      (consistent.candidates a among).1
    rw [← branch, ← same_tree_branch s _ keeps.toSameTree] at own
    have clean := ready.2.2 a own
    intro removed
    have flagged := (marks.failed a).mpr
      ((List.mem_cons.mp removed).elim (fun same => .inl (same ▸ bad)) .inr)
    rw [clean] at flagged
    cases flagged
  · exact ranked

include ranked in
/-- What was waiting for this turn is marked by it. -/
theorem turn_recorded (awaited : ∀ p q, (p, q) ∈ s.rejected →
    s.RecordedPair p q ∨ s.Pending w p q) :
    (s.discard ((s.pathToActive m).takeWhile s.usable) b).Recorded := by
  have marks := turn_marks w s m b rest consistent best stop
  have listed := consistent.candidates m (best_mem w s m best)
  have keeps := marks.keeps.toSameTree
  intro p q member
  rw [marks.rejected] at member
  rcases awaited p q member with before | pending
  · exact same_tree_recorded_pair s _ keeps p q before
  · have same : q = m := by
      have first := pending.best
      rw [best] at first
      exact (Option.some.inj first).symm
    rw [same] at pending
    rw [same, RecordedPair, keeps.known, same_tree_branch s _ keeps]
    refine ⟨listed.1, pending.below, ?_⟩
    intro x member between
    rw [marks.failed, List.mem_reverse]
    by_cases own : x = p
    · rw [own]
      exact .inl pending.failed
    · -- Nothing between the candidate and `x` is active or unusable.
      right
      rcases path_member s m consistent listed.1 x member with first | ⟨a, above, ends, below⟩
      · exact first
      · have through := mem_branch_trans s.pprev s.nHeight _ consistent.rooted a x p
          (branch_known s [] consistent m listed.1 a above) below between
        rcases ends with active | stuck
        · exact absurd ((active_branch w s consistent ranked a active).2 p through) pending.aside
        · by_cases here : a = p
          · rw [here] at below
            have known := branch_known s [] consistent m listed.1 x member
            exact absurd (branch_antisymm s.pprev s.nHeight _ consistent.rooted x p known between
              below) own
          · rw [pending.above a above through here] at stuck
            cases stuck

end Turn

/-- A usable path leaves nothing to wait for. -/
theorem whole_recorded (w : Surroundings) (s : ChainState) (m : Uint256)
    (best : s.bestCandidate w = some m) (ready : s.Ready m)
    (awaited : ∀ p q, (p, q) ∈ s.rejected → s.RecordedPair p q ∨ s.Pending w p q) :
    s.Recorded := by
  intro p q member
  rcases awaited p q member with recorded | pending
  · exact recorded
  · have first := pending.best
    rw [best] at first
    cases first
    have clean := ready.2.2 p pending.below
    rw [pending.failed] at clean
    cases clean

/-- What `FindMostWorkChain` leaves and returns. -/
theorem find_most_work_loop_sound (w : Surroundings) (fuel : Nat) (s s' : ChainState)
    (result : Option Uint256) (awaiting : s.Awaiting w)
    (returned : s.findMostWorkLoop w fuel = some (s', result)) :
    s'.Sound w [] ∧ result = s'.bestCandidate w ∧ ∀ m, result = some m → s'.Ready m := by
  obtain ⟨consistent, ranked, awaited⟩ := awaiting
  induction fuel generalizing s with
  | zero => cases returned
  | succ fuel ih =>
      rw [findMostWorkLoop] at returned
      cases best : s.bestCandidate w with
      | none =>
          rw [best] at returned
          cases returned
          refine ⟨⟨consistent, ranked, ?_⟩, best.symm, ?_⟩
          · intro p q member
            rcases awaited p q member with recorded | pending
            · exact recorded
            · rw [pending.best] at best
              cases best
          · intro m some_m
            cases some_m
      | some m =>
          have listed := consistent.candidates m (best_mem w s m best)
          rw [best] at returned
          dsimp only at returned
          rw [path_rest] at returned
          split_ifs at returned with asserted
          cases stop : (s.pathToActive m).dropWhile s.usable with
          | nil =>
              have ready := path_ready w s consistent ranked m listed.1 listed.2 stop
              rw [stop] at returned
              cases returned
              refine ⟨⟨consistent, ranked, ?_⟩, best.symm, ?_⟩
              · exact whole_recorded w _ m best ready awaited
              · intro m' same
                cases same
                exact ready
          | cons b rest =>
              rw [stop] at returned
              dsimp only at returned
              split_ifs at returned
              have marks := turn_marks w s m b rest consistent best stop
              have recorded := turn_recorded w s m b rest consistent ranked best stop awaited
              exact ih _ returned (keeps_consistent s _ marks.keeps consistent)
                (turn_ranked w s m b rest consistent ranked best stop)
                (fun p q member => .inl (recorded p q member))

end ChainState

end RoiCoin
