import RoiCoin.Validation.AcceptBlock
import RoiCoin.Lib.Candidates

/-! What holds of the block tree after every header and block.

The consistency of the entries with `mapBlocksUnlinked`, and the ranking: every entry that could be
the tip is a candidate, or sorts before a candidate that connects. -/

namespace RoiCoin

open Branches Candidates

namespace BlockStatus

theorem raise_failed (nStatus : BlockStatus) (nUpTo : Nat) :
    (nStatus.raiseValidity nUpTo).failed = nStatus.failed := by
  unfold raiseValidity
  split_ifs <;> rfl

theorem raise_have_data (nStatus : BlockStatus) (nUpTo : Nat) :
    (nStatus.raiseValidity nUpTo).haveData = nStatus.haveData := by
  unfold raiseValidity
  split_ifs <;> rfl

theorem raise_valid (nStatus : BlockStatus) (nUpTo : Nat) :
    nStatus.valid ≤ (nStatus.raiseValidity nUpTo).valid := by
  unfold raiseValidity
  split_ifs with bad low
  · exact le_rfl
  · exact low.le
  · exact le_rfl

end BlockStatus

namespace ChainState

/-- The entries, `mapBlocksUnlinked` and the candidates agree; the blocks of `queue` are about to be
linked. -/
structure Consistent (s : ChainState) (queue : List Uint256) : Prop where
  rooted : Rooted s.pprev s.nHeight fun p => p ∈ s.known
  valid : ∀ p ∈ s.known, blockValidTree ≤ (s.nStatus p).valid
  data : ∀ p ∈ s.known, s.haveData p = true ↔ s.nTx p ≠ 0
  linked : ∀ p ∈ s.known, s.nChainTx p ≠ 0 →
    s.nTx p ≠ 0 ∧ ∀ a, s.pprev p = some a → s.nChainTx a ≠ 0
  unlinked : ∀ a b, (a, b) ∈ s.mapBlocksUnlinked →
    b ∈ s.known ∧ s.pprev b = some a ∧ s.nChainTx a = 0
  queued : ∀ p ∈ queue, p ∈ s.known ∧ ∀ a, s.pprev p = some a → s.nChainTx a ≠ 0
  fresh : ∀ p ∈ queue ++ s.mapBlocksUnlinked.map Prod.snd, s.nTx p ≠ 0 ∧ s.nChainTx p = 0
  once : (queue ++ s.mapBlocksUnlinked.map Prod.snd).Nodup
  waiting : ∀ p ∈ s.known, s.nTx p ≠ 0 → s.nChainTx p = 0 → p ∈ queue ∨
    ∃ a, s.pprev p = some a ∧ ((a, p) ∈ s.mapBlocksUnlinked ∨ s.failed a = true)
  candidates : ∀ p ∈ s.setBlockIndexCandidates, p ∈ s.known ∧ s.nChainTx p ≠ 0

/-- Linked to the first block, without a failed entry on the branch. -/
def Ready (s : ChainState) (p : Uint256) : Prop :=
  p ∈ s.known ∧ s.nChainTx p ≠ 0 ∧ ∀ x ∈ s.branch p, s.failed x = false

/-- A branch that also connects. -/
def Sure (w : Surroundings) (s : ChainState) (p : Uint256) : Prop :=
  s.Ready p ∧ ∀ x ∈ s.branch p, w.invalidBlock x = false

structure Ranked (w : Surroundings) (s : ChainState) : Prop where
  active : s.chainActive = s.tip.elim [] s.branch
  sure : ∀ t, s.tip = some t → s.Sure w t
  covered : Covered (sortKey w s) s.Ready (s.Sure w) s.setBlockIndexCandidates

/-- A candidate that connects reaches the tip. -/
theorem ranked_reached (w : Surroundings) (s : ChainState) (ranked : s.Ranked w) (t : Uint256)
    (top : s.tip = some t) : Reached (sortKey w s) (s.Sure w) s.setBlockIndexCandidates t :=
  reached_good _ _ _ _ ranked.covered t (ranked.sure t top).1 (ranked.sure t top)

/-- A block that was found invalid has failed, with everything above it on the path that was
tried. -/
def RecordedPair (s : ChainState) (b m : Uint256) : Prop :=
  m ∈ s.known ∧ b ∈ s.branch m ∧ ∀ x ∈ s.branch m, b ∈ s.branch x → s.failed x = true

def Recorded (s : ChainState) : Prop := ∀ b m, (b, m) ∈ s.rejected → s.RecordedPair b m

structure Sound (w : Surroundings) (s : ChainState) (queue : List Uint256) : Prop where
  consistent : s.Consistent queue
  ranked : s.Ranked w
  recorded : s.Recorded

/-! ## Frames -/

/-- The entries keep their places and their order; flags may be added. -/
structure SameTree (s s' : ChainState) : Prop where
  known : s'.known = s.known
  pprev : s'.pprev = s.pprev
  nHeight : s'.nHeight = s.nHeight
  nChainWork : s'.nChainWork = s.nChainWork
  nSequenceId : s'.nSequenceId = s.nSequenceId
  nChainTx : s'.nChainTx = s.nChainTx
  failed : ∀ p, s.failed p = true → s'.failed p = true

/-- In addition no data comes or goes, and no candidate comes. -/
structure Keeps (s s' : ChainState) : Prop extends SameTree s s' where
  nTx : s'.nTx = s.nTx
  haveData : s'.haveData = s.haveData
  valid : ∀ p, (s.nStatus p).valid ≤ (s'.nStatus p).valid
  unlinked : s'.mapBlocksUnlinked = s.mapBlocksUnlinked
  fewer : s'.setBlockIndexCandidates ⊆ s.setBlockIndexCandidates

section Frames

variable (w : Surroundings) (s s' : ChainState)

theorem same_tree_branch (same : SameTree s s') : s'.branch = s.branch := by
  funext p
  rw [branch, branch, same.pprev, same.nHeight]

theorem same_tree_key (same : SameTree s s') : sortKey w s' = sortKey w s := by
  funext p
  rw [sortKey, sortKey, same.nChainWork, same.nSequenceId]

theorem same_tree_ready (same : SameTree s s') (p : Uint256) (ready : s'.Ready p) : s.Ready p := by
  obtain ⟨known, linked, clean⟩ := ready
  rw [same.known] at known
  rw [same.nChainTx] at linked
  rw [same_tree_branch s s' same] at clean
  refine ⟨known, linked, ?_⟩
  intro x above
  have after := clean x above
  by_contra bad
  have flagged := same.failed x (by simpa using bad)
  rw [flagged] at after
  cases after

/-- An entry without a flag on its branch stays as it was. -/
theorem same_tree_sure (same : SameTree s s') (p : Uint256) (sure : s.Sure w p)
    (clean : ∀ x ∈ s.branch p, s'.failed x = false) : s'.Sure w p := by
  obtain ⟨⟨known, linked, _⟩, connects⟩ := sure
  rw [Sure, Ready, same.known, same.nChainTx, same_tree_branch s s' same]
  exact ⟨⟨known, linked, clean⟩, connects⟩

theorem same_tree_recorded_pair (same : SameTree s s') (b m : Uint256)
    (recorded : s.RecordedPair b m) : s'.RecordedPair b m := by
  rw [RecordedPair, same.known, same_tree_branch s s' same]
  obtain ⟨known, below, flagged⟩ := recorded
  refine ⟨known, below, ?_⟩
  intro x above between
  exact same.failed x (flagged x above between)

theorem same_tree_recorded (same : SameTree s s') (noted : s'.rejected = s.rejected)
    (recorded : s.Recorded) : s'.Recorded := by
  intro b m member
  rw [noted] at member
  exact same_tree_recorded_pair s s' same b m (recorded b m member)

/-- Flags and lost candidates keep the ranking where they meet nothing that connects. -/
theorem same_tree_ranked (same : SameTree s s') (active : s'.chainActive = s.chainActive)
    (kept : ∀ g, s.Sure w g → s'.Sure w g)
    (dropped : ∀ a ∈ s.setBlockIndexCandidates, s'.Ready a → a ∈ s'.setBlockIndexCandidates)
    (ranked : s.Ranked w) : s'.Ranked w := by
  have tips : s'.tip = s.tip := by rw [tip, tip, active]
  have stays : ∀ g ∈ s.setBlockIndexCandidates, s.Sure w g →
      g ∈ s'.setBlockIndexCandidates ∧ s'.Sure w g := by
    intro g among sure
    exact ⟨dropped g among (kept g sure).1, kept g sure⟩
  refine ⟨?_, ?_, ?_⟩
  · rw [active, tips, same_tree_branch s s' same, ranked.active]
  · intro t top
    rw [tips] at top
    exact kept t (ranked.sure t top)
  · rw [same_tree_key w s s' same]
    exact covered_drop _ _ _ _ _ _ _ ranked.covered (same_tree_ready s s' same) dropped stays

theorem keeps_consistent (keeps : Keeps s s') (consistent : s.Consistent []) :
    s'.Consistent [] := by
  constructor
  case rooted =>
    rw [keeps.pprev, keeps.nHeight, keeps.known]
    exact consistent.rooted
  case valid =>
    rw [keeps.known]
    intro p known
    exact (consistent.valid p known).trans (keeps.valid p)
  case data =>
    rw [keeps.known, keeps.haveData, keeps.nTx]
    exact consistent.data
  case linked =>
    rw [keeps.known, keeps.nChainTx, keeps.nTx, keeps.pprev]
    exact consistent.linked
  case unlinked =>
    rw [keeps.known, keeps.nChainTx, keeps.unlinked, keeps.pprev]
    exact consistent.unlinked
  case queued =>
    intro p none
    cases none
  case fresh =>
    rw [keeps.unlinked, keeps.nTx, keeps.nChainTx]
    exact consistent.fresh
  case once =>
    rw [keeps.unlinked]
    exact consistent.once
  case waiting =>
    rw [keeps.known, keeps.nChainTx, keeps.nTx, keeps.pprev, keeps.unlinked]
    intro p known stored apart
    rcases consistent.waiting p known stored apart with none | ⟨a, link, here | bad⟩
    · cases none
    · exact .inr ⟨a, link, .inl here⟩
    · exact .inr ⟨a, link, .inr (keeps.failed a bad)⟩
  case candidates =>
    rw [keeps.known, keeps.nChainTx]
    intro p among
    exact consistent.candidates p (keeps.fewer among)

end Frames

theorem keeps_refl (s : ChainState) : Keeps s s :=
  ⟨⟨rfl, rfl, rfl, rfl, rfl, rfl, fun _ bad => bad⟩, rfl, rfl, fun _ => le_rfl, rfl,
    fun _ member => member⟩

theorem keeps_trans (s₁ s₂ s₃ : ChainState) (first : Keeps s₁ s₂) (second : Keeps s₂ s₃) :
    Keeps s₁ s₃ where
  known := second.known.trans first.known
  pprev := second.pprev.trans first.pprev
  nHeight := second.nHeight.trans first.nHeight
  nChainWork := second.nChainWork.trans first.nChainWork
  nSequenceId := second.nSequenceId.trans first.nSequenceId
  nChainTx := second.nChainTx.trans first.nChainTx
  failed := fun p bad => second.failed p (first.failed p bad)
  nTx := second.nTx.trans first.nTx
  haveData := second.haveData.trans first.haveData
  valid := fun p => (first.valid p).trans (second.valid p)
  unlinked := second.unlinked.trans first.unlinked
  fewer := fun _ member => first.fewer (second.fewer member)

/-- Changing a status keeps the tree, when it adds flags only. -/
theorem keeps_status (s : ChainState) (p : Uint256) (nStatus : BlockStatus)
    (data : nStatus.haveData = s.haveData p) (valid : (s.nStatus p).valid ≤ nStatus.valid)
    (failed : s.failed p = true → nStatus.failed = true) :
    Keeps s (s.modify p fun entry => { entry with nStatus }) := by
  have same (T : Type) (field : BlockEntry → T)
      (kept : ∀ entry : BlockEntry, field { entry with nStatus } = field entry) :
      (fun q => field ((s.modify p fun entry => { entry with nStatus }).entry q)) =
        fun q => field (s.entry q) := by
    funext q
    rw [modify_entry]
    split_ifs with here
    · rw [kept, here]
    · rfl
  have status (q : Uint256) : (s.modify p fun entry => { entry with nStatus }).nStatus q =
      if q = p then nStatus else s.nStatus q := by
    rw [ChainState.nStatus, modify_entry]
    split_ifs <;> rfl
  refine ⟨⟨rfl, same _ _ fun _ => rfl, same _ _ fun _ => rfl, same _ _ fun _ => rfl,
    same _ _ fun _ => rfl, same _ _ fun _ => rfl, ?_⟩, same _ _ fun _ => rfl, ?_, ?_, rfl,
    fun _ member => member⟩
  · intro q bad
    rw [ChainState.failed, status]
    split_ifs with here
    · rw [here] at bad
      exact failed bad
    · exact bad
  · funext q
    rw [haveData, status]
    split_ifs with here
    · rw [here, data]
    · rfl
  · intro q
    rw [status]
    split_ifs with here
    · rw [here]
      exact valid
    · exact le_rfl

/-! ## Branches of linked entries -/

section Linked

variable (s : ChainState) (queue : List Uint256) (consistent : s.Consistent queue)
include consistent

theorem branch_known (p : Uint256) (known : p ∈ s.known) : ∀ x ∈ s.branch p, x ∈ s.known :=
  mem_branch_node s.pprev s.nHeight _ consistent.rooted p known

/-- Everything below a linked entry is linked. -/
theorem linked_branch (p : Uint256) (known : p ∈ s.known) (linked : s.nChainTx p ≠ 0) :
    ∀ x ∈ s.branch p, s.nChainTx x ≠ 0 := by
  revert linked known p
  apply rooted_induction s.pprev s.nHeight _ consistent.rooted
  intro p known ih linked x member
  rcases (mem_branch s.pprev s.nHeight _ consistent.rooted p x known).mp member
    with rfl | ⟨a, link, below⟩
  · exact linked
  · have inside := consistent.rooted.closed p a known link
    exact ih a link inside ((consistent.linked p known linked).2 a link) x below

theorem linked_have_data (p : Uint256) (known : p ∈ s.known) (linked : s.nChainTx p ≠ 0) :
    ∀ x ∈ s.branch p, s.haveData x = true := by
  intro x member
  have inside := branch_known s queue consistent p known x member
  have above := linked_branch s queue consistent p known linked x member
  exact (consistent.data x inside).mpr (consistent.linked x inside above).1

/-- What is below a ready entry is ready. -/
theorem ready_branch (p : Uint256) (ready : s.Ready p) : ∀ x ∈ s.branch p, s.Ready x := by
  obtain ⟨known, linked, clean⟩ := ready
  intro x member
  refine ⟨branch_known s queue consistent p known x member,
    linked_branch s queue consistent p known linked x member, ?_⟩
  intro y below
  exact clean y (mem_branch_trans s.pprev s.nHeight _ consistent.rooted p x y known member below)

theorem sure_branch (w : Surroundings) (p : Uint256) (sure : s.Sure w p) :
    ∀ x ∈ s.branch p, s.Sure w x := by
  obtain ⟨ready, connects⟩ := sure
  intro x member
  refine ⟨ready_branch s queue consistent p ready x member, ?_⟩
  intro y below
  exact connects y
    (mem_branch_trans s.pprev s.nHeight _ consistent.rooted p x y ready.1 member below)

end Linked

/-- `pindex->nStatus |= BLOCK_FAILED_VALID` keeps the tree. -/
theorem keeps_failed_valid (s : ChainState) (p : Uint256) : Keeps s (s.setFailedValid p) := by
  refine keeps_status s p { s.nStatus p with failedValid := true } rfl le_rfl ?_
  intro _
  rfl

theorem failed_valid_other (s : ChainState) (p x : Uint256) (other : x ≠ p) :
    (s.setFailedValid p).failed x = s.failed x := by
  rw [failed, failed, nStatus, nStatus, setFailedValid, modify_entry, if_neg other]

theorem failed_valid_self (s : ChainState) (p : Uint256) :
    (s.setFailedValid p).failed p = true := by
  rw [failed, nStatus, setFailedValid, modify_entry, if_pos rfl]
  rfl

end ChainState

end RoiCoin
