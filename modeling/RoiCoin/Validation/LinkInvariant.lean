import RoiCoin.Validation.TreeInvariant

/-! Received transactions keep the block tree sound (`ReceivedBlockTransactions`). -/

namespace RoiCoin

open Branches Candidates

namespace ChainState

/-- What one turn of the loop does. -/
structure Links (w : Surroundings) (s : ChainState) (p : Uint256) (s' : ChainState)
    (range : List Uint256) : Prop where
  known : s'.known = s.known
  pprev : s'.pprev = s.pprev
  nHeight : s'.nHeight = s.nHeight
  nChainWork : s'.nChainWork = s.nChainWork
  nTx : s'.nTx = s.nTx
  nStatus : s'.nStatus = s.nStatus
  chainTx : ∀ q, s'.nChainTx q = if q = p then s.parentChainTx p + s.nTx p else s.nChainTx q
  sequence : ∀ q, q ≠ p → s'.nSequenceId q = s.nSequenceId q
  active : s'.chainActive = s.chainActive
  rejected : s'.rejected = s.rejected
  kept : s.setBlockIndexCandidates ⊆ s'.setBlockIndexCandidates
  fromBefore : ∀ q ∈ s'.setBlockIndexCandidates, q ∈ s.setBlockIndexCandidates ∨ q = p
  inserted : p ∈ s'.setBlockIndexCandidates ∨
    ∃ t, s.tip = some t ∧ workComparator w s' p t = true
  unlinked : s'.mapBlocksUnlinked = s.mapBlocksUnlinked.filter fun pair => pair.1 ≠ p
  children : range = (s.mapBlocksUnlinked.filter fun pair => pair.1 = p).map Prod.snd

theorem link_one_links (w : Surroundings) (s : ChainState) (p : Uint256) :
    Links w s p (s.linkOne w p).1 (s.linkOne w p).2 := by
  have entry (q : Uint256) : (s.linkOne w p).1.entry q =
      if q = p then { s.entry p with
        nChainTx := s.parentChainTx p + s.nTx p
        nSequenceId := s.nBlockSequenceId } else s.entry q := by
    have tree : (s.linkOne w p).1.entry = (s.modify p fun entry =>
        { entry with
          nChainTx := s.parentChainTx p + entry.nTx
          nSequenceId := s.nBlockSequenceId }).entry := by
      unfold linkOne
      dsimp only
      split_ifs <;> rfl
    rw [tree, modify_entry]
    rfl
  have field (T : Type) (value : BlockEntry → T) (same : ∀ entry : BlockEntry,
      ∀ nChainTx nSequenceId, value { entry with nChainTx, nSequenceId } = value entry) :
      (fun q => value ((s.linkOne w p).1.entry q)) = fun q => value (s.entry q) := by
    funext q
    rw [entry]
    split_ifs with here
    · rw [same, here]
    · rfl
  refine ⟨?_, field _ _ fun _ _ _ => rfl, field _ _ fun _ _ _ => rfl, field _ _ fun _ _ _ => rfl,
    field _ _ fun _ _ _ => rfl, field _ _ fun _ _ _ => rfl, ?_, ?_, ?_, ?_, ?_, ?_, ?_, ?_, ?_⟩
  · unfold linkOne
    dsimp only
    split_ifs <;> rfl
  · intro q
    rw [nChainTx, entry]
    split_ifs <;> rfl
  · intro q other
    rw [nSequenceId, entry, if_neg other]
    rfl
  · unfold linkOne
    dsimp only
    split_ifs <;> rfl
  · unfold linkOne
    dsimp only
    split_ifs <;> rfl
  · unfold linkOne
    dsimp only
    split_ifs
    · exact List.subset_insert _ _
    · exact List.Subset.refl _
  · intro q member
    unfold linkOne at member
    dsimp only at member
    split_ifs at member
    · rcases List.mem_insert_iff.mp member with here | before
      · exact .inr here
      · exact .inl before
    · exact .inl member
  · unfold linkOne
    dsimp only
    split_ifs with better
    · exact .inl List.mem_insert_self
    · right
      rw [notWorse] at better
      cases top : s.tip with
      | none =>
          change ¬ s.tip.elim true _ = true at better
          rw [top] at better
          exact absurd rfl better
      | some t =>
          change ¬ s.tip.elim true _ = true at better
          rw [top, Option.elim_some, Bool.not_eq_true', Bool.not_eq_false] at better
          exact ⟨t, rfl, better⟩
  · unfold linkOne
    dsimp only
    split_ifs <;> rfl
  · unfold linkOne
    dsimp only
    split_ifs <;> rfl

section OneTurn

variable (w : Surroundings) (s s' : ChainState) (p : Uint256) (queue range : List Uint256)
  (links : Links w s p s' range)
include links

theorem links_branch : s'.branch = s.branch := by
  funext q
  rw [branch, branch, links.pprev, links.nHeight]

theorem links_failed : s'.failed = s.failed := by
  funext q
  rw [failed, failed, links.nStatus]

/-- The waiting blocks are the same, but for the one that is linked. -/
theorem links_perm : ((queue ++ range) ++ s'.mapBlocksUnlinked.map Prod.snd).Perm
    (queue ++ s.mapBlocksUnlinked.map Prod.snd) := by
  have parts : ((s.mapBlocksUnlinked.filter fun pair => pair.1 = p) ++
      s.mapBlocksUnlinked.filter fun pair => pair.1 ≠ p).Perm s.mapBlocksUnlinked := by
    have split := List.filter_append_perm (fun pair => decide (pair.1 = p)) s.mapBlocksUnlinked
    simpa only [decide_not] using split
  rw [List.append_assoc, links.children, links.unlinked, ← List.map_append]
  exact (parts.map Prod.snd).append_left queue

theorem links_grown (stored : s.nTx p ≠ 0) (q : Uint256) (before : s.nChainTx q ≠ 0) :
    s'.nChainTx q ≠ 0 := by
  rw [links.chainTx]
  split_ifs
  · omega
  · exact before

theorem links_others (q : Uint256) (other : q ≠ p) : s'.nChainTx q = s.nChainTx q := by
  rw [links.chainTx, if_neg other]

theorem links_done (stored : s.nTx p ≠ 0) : s'.nChainTx p ≠ 0 := by
  rw [links.chainTx, if_pos rfl]
  omega

theorem links_pairs (a b : Uint256) : (a, b) ∈ s'.mapBlocksUnlinked ↔
    (a, b) ∈ s.mapBlocksUnlinked ∧ a ≠ p := by
  rw [links.unlinked, List.mem_filter, decide_eq_true_eq]

theorem links_children (b : Uint256) : b ∈ range ↔ (p, b) ∈ s.mapBlocksUnlinked := by
  rw [links.children, List.mem_map]
  constructor
  · rintro ⟨⟨a, b'⟩, member, rfl⟩
    rw [List.mem_filter, decide_eq_true_eq] at member
    obtain ⟨member, rfl⟩ := member
    exact member
  · intro member
    exact ⟨(p, b), List.mem_filter.mpr ⟨member, by simp⟩, rfl⟩

/-- The entry leaves the queue, and what waited for it joins. -/
theorem links_consistent (consistent : s.Consistent (p :: queue)) :
    s'.Consistent (queue ++ range) := by
  have self := consistent.queued p List.mem_cons_self
  have stored := consistent.fresh p (List.mem_append_left _ List.mem_cons_self)
  have order := links_perm w s s' p queue range links
  have grown := links_grown w s s' p range links stored.1
  have others := links_others w s s' p range links
  have done := links_done w s s' p range links stored.1
  have pair := links_pairs w s s' p range links
  have child := links_children w s s' p range links
  constructor
  case rooted =>
    rw [links.pprev, links.nHeight, links.known]
    exact consistent.rooted
  case valid =>
    rw [links.known, links.nStatus]
    exact consistent.valid
  case data =>
    unfold haveData
    rw [links.known, links.nTx, links.nStatus]
    exact consistent.data
  case linked =>
    rw [links.known, links.nTx, links.pprev]
    intro q known linked
    by_cases here : q = p
    · rw [here]
      exact ⟨stored.1, fun a link => grown a (self.2 a link)⟩
    · rw [others q here] at linked
      have before := consistent.linked q known linked
      exact ⟨before.1, fun a link => grown a (before.2 a link)⟩
  case unlinked =>
    intro a b member
    obtain ⟨member, other⟩ := (pair a b).mp member
    obtain ⟨known, link, apart⟩ := consistent.unlinked a b member
    rw [links.known, links.pprev, others a other]
    exact ⟨known, link, apart⟩
  case queued =>
    intro q member
    rw [links.known, links.pprev]
    rcases List.mem_append.mp member with waits | comes
    · have before := consistent.queued q (List.mem_cons_of_mem _ waits)
      exact ⟨before.1, fun a link => grown a (before.2 a link)⟩
    · obtain ⟨known, link, _⟩ := consistent.unlinked p q ((child q).mp comes)
      refine ⟨known, ?_⟩
      intro a other
      rw [link] at other
      cases other
      exact done
  case fresh =>
    intro q member
    have before := order.mem_iff.mp member
    have distinct : q ≠ p := by
      rintro rfl
      have once := consistent.once
      rw [List.cons_append, List.nodup_cons] at once
      exact once.1 before
    rw [links.nTx, others q distinct]
    exact consistent.fresh q (List.mem_cons_of_mem _ before)
  case once =>
    have once := consistent.once
    rw [List.cons_append, List.nodup_cons] at once
    exact order.nodup_iff.mpr once.2
  case waiting =>
    rw [links.known, links.nTx, links.pprev, links_failed w s s' p range links]
    intro q known data apart
    have other : q ≠ p := by
      rintro rfl
      exact done apart
    rw [others q other] at apart
    rcases consistent.waiting q known data apart with queued | ⟨a, link, here | bad⟩
    · rcases List.mem_cons.mp queued with rfl | queued
      · exact absurd rfl other
      · exact .inl (List.mem_append_left _ queued)
    · by_cases first : a = p
      · rw [first] at here
        exact .inl (List.mem_append_right _ ((child q).mpr here))
      · exact .inr ⟨a, link, .inl ((pair a q).mpr ⟨here, first⟩)⟩
    · exact .inr ⟨a, link, .inr bad⟩
  case candidates =>
    rw [links.known]
    intro q among
    rcases links.fromBefore q among with before | rfl
    · have linked := consistent.candidates q before
      exact ⟨linked.1, grown q linked.2⟩
    · exact ⟨self.1, done⟩

theorem links_ranked (apart : s.nChainTx p = 0)
    (candidates : ∀ q ∈ s.setBlockIndexCandidates, s.nChainTx q ≠ 0) (ranked : s.Ranked w)
    (stored : s.nTx p ≠ 0) : s'.Ranked w := by
  have tips : s'.tip = s.tip := by rw [tip, tip, links.active]
  have other (q : Uint256) (linked : s.nChainTx q ≠ 0) : q ≠ p := by
    rintro rfl
    exact linked apart
  have key (q : Uint256) (linked : s.nChainTx q ≠ 0) : sortKey w s' q = sortKey w s q := by
    rw [sortKey, sortKey, links.nChainWork, links.sequence q (other q linked)]
  have ready (q : Uint256) (before : s.Ready q) : s'.Ready q := by
    rw [Ready, links.known, links.chainTx, if_neg (other q before.2.1),
      links_branch w s s' p range links, links_failed w s s' p range links]
    exact before
  have sure (q : Uint256) (before : s.Sure w q) : s'.Sure w q := by
    refine ⟨ready q before.1, ?_⟩
    rw [links_branch w s s' p range links]
    exact before.2
  have reached (t : Uint256) (top : s.tip = some t) :
      ∃ g ∈ s'.setBlockIndexCandidates, s'.Sure w g ∧ sortKey w s' t ≤ sortKey w s' g := by
    obtain ⟨g, among, fits, above⟩ := ranked_reached w s ranked t top
    refine ⟨g, links.kept among, sure g fits, ?_⟩
    rw [key t (ranked.sure t top).1.2.1, key g (candidates g among)]
    exact above
  refine ⟨?_, ?_, ?_⟩
  · rw [links.active, tips, links_branch w s s' p range links]
    exact ranked.active
  · intro t top
    rw [tips] at top
    exact sure t (ranked.sure t top)
  · intro a fits missing
    by_cases here : a = p
    · -- The linked block itself: a candidate, or below the tip.
      rw [here] at missing ⊢
      rcases links.inserted with member | ⟨t, top, lower⟩
      · exact absurd member missing
      · obtain ⟨g, among, better, above⟩ := reached t top
        exact ⟨g, among, better, ((workComparator_iff w s' p t).mp lower).trans_le above⟩
    · have before : s.Ready a := by
        rw [Ready, links.known, links.chainTx, if_neg here,
          links_branch w s s' p range links, links_failed w s s' p range links] at fits
        exact fits
      have outside : a ∉ s.setBlockIndexCandidates := fun member => missing (links.kept member)
      obtain ⟨g, among, better, above⟩ := ranked.covered a before outside
      refine ⟨g, links.kept among, sure g better, ?_⟩
      rw [key a before.2.1, key g (candidates g among)]
      exact above

theorem links_recorded (recorded : s.Recorded) : s'.Recorded := by
  unfold Recorded RecordedPair
  rw [links.rejected, links.known, links_branch w s s' p range links,
    links_failed w s s' p range links]
  exact recorded

theorem links_sound (sound : s.Sound w (p :: queue)) : s'.Sound w (queue ++ range) := by
  have fresh := sound.consistent.fresh p (List.mem_append_left _ List.mem_cons_self)
  refine ⟨?_, ?_, ?_⟩
  · exact links_consistent w s s' p queue range links sound.consistent
  · exact links_ranked w s s' p range links fresh.2
      (fun q among => (sound.consistent.candidates q among).2) sound.ranked fresh.1
  · exact links_recorded w s s' p range links sound.recorded

end OneTurn

/-- The loop ends with an empty queue. -/
theorem link_queue_sound (w : Surroundings) (fuel : Nat) (s : ChainState) (queue : List Uint256)
    (enough : queue.length + s.mapBlocksUnlinked.length ≤ fuel) (sound : s.Sound w queue) :
    (s.linkQueue w fuel queue).Sound w [] := by
  induction fuel generalizing s queue with
  | zero =>
      have empty : queue = [] := List.eq_nil_of_length_eq_zero (by omega)
      rw [empty] at sound
      exact sound
  | succ fuel ih =>
      cases queue with
      | nil => exact sound
      | cons p queue =>
          have links := link_one_links w s p
          have length := (links_perm w s _ p queue _ links).length_eq
          change (linkQueue w fuel (s.linkOne w p).1 (queue ++ (s.linkOne w p).2)).Sound w []
          apply ih
          · simp only [List.length_append, List.length_map] at length
            rw [List.length_cons] at enough
            rw [List.length_append]
            omega
          · exact links_sound w s _ p queue _ links sound

/-! ## Storing the data of a block -/

theorem missing_tx (s : ChainState) (p : Uint256) (consistent : s.Consistent [])
    (known : p ∈ s.known) (missing : s.haveData p = false) : s.nTx p = 0 := by
  by_contra stored
  rw [(consistent.data p known).mpr stored] at missing
  cases missing

section Storing

variable (s : ChainState) (count file : Nat) (p : Uint256)

/-- The entry has the data of its block, but is not linked. -/
def storing : ChainState :=
  s.modify p fun entry =>
    { entry with
      nTx := count, nChainTx := 0, nFile := file
      nStatus := BlockStatus.raiseValidity { entry.nStatus with haveData := true }
        blockValidTransactions }

theorem storing_status (q : Uint256) : (s.storing count file p).nStatus q =
    if q = p then BlockStatus.raiseValidity { s.nStatus p with haveData := true }
      blockValidTransactions else s.nStatus q := by
  rw [nStatus, storing, modify_entry]
  split_ifs <;> rfl

theorem storing_tx (q : Uint256) :
    (s.storing count file p).nTx q = if q = p then count else s.nTx q := by
  rw [nTx, storing, modify_entry]
  split_ifs <;> rfl

theorem storing_failed : (s.storing count file p).failed = s.failed := by
  funext q
  rw [failed, failed, storing_status]
  split_ifs with here
  · rw [BlockStatus.raise_failed, here]
    rfl
  · rfl

theorem storing_have_data (q : Uint256) :
    (s.storing count file p).haveData q = if q = p then true else s.haveData q := by
  rw [haveData, storing_status]
  split_ifs
  · rw [BlockStatus.raise_have_data]
  · rfl

theorem storing_valid (q : Uint256) (tree : blockValidTree ≤ (s.nStatus q).valid) :
    blockValidTree ≤ ((s.storing count file p).nStatus q).valid := by
  have raised := BlockStatus.raise_valid { s.nStatus p with haveData := true }
    blockValidTransactions
  rw [storing_status]
  split_ifs with here
  · rw [here] at tree
    exact tree.trans raised
  · exact tree

variable (apart : s.nChainTx p = 0)
include apart

theorem storing_same_tree : SameTree s (s.storing count file p) := by
  have field (T : Type) (value : BlockEntry → T) (same : ∀ entry : BlockEntry,
      ∀ nTx nFile nStatus, value { entry with nTx, nFile, nStatus } = value entry)
      (old : ∀ nTx nFile nStatus, value { s.entry p with nTx, nChainTx := 0, nFile, nStatus } =
        value { s.entry p with nTx, nFile, nStatus }) :
      (fun q => value ((s.storing count file p).entry q)) = fun q => value (s.entry q) := by
    funext q
    rw [storing, modify_entry]
    split_ifs with here
    · rw [old, same, here]
    · rfl
  have zero (nTx nFile : Nat) (nStatus : BlockStatus) :
      { s.entry p with nTx, nChainTx := 0, nFile, nStatus : BlockEntry } =
        { s.entry p with nTx, nFile, nStatus } := by
    rw [← apart]
    rfl
  refine ⟨rfl, field _ _ (fun _ _ _ _ => rfl) fun _ _ _ => rfl,
    field _ _ (fun _ _ _ _ => rfl) fun _ _ _ => rfl,
    field _ _ (fun _ _ _ _ => rfl) fun _ _ _ => rfl,
    field _ _ (fun _ _ _ _ => rfl) fun _ _ _ => rfl,
    field _ _ (fun _ _ _ _ => rfl) fun _ _ _ => by rw [zero], ?_⟩
  intro q bad
  rw [storing_failed]
  exact bad

theorem storing_ranked (w : Surroundings) (pairs : List (Uint256 × Uint256))
    (ranked : s.Ranked w) :
    ({ s.storing count file p with mapBlocksUnlinked := pairs } : ChainState).Ranked w := by
  have same : SameTree s { s.storing count file p with mapBlocksUnlinked := pairs } := by
    obtain ⟨known, pprev, nHeight, nChainWork, nSequenceId, nChainTx, failed⟩ :=
      storing_same_tree s count file p apart
    exact ⟨known, pprev, nHeight, nChainWork, nSequenceId, nChainTx, failed⟩
  apply same_tree_ranked w s _ same rfl
  · intro g sure
    apply same_tree_sure w s _ same g sure
    intro x above
    change (s.storing count file p).failed x = false
    rw [storing_failed]
    exact sure.1.2.2 x above
  · intro a among _
    exact among
  · exact ranked

theorem storing_recorded (pairs : List (Uint256 × Uint256)) (recorded : s.Recorded) :
    ({ s.storing count file p with mapBlocksUnlinked := pairs } : ChainState).Recorded := by
  have same := storing_same_tree s count file p apart
  exact same_tree_recorded s (s.storing count file p) same rfl recorded

section Listed

variable (consistent : s.Consistent []) (queue : List Uint256)
  (pairs : List (Uint256 × Uint256))
  (only : queue ++ pairs.map Prod.snd = [p] ∨ queue ++ pairs.map Prod.snd = [])

omit apart in
include only in
/-- Only the entry itself joins the queue or the waiting blocks. -/
theorem storing_itself (q : Uint256) (member : q ∈ queue ++ pairs.map Prod.snd) : q = p := by
  rcases only with whole | whole
  · rw [whole] at member
    exact List.mem_singleton.mp member
  · rw [whole] at member
    cases member

omit apart in
theorem storing_listed : (queue ++ (pairs ++ s.mapBlocksUnlinked).map Prod.snd) =
    (queue ++ pairs.map Prod.snd) ++ s.mapBlocksUnlinked.map Prod.snd := by
  rw [List.map_append, List.append_assoc]

omit apart in
include consistent in
theorem storing_outside (noTx : s.nTx p = 0) : p ∉ s.mapBlocksUnlinked.map Prod.snd :=
  fun member => (consistent.fresh p (List.mem_append_right _ member)).1 noTx

omit apart in
theorem storing_other (q : Uint256) (other : q ≠ p) :
    (s.storing count file p).nTx q = s.nTx q := by
  rw [storing_tx, if_neg other]

include consistent only in
theorem storing_fresh (some_tx : count ≠ 0) (noTx : s.nTx p = 0) (q : Uint256)
    (member : q ∈ queue ++ (pairs ++ s.mapBlocksUnlinked).map Prod.snd) :
    (s.storing count file p).nTx q ≠ 0 ∧ (s.storing count file p).nChainTx q = 0 := by
  rw [(storing_same_tree s count file p apart).nChainTx]
  rw [storing_listed] at member
  rcases List.mem_append.mp member with new | old
  · rw [storing_itself p queue pairs only q new, storing_tx, if_pos rfl]
    exact ⟨some_tx, apart⟩
  · rw [storing_other]
    · exact consistent.fresh q old
    · rintro rfl
      exact storing_outside s q consistent noTx old

omit apart in
include consistent only in
theorem storing_once (noTx : s.nTx p = 0) :
    (queue ++ (pairs ++ s.mapBlocksUnlinked).map Prod.snd).Nodup := by
  rw [storing_listed]
  rcases only with whole | whole
  · rw [whole]
    exact List.nodup_cons.mpr ⟨storing_outside s p consistent noTx, consistent.once⟩
  · rw [whole]
    exact consistent.once

include consistent in
theorem storing_waiting (held : p ∈ queue ∨
      ∃ a, s.pprev p = some a ∧ ((a, p) ∈ pairs ∨ s.failed a = true))
    (q : Uint256) (inside : q ∈ s.known) (stored : (s.storing count file p).nTx q ≠ 0)
    (unlinked : (s.storing count file p).nChainTx q = 0) :
    q ∈ queue ∨ ∃ a, (s.storing count file p).pprev q = some a ∧
      ((a, q) ∈ pairs ++ s.mapBlocksUnlinked ∨ (s.storing count file p).failed a = true) := by
  have same := storing_same_tree s count file p apart
  rw [same.nChainTx] at unlinked
  rw [same.pprev, storing_failed]
  by_cases here : q = p
  · rw [here]
    rcases held with waiting | ⟨a, link, new | bad⟩
    · exact .inl waiting
    · exact .inr ⟨a, link, .inl (List.mem_append_left _ new)⟩
    · exact .inr ⟨a, link, .inr bad⟩
  · rw [storing_other s count file p q here] at stored
    rcases consistent.waiting q inside stored unlinked with none | ⟨a, link, old | bad⟩
    · cases none
    · exact .inr ⟨a, link, .inl (List.mem_append_right _ old)⟩
    · exact .inr ⟨a, link, .inr bad⟩

end Listed

/-- The entry goes to the queue, waits for its parent, or has a failed parent. -/
theorem storing_consistent (consistent : s.Consistent []) (known : p ∈ s.known)
    (some_tx : count ≠ 0) (missing : s.haveData p = false) (queue : List Uint256)
    (pairs : List (Uint256 × Uint256))
    (only : queue ++ pairs.map Prod.snd = [p] ∨ queue ++ pairs.map Prod.snd = [])
    (queued : p ∈ queue → ∀ a, s.pprev p = some a → s.nChainTx a ≠ 0)
    (waits : ∀ a b, (a, b) ∈ pairs → s.pprev p = some a ∧ s.nChainTx a = 0)
    (held : p ∈ queue ∨
      ∃ a, s.pprev p = some a ∧ ((a, p) ∈ pairs ∨ s.failed a = true)) :
    ({ s.storing count file p with
      mapBlocksUnlinked := pairs ++ s.mapBlocksUnlinked } : ChainState).Consistent queue := by
  have same := storing_same_tree s count file p apart
  have noTx := missing_tx s p consistent known missing
  have itself := storing_itself p queue pairs only
  constructor
  case rooted =>
    change Rooted (s.storing count file p).pprev (s.storing count file p).nHeight fun p =>
      p ∈ s.known
    rw [same.pprev, same.nHeight]
    exact consistent.rooted
  case valid =>
    intro q inside
    exact storing_valid s count file p q (consistent.valid q inside)
  case data =>
    intro q inside
    change (s.storing count file p).haveData q = true ↔ (s.storing count file p).nTx q ≠ 0
    rw [storing_have_data, storing_tx]
    split_ifs
    · exact ⟨fun _ => some_tx, fun _ => rfl⟩
    · exact consistent.data q inside
  case linked =>
    intro q inside linked
    change (s.storing count file p).nChainTx q ≠ 0 at linked
    change (s.storing count file p).nTx q ≠ 0 ∧ ∀ a, (s.storing count file p).pprev q = some a →
      (s.storing count file p).nChainTx a ≠ 0
    rw [same.nChainTx] at linked ⊢
    rw [same.pprev]
    have before := consistent.linked q inside linked
    refine ⟨?_, before.2⟩
    rw [storing_other]
    · exact before.1
    · rintro rfl
      exact linked apart
  case unlinked =>
    intro a b member
    change b ∈ s.known ∧ (s.storing count file p).pprev b = some a ∧
      (s.storing count file p).nChainTx a = 0
    rw [same.pprev, same.nChainTx]
    rcases List.mem_append.mp member with new | old
    · have here := itself b (List.mem_append_right _ (List.mem_map_of_mem (f := Prod.snd) new))
      rw [here]
      exact ⟨known, waits a b new⟩
    · exact consistent.unlinked a b old
  case queued =>
    intro q member
    change q ∈ s.known ∧ ∀ a, (s.storing count file p).pprev q = some a →
      (s.storing count file p).nChainTx a ≠ 0
    rw [same.pprev, same.nChainTx]
    have here := itself q (List.mem_append_left _ member)
    rw [here] at member ⊢
    exact ⟨known, queued member⟩
  case fresh =>
    exact storing_fresh s count file p apart consistent queue pairs only some_tx noTx
  case once => exact storing_once s p consistent queue pairs only noTx
  case waiting =>
    exact storing_waiting s count file p apart consistent queue pairs held
  case candidates =>
    intro q among
    change q ∈ s.known ∧ (s.storing count file p).nChainTx q ≠ 0
    rw [same.nChainTx]
    exact consistent.candidates q among

end Storing

theorem received_sound (w : Surroundings) (s : ChainState) (count file : Nat) (p : Uint256)
    (sound : s.Sound w []) (known : p ∈ s.known) (some_tx : count ≠ 0)
    (missing : s.haveData p = false) :
    (s.receivedBlockTransactions w count file p).Sound w [] := by
  have consistent := sound.consistent
  have noTx := missing_tx s p consistent known missing
  have apart : s.nChainTx p = 0 := by
    by_contra linked
    exact (consistent.linked p known linked).1 noTx
  have same := storing_same_tree s count file p apart
  have soundly (queue : List Uint256) (pairs : List (Uint256 × Uint256)) := fun only queued waits
      held => Sound.mk
    (storing_consistent s count file p apart consistent known some_tx missing queue pairs only
      queued waits held)
    (storing_ranked s count file p apart w (pairs ++ s.mapBlocksUnlinked) sound.ranked)
    (storing_recorded s count file p apart (pairs ++ s.mapBlocksUnlinked) sound.recorded)
  have parents : (s.storing count file p).pprev p = s.pprev p := by rw [same.pprev]
  have link (ready : ∀ a, s.pprev p = some a → s.nChainTx a ≠ 0) :
      ((s.storing count file p).linkQueue w (s.mapBlocksUnlinked.length + 1) [p]).Sound w [] := by
    apply link_queue_sound
    · rw [List.length_singleton, Nat.add_comm]
      rfl
    · exact soundly [p] [] (.inl rfl) (fun _ => ready) (fun _ _ none => absurd none List.not_mem_nil)
        (.inl List.mem_cons_self)
  unfold receivedBlockTransactions
  dsimp only
  split
  · next parent =>
      change (s.storing count file p).pprev p = none at parent
      rw [parents] at parent
      apply link
      intro a impossible
      rw [parent] at impossible
      cases impossible
  · next a parent =>
      change (s.storing count file p).pprev p = some a at parent
      rw [parents] at parent
      have inside := consistent.rooted.closed p a known parent
      have same_tx : (s.storing count file p).nChainTx a = s.nChainTx a := by rw [same.nChainTx]
      split_ifs with linked fine
      · apply link
        intro b link
        rw [parent] at link
        cases link
        exact same_tx ▸ linked
      · change ((s.storing count file p).insertUnlinked p).Sound w []
        have value : (s.storing count file p).insertUnlinked p =
            { s.storing count file p with mapBlocksUnlinked := [(a, p)] ++ s.mapBlocksUnlinked } := by
          rw [insertUnlinked, parents, parent]
          rfl
        rw [value]
        refine soundly [] [(a, p)] (.inl rfl) (fun none => absurd none List.not_mem_nil) ?_ ?_
        · intro b c member
          cases List.mem_singleton.mp member
          exact ⟨parent, same_tx ▸ not_not.mp linked⟩
        · exact .inr ⟨a, parent, .inl List.mem_cons_self⟩
      · refine soundly [] [] (.inr rfl) (fun none => absurd none List.not_mem_nil)
          (fun _ _ none => absurd none List.not_mem_nil) (.inr ⟨a, parent, .inr ?_⟩)
        -- Every entry is valid as a tree, so that only a flag keeps the parent from it.
        have tree := storing_valid s count file p a (consistent.valid a inside)
        have flag : (s.storing count file p).failed a = true := by
          change ¬ ((s.storing count file p).nStatus a).isValid blockValidTree = true at fine
          rw [BlockStatus.isValid, decide_eq_true tree, Bool.and_true, Bool.not_eq_true',
            Bool.not_eq_false] at fine
          exact fine
        rw [storing_failed] at flag
        exact flag

end ChainState

end RoiCoin
