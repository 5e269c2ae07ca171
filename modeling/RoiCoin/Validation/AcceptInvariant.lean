import RoiCoin.Validation.LinkInvariant

/-! Headers and blocks keep the block tree sound. -/

namespace RoiCoin

open Branches Candidates

namespace ChainState

/-! ## A new header -/

section NewHeader

variable (s : ChainState) (block : OfferedBlock)

/-- The entry of a new header. -/
def freshEntry : BlockEntry :=
  ((s.addToBlockIndex block).entry block.hash)

theorem add_entry (p : Uint256) : (s.addToBlockIndex block).entry p =
    if p = block.hash then s.freshEntry block else s.entry p := by
  split_ifs with here
  · rw [here, freshEntry]
  · exact Function.update_of_ne here _ _

theorem fresh_entry : (s.freshEntry block).nTx = 0 ∧ (s.freshEntry block).nChainTx = 0 ∧
    (s.freshEntry block).nStatus = ⟨blockValidTree, false, false, false, false⟩ := by
  have value : s.freshEntry block = _ := Function.update_self _ _ _
  rw [value]
  exact ⟨rfl, rfl, rfl⟩

theorem fresh_parent : (s.freshEntry block).pprev =
    if block.hashPrevBlock ∈ s.known then some block.hashPrevBlock else none := by
  have value : s.freshEntry block = _ := Function.update_self _ _ _
  rw [value]

theorem fresh_height : (s.freshEntry block).nHeight =
    (s.freshEntry block).pprev.elim 0 fun pprev => s.nHeight pprev + 1 := by
  have value : s.freshEntry block = _ := Function.update_self _ _ _
  rw [value]

theorem add_known : (s.addToBlockIndex block).known = block.hash :: s.known := rfl

variable (unknown : block.hash ∉ s.known)
include unknown

/-- The entries that were there stay as they are. -/
theorem add_old (p : Uint256) (known : p ∈ s.known) :
    (s.addToBlockIndex block).entry p = s.entry p := by
  rw [add_entry, if_neg]
  rintro rfl
  exact unknown known

theorem add_rooted (rooted : Rooted s.pprev s.nHeight fun p => p ∈ s.known) :
    Rooted (s.addToBlockIndex block).pprev (s.addToBlockIndex block).nHeight
      fun p => p ∈ (s.addToBlockIndex block).known := by
  have new (b : Uint256) (link : (s.addToBlockIndex block).pprev block.hash = some b) :
      b ∈ s.known ∧ (s.addToBlockIndex block).nHeight block.hash = s.nHeight b + 1 := by
    rw [pprev, add_entry, if_pos rfl] at link
    rw [nHeight, add_entry, if_pos rfl, fresh_height, link]
    refine ⟨?_, rfl⟩
    rw [fresh_parent] at link
    split_ifs at link with inside
    cases link
    exact inside
  have old (a : Uint256) (known : a ∈ s.known) :
      (s.addToBlockIndex block).pprev a = s.pprev a ∧
        (s.addToBlockIndex block).nHeight a = s.nHeight a := by
    simp only [pprev, nHeight, add_old s block unknown a known, and_self]
  refine ⟨?_, ?_, ?_⟩
  · intro a b known link
    rw [add_known, List.mem_cons] at known ⊢
    rcases known with rfl | known
    · exact .inr (new b link).1
    · rw [(old a known).1] at link
      exact .inr (rooted.closed a b known link)
  · intro a b known link
    rw [add_known, List.mem_cons] at known
    rcases known with rfl | known
    · rw [(new b link).2, (old b (new b link).1).2]
    · rw [(old a known).1] at link
      rw [(old a known).2, (old b (rooted.closed a b known link)).2]
      exact rooted.above a b known link
  · intro a known link
    rw [add_known, List.mem_cons] at known
    rcases known with rfl | known
    · rw [pprev, add_entry, if_pos rfl] at link
      rw [nHeight, add_entry, if_pos rfl, fresh_height, link]
      rfl
    · rw [(old a known).1] at link
      rw [(old a known).2]
      exact rooted.root a known link

theorem add_branch (rooted : Rooted s.pprev s.nHeight fun p => p ∈ s.known) (p : Uint256)
    (known : p ∈ s.known) : (s.addToBlockIndex block).branch p = s.branch p := by
  refine branch_congr _ _ _ _ _ rooted ?_ ?_ p known
  · intro a inside
    rw [pprev, pprev, add_old s block unknown a inside]
  · intro a inside
    rw [nHeight, nHeight, add_old s block unknown a inside]

theorem add_consistent (consistent : s.Consistent []) :
    (s.addToBlockIndex block).Consistent [] := by
  have rooted := consistent.rooted
  have new := fresh_entry s block
  have old := add_old s block unknown
  have parentOld (p a : Uint256) (known : p ∈ s.known) (link : s.pprev p = some a) :
      (s.addToBlockIndex block).entry a = s.entry a := old a (rooted.closed p a known link)
  refine ⟨add_rooted s block unknown rooted, ?_, ?_, ?_, ?_, ?_, ?_, ?_, ?_, ?_⟩
  · intro p known
    rw [add_known, List.mem_cons] at known
    rcases known with rfl | known
    · rw [ChainState.nStatus, add_entry, if_pos rfl, new.2.2]
    · rw [ChainState.nStatus, old p known]
      exact consistent.valid p known
  · intro p known
    rw [add_known, List.mem_cons] at known
    rcases known with rfl | known
    · rw [haveData, ChainState.nStatus, ChainState.nTx, add_entry, if_pos rfl, new.1, new.2.2]
      simp
    · rw [haveData, ChainState.nStatus, ChainState.nTx, old p known]
      exact consistent.data p known
  · intro p known linked
    rw [add_known, List.mem_cons] at known
    rcases known with rfl | known
    · rw [ChainState.nChainTx, add_entry, if_pos rfl, new.2.1] at linked
      exact absurd rfl linked
    · rw [ChainState.nChainTx, old p known] at linked
      rw [ChainState.nTx, pprev, old p known]
      have before := consistent.linked p known linked
      refine ⟨before.1, ?_⟩
      intro a link
      rw [ChainState.nChainTx, parentOld p a known link]
      exact before.2 a link
  · intro a b member
    obtain ⟨known, link, apart⟩ := consistent.unlinked a b member
    rw [pprev, ChainState.nChainTx, old b known, parentOld b a known link]
    exact ⟨List.mem_cons_of_mem _ known, link, apart⟩
  · intro p none
    cases none
  · intro p member
    have known : p ∈ s.known := by
      obtain ⟨⟨a, b⟩, pair, rfl⟩ := List.mem_map.mp member
      exact (consistent.unlinked a b pair).1
    rw [ChainState.nTx, ChainState.nChainTx, old p known]
    exact consistent.fresh p member
  · exact consistent.once
  · intro p known stored apart
    rw [add_known, List.mem_cons] at known
    rcases known with rfl | known
    · rw [ChainState.nTx, add_entry, if_pos rfl, new.1] at stored
      exact absurd rfl stored
    · rw [ChainState.nTx, old p known] at stored
      rw [ChainState.nChainTx, old p known] at apart
      rcases consistent.waiting p known stored apart with none | ⟨a, link, held⟩
      · cases none
      · refine .inr ⟨a, ?_, ?_⟩
        · rw [pprev, old p known]
          exact link
        · rw [failed, ChainState.nStatus, parentOld p a known link]
          exact held
  · intro p among
    obtain ⟨known, linked⟩ := consistent.candidates p among
    rw [ChainState.nChainTx, old p known]
    exact ⟨List.mem_cons_of_mem _ known, linked⟩

/-- A new header is nowhere on the branch of what is linked. -/
theorem add_ready (consistent : s.Consistent []) (p : Uint256) :
    (s.addToBlockIndex block).Ready p ↔ s.Ready p := by
  have rooted := consistent.rooted
  have clean (q : Uint256) (known : q ∈ s.known) :
      (∀ x ∈ (s.addToBlockIndex block).branch q, (s.addToBlockIndex block).failed x = false) ↔
        ∀ x ∈ s.branch q, s.failed x = false := by
    rw [add_branch s block unknown rooted q known]
    have inside := mem_branch_node s.pprev s.nHeight _ rooted q known
    constructor
    · intro every x member
      have flag := every x member
      rw [failed, ChainState.nStatus, add_old s block unknown x (inside x member)] at flag
      exact flag
    · intro every x member
      rw [failed, ChainState.nStatus, add_old s block unknown x (inside x member)]
      exact every x member
  constructor
  · rintro ⟨known, linked, flags⟩
    rw [add_known, List.mem_cons] at known
    rcases known with rfl | known
    · rw [ChainState.nChainTx, add_entry, if_pos rfl, (fresh_entry s block).2.1] at linked
      exact absurd rfl linked
    · rw [ChainState.nChainTx, add_old s block unknown p known] at linked
      exact ⟨known, linked, (clean p known).mp flags⟩
  · rintro ⟨known, linked, flags⟩
    refine ⟨List.mem_cons_of_mem _ known, ?_, (clean p known).mpr flags⟩
    rw [ChainState.nChainTx, add_old s block unknown p known]
    exact linked

theorem add_sound (w : Surroundings) (sound : s.Sound w []) :
    (s.addToBlockIndex block).Sound w [] := by
  have consistent := sound.consistent
  have ranked := sound.ranked
  have rooted := consistent.rooted
  have ready := add_ready s block unknown consistent
  have branches := add_branch s block unknown rooted
  have sure (p : Uint256) : (s.addToBlockIndex block).Sure w p ↔ s.Sure w p := by
    rw [Sure, Sure, ready]
    constructor
    · intro fits
      rw [branches p fits.1.1] at fits
      exact fits
    · intro fits
      rw [branches p fits.1.1]
      exact fits
  have key (p : Uint256) (known : p ∈ s.known) :
      sortKey w (s.addToBlockIndex block) p = sortKey w s p := by
    simp only [sortKey, nChainWork, nSequenceId, add_old s block unknown p known]
  have listed (g : Uint256) (among : g ∈ s.setBlockIndexCandidates) : g ∈ s.known :=
    (consistent.candidates g among).1
  refine ⟨add_consistent s block unknown consistent, ⟨?_, ?_, ?_⟩, ?_⟩
  · have active := ranked.active
    cases top : s.tip with
    | none =>
        rw [top] at active
        change s.chainActive = s.tip.elim [] _
        rw [top]
        exact active
    | some t =>
        have known := (ranked.sure t top).1.1
        rw [top] at active
        change s.chainActive = s.tip.elim [] _
        rw [top, active]
        exact (branches t known).symm
  · intro t top
    exact (sure t).mpr (ranked.sure t top)
  · intro a fits missing
    have before := (ready a).mp fits
    obtain ⟨g, among, better, above⟩ := ranked.covered a before missing
    refine ⟨g, among, (sure g).mpr better, ?_⟩
    rw [key a before.1, key g (listed g among)]
    exact above
  · intro b m member
    obtain ⟨known, below, flagged⟩ := sound.recorded b m member
    have inside := mem_branch_node s.pprev s.nHeight _ rooted m known
    rw [RecordedPair, branches m known]
    refine ⟨List.mem_cons_of_mem _ known, below, ?_⟩
    intro x above between
    rw [branches x (inside x above)] at between
    rw [failed, ChainState.nStatus, add_old s block unknown x (inside x above)]
    exact flagged x above between

end NewHeader

theorem accept_header_sound (w : Surroundings) (s : ChainState) (block : OfferedBlock)
    (sound : s.Sound w []) : (s.acceptBlockHeader w block).1.Sound w [] := by
  unfold acceptBlockHeader
  by_cases known : block.hash ∈ s.known
  · rw [if_pos known]
    exact sound
  · rw [if_neg known]
    have added := add_sound s block known w sound
    split_ifs
    all_goals first | exact sound | exact added

/-- A header that is accepted is known. -/
theorem accept_header_known (w : Surroundings) (s : ChainState) (block : OfferedBlock)
    (accepted : (s.acceptBlockHeader w block).2 = true) :
    block.hash ∈ (s.acceptBlockHeader w block).1.known := by
  unfold acceptBlockHeader at accepted ⊢
  split_ifs at accepted ⊢ with known
  · exact known
  · exact List.mem_cons_self
  · exact List.mem_cons_self

/-! ## A new block -/

/-- A block without data lies on no linked branch. -/
theorem missing_data_sound (w : Surroundings) (s : ChainState) (p : Uint256)
    (sound : s.Sound w []) (missing : s.haveData p = false) :
    (s.setFailedValid p).Sound w [] := by
  have keeps := keeps_failed_valid s p
  have consistent := sound.consistent
  refine ⟨keeps_consistent s _ keeps consistent, ?_, ?_⟩
  · apply same_tree_ranked w s _ keeps.toSameTree rfl
    · intro g sure
      apply same_tree_sure w s _ keeps.toSameTree g sure
      intro x above
      have stored := linked_have_data s [] consistent g sure.1.1 sure.1.2.1 x above
      rw [failed_valid_other s p x]
      · exact sure.1.2.2 x above
      · rintro rfl
        rw [missing] at stored
        cases stored
    · intro a among _
      exact among
    · exact sound.ranked
  · exact same_tree_recorded s _ keeps.toSameTree rfl sound.recorded

theorem accept_block_sound (w : Surroundings) (s : ChainState) (block : OfferedBlock)
    (sound : s.Sound w []) : (s.acceptBlock w block).1.Sound w [] := by
  have header := accept_header_sound w s block sound
  have known := accept_header_known w s block
  rw [acceptBlock]
  generalize s.acceptBlockHeader w block = result at header known ⊢
  obtain ⟨s', accepted⟩ := result
  dsimp only at header known ⊢
  cases accepted with
  | false => exact header
  | true =>
      have inside := known rfl
      have whenMissing (absent : ¬ s'.haveData block.hash = true) :=
        missing_data_sound w s' block.hash header (by simpa using absent)
      have whenReceived (absent : ¬ s'.haveData block.hash = true)
          (checked : ¬ (block.check = .invalid ∨ block.nTx = 0)) :=
        received_sound w s' block.nTx block.nFile block.hash header inside
          (fun empty => checked (.inr empty)) (by simpa using absent)
      split_ifs with rejected stored unasked bad corrupt lost
      · exact header
      · exact header
      · exact header
      · exact whenMissing stored
      · exact header
      · exact header
      · exact whenReceived stored bad

theorem start_sound (w : Surroundings) : ChainState.start.Sound w [] := by
  refine ⟨⟨⟨?_, ?_, ?_⟩, ?_, ?_, ?_, ?_, ?_, ?_, List.nodup_nil, ?_, ?_⟩, ⟨rfl, ?_, ?_⟩, ?_⟩
  all_goals intro p
  · intro b known
    cases known
  · intro b known
    cases known
  · intro known
    cases known
  · intro known
    cases known
  · intro known
    cases known
  · intro known
    cases known
  · intro b member
    cases member
  · intro member
    cases member
  · intro member
    cases member
  · intro known
    cases known
  · intro member
    cases member
  · intro top
    cases top
  · intro ready
    cases ready.1
  · intro m member
    cases member

end ChainState

end RoiCoin
