import RoiCoin.Lib.Checked
import RoiCoin.Net.BlockDownload

/-! The blocks to request are the next ones on the peer's chain that are needed. -/

namespace RoiCoin

open Branches Checked

namespace DownloadView

variable (s : DownloadView)

/-- The blocks form one tree, and the active chain leads to a block of it. -/
structure Consistent (tip : Uint256) : Prop where
  skips : s.tree.blockMap.Skips fun p => p ∈ s.tree.known
  known : tip ∈ s.tree.known
  active : s.tree.chainActive = s.tree.branch tip

/-- What is known of the peer's blocks is in the tree. -/
structure PeerKnown (state : PeerBlocks) : Prop where
  best : ∀ p ∈ state.pindexBestKnownBlock, p ∈ s.tree.known
  last : ∀ p ∈ state.pindexLastCommonBlock, p ∈ s.tree.known

/-- A block of the peer's chain that we neither have nor asked for. -/
structure Wanted (best p : Uint256) : Prop where
  onChain : p ∈ s.tree.branch best
  missing : s.tree.haveData p = false
  inactive : s.tree.blockMap.contains s.vChain p = false
  idle : s.mapBlocksInFlight.lookup p = none

/-- The invariant of the loop, which has looked at the blocks up to the height `h`. -/
structure Sound (best base : Uint256) (count h : Nat) (f : Fetching) : Prop where
  common : ∀ p ∈ f.pindexLastCommonBlock :: f.earlier, p ∈ s.tree.branch best ∧
    s.tree.nHeight base ≤ s.tree.nHeight p ∧ s.tree.nHeight p ≤ h
  rising : (f.pindexLastCommonBlock :: f.earlier).Pairwise fun p q =>
    s.tree.nHeight q < s.tree.nHeight p
  start : (f.pindexLastCommonBlock :: f.earlier).getLast? = some base
  wanted : ∀ p ∈ f.vBlocks, s.Wanted best p ∧ s.tree.nHeight base < s.tree.nHeight p ∧
    s.tree.nHeight p ≤ s.tree.nHeight base + blockDownloadWindow ∧ s.tree.nHeight p ≤ h
  increasing : f.vBlocks.Pairwise fun p q => s.tree.nHeight p < s.tree.nHeight q
  few : f.vBlocks.length ≤ count

/-- A part of the loop goes on with room for another block, or returns, and follows no null
pointer. -/
def Sounds (best base : Uint256) (count h : Nat) : Except Exit Fetching → Prop
  | .ok f => s.Sound best base count h f ∧ f.vBlocks.length < count
  | .error (.returns f nodeStaller) =>
      (∃ h, s.Sound best base count h f) ∧ (nodeStaller ≠ none → f.vBlocks = [])
  | .error .nullPointer => False

section Loop

variable {s} {best base : Uint256} {count h : Nat}

theorem Sound.higher {f : Fetching} {h' : Nat} (sound : s.Sound best base count h f)
    (up : h ≤ h') : s.Sound best base count h' f where
  common p member := by
    obtain ⟨onChain, above, low⟩ := sound.common p member
    exact ⟨onChain, above, Nat.le_trans low up⟩
  rising := sound.rising
  start := sound.start
  wanted p member := by
    obtain ⟨wanted, above, inside, low⟩ := sound.wanted p member
    exact ⟨wanted, above, inside, Nat.le_trans low up⟩
  increasing := sound.increasing
  few := sound.few

/-- The last common block moves up to the next block. -/
theorem Sound.moved {f : Fetching} {p : Uint256} (sound : s.Sound best base count h f)
    (onChain : p ∈ s.tree.branch best) (next : s.tree.nHeight p = h + 1) :
    s.Sound best base count (h + 1)
      { f with pindexLastCommonBlock := p, earlier := f.pindexLastCommonBlock :: f.earlier } where
  common q member := by
    rcases List.mem_cons.mp member with rfl | before
    · have low := sound.common f.pindexLastCommonBlock List.mem_cons_self
      exact ⟨onChain, by omega, by omega⟩
    · exact (sound.higher (Nat.le_succ h)).common q before
  rising := by
    refine List.pairwise_cons.mpr ⟨?_, sound.rising⟩
    intro q before
    have low := sound.common q before
    show s.tree.nHeight q < s.tree.nHeight p
    omega
  start := by
    rw [List.getLast?_cons_cons]
    exact sound.start
  wanted := (sound.higher (Nat.le_succ h)).wanted
  increasing := sound.increasing
  few := sound.few

/-- The next block is added. -/
theorem Sound.added {f : Fetching} {p : Uint256} (sound : s.Sound best base count h f)
    (room : f.vBlocks.length < count) (wanted : s.Wanted best p)
    (above : s.tree.nHeight base ≤ h) (next : s.tree.nHeight p = h + 1)
    (inside : s.tree.nHeight p ≤ s.tree.nHeight base + blockDownloadWindow) :
    s.Sound best base count (h + 1) { f with vBlocks := f.vBlocks ++ [p] } where
  common := (sound.higher (Nat.le_succ h)).common
  rising := sound.rising
  start := sound.start
  wanted q member := by
    rcases List.mem_append.mp member with before | last
    · exact (sound.higher (Nat.le_succ h)).wanted q before
    · rw [List.mem_singleton.mp last]
      exact ⟨wanted, by omega, inside, by omega⟩
  increasing := by
    refine List.pairwise_append.mpr ⟨sound.increasing, List.pairwise_singleton _ _, ?_⟩
    intro q before r last
    rw [List.mem_singleton.mp last]
    have low := sound.wanted q before
    omega
  few := by
    rw [List.length_append, List.length_singleton]
    exact room

/-- A block in flight changes only what is waited for. -/
theorem Sound.waiting {f : Fetching} (sound : s.Sound best base count h f) (waitingfor : NodeId) :
    s.Sound best base count h { f with waitingfor } :=
  ⟨sound.common, sound.rising, sound.start, sound.wanted, sound.increasing, sound.few⟩

/-- One block, by what is known of it. -/
theorem fetchBlock_sound (nodeid : NodeId) (f : Fetching) (p : Uint256)
    (sound : s.Sound best base count h f) (room : f.vBlocks.length < count)
    (onChain : p ∈ s.tree.branch best) (next : s.tree.nHeight p = h + 1)
    (above : s.tree.nHeight base ≤ h) :
    s.Sounds best base count (h + 1)
      (s.fetchBlock nodeid count (s.tree.nHeight base + blockDownloadWindow) f (some p)) := by
  have higher := sound.higher (Nat.le_succ h)
  rw [fetchBlock]
  by_cases invalid : (s.tree.nStatus p).isValid blockValidTree = false
  · rw [if_pos invalid]
    exact ⟨⟨h, sound⟩, fun written => absurd rfl written⟩
  · rw [if_neg invalid]
    by_cases held : s.tree.haveData p = true ∨ s.tree.blockMap.contains s.vChain p = true
    · rw [if_pos held]
      by_cases linked : s.tree.nChainTx p ≠ 0
      · rw [if_pos linked]
        exact ⟨sound.moved onChain next, room⟩
      · rw [if_neg linked]
        exact ⟨higher, room⟩
    · rw [if_neg held]
      rw [not_or, Bool.not_eq_true, Bool.not_eq_true] at held
      cases found : s.mapBlocksInFlight.lookup p with
      | some element =>
          dsimp only
          split
          · exact ⟨higher.waiting element.1, room⟩
          · exact ⟨higher, room⟩
      | none =>
          dsimp only
          by_cases beyond : s.tree.nHeight p > s.tree.nHeight base + blockDownloadWindow
          · rw [if_pos beyond]
            refine ⟨⟨h, sound⟩, ?_⟩
            split
            · rename_i nothing
              exact fun _ => List.length_eq_zero_iff.mp nothing.1
            · exact fun written => absurd rfl written
          · rw [if_neg beyond]
            have added := sound.added room ⟨onChain, held.1, held.2, found⟩ above next (by omega)
            by_cases full : (f.vBlocks ++ [p]).length = count
            · rw [if_pos full]
              exact ⟨⟨h + 1, added⟩, fun written => absurd rfl written⟩
            · rw [if_neg full]
              have few := added.few
              exact ⟨added, by dsimp only at few ⊢; omega⟩

/-- The induction is on the blocks of one batch. -/
theorem fetchBlocks_sound (nodeid : NodeId) (blocks : List Uint256) (f : Fetching)
    (sound : s.Sound best base count h f) (room : f.vBlocks.length < count)
    (climbs : Climbs s.tree.blockMap.pprev s.tree.blockMap.nHeight best h blocks)
    (above : s.tree.nHeight base ≤ h) :
    s.Sounds best base count (h + blocks.length) ((blocks.map some).foldlM
      (s.fetchBlock nodeid count (s.tree.nHeight base + blockDownloadWindow)) f) := by
  induction blocks generalizing h f with
  | nil => exact ⟨sound, room⟩
  | cons p rest ih =>
      obtain ⟨onChain, next, others⟩ := climbs
      have step := fetchBlock_sound nodeid f p sound room onChain next above
      have place : h + 1 + rest.length = h + (p :: rest).length := by
        rw [List.length_cons]
        omega
      rw [List.map_cons, List.foldlM_cons]
      cases taken : s.fetchBlock nodeid count (s.tree.nHeight base + blockDownloadWindow) f
          (some p) with
      | error exit =>
          rw [taken] at step
          cases exit with
          | nullPointer => exact step
          | returns f' nodeStaller => exact step
      | ok f' =>
          rw [taken] at step
          rw [← place]
          exact ih f' step.1 step.2 others (by omega)

/-- A batch is read back from its last block: the blocks above the height `h` in order. -/
theorem readBack_climbs (skips : s.tree.blockMap.Skips fun p => p ∈ s.tree.known)
    (known : best ∈ s.tree.known) (n : Nat) (p : Uint256) (onChain : p ∈ s.tree.branch best)
    (place : s.tree.nHeight p = h + (n + 1)) :
    ∃ blocks, s.readBack (n + 1) (some p) = some (blocks.map some) ∧ blocks.length = n + 1 ∧
      Climbs s.tree.blockMap.pprev s.tree.blockMap.nHeight best h blocks := by
  induction n generalizing p with
  | zero => exact ⟨[p], rfl, rfl, onChain, place, trivial⟩
  | succ n ih =>
      have node := mem_branch_node _ _ _ skips.rooted best known p onChain
      have positive : 0 < s.tree.blockMap.nHeight p := by
        show 0 < s.tree.nHeight p
        omega
      obtain ⟨q, link, inside, height⟩ := exists_parent _ _ _ skips.rooted p node positive
      have below : q ∈ s.tree.branch best :=
        mem_branch_trans _ _ _ skips.rooted best p q known onChain
          ((mem_branch _ _ _ skips.rooted p q node).mpr
            (.inr ⟨q, link, mem_branch_self _ _ _ skips.rooted q inside⟩))
      have lower : s.tree.nHeight q = h + (n + 1) := by
        have above : s.tree.nHeight p = s.tree.nHeight q + 1 := height
        omega
      obtain ⟨blocks, read, size, climbs⟩ := ih q below lower
      refine ⟨blocks ++ [p], ?_, by simp [size], ?_⟩
      · rw [readBack, Option.bind_some, link, read]
        simp
      · rw [climbs_append]
        refine ⟨climbs, onChain, ?_, trivial⟩
        show s.tree.nHeight p = _
        omega

theorem numberToFetch_range (nMaxHeight nHeight size : Nat) (below : nHeight < nMaxHeight) :
    ∃ n, numberToFetch nMaxHeight nHeight count size = n + 1 ∧ nHeight + (n + 1) ≤ nMaxHeight := by
  have least : (128 : Int) ≤ max (BitVec.ofInt 32 ((count : Int) - size)).toInt 128 :=
    le_max_right _ _
  refine ⟨numberToFetch nMaxHeight nHeight count size - 1, ?_, ?_⟩
  · rw [numberToFetch]
    omega
  · rw [numberToFetch]
    omega

/-- A batch ends at a block of the chain that is higher. -/
theorem fetchBatch_sound (skips : s.tree.blockMap.Skips fun p => p ∈ s.tree.known)
    (known : best ∈ s.tree.known) (nodeid : NodeId) (nMaxHeight : Nat)
    (low : nMaxHeight ≤ s.tree.nHeight best) (walk : Uint256)
    (above : s.tree.nHeight base ≤ s.tree.nHeight walk) (further : s.tree.nHeight walk < nMaxHeight)
    (f : Fetching) (sound : s.Sound best base count (s.tree.nHeight walk) f)
    (room : f.vBlocks.length < count) :
    ∃ top ∈ s.tree.branch best, s.tree.nHeight walk < s.tree.nHeight top ∧
      s.tree.nHeight top ≤ nMaxHeight ∧ ∃ result,
        s.Sounds best base count (s.tree.nHeight top) result ∧
        s.fetchBatch nodeid count (s.tree.nHeight base + blockDownloadWindow) nMaxHeight best walk
          f = (fun f' => (some top, f')) <$> result := by
  obtain ⟨n, number, inside⟩ : ∃ n,
      numberToFetch nMaxHeight (s.tree.nHeight walk) count f.vBlocks.length = n + 1 ∧
        s.tree.nHeight walk + (n + 1) ≤ nMaxHeight :=
    numberToFetch_range nMaxHeight (s.tree.nHeight walk) f.vBlocks.length further
  obtain ⟨top, member, found, place⟩ := BlockMap.getAncestor_exact skips best known
    (s.tree.nHeight walk + (n + 1)) (Nat.le_trans inside low)
  obtain ⟨blocks, read, size, climbs⟩ := readBack_climbs skips known n top member place
  have height : s.tree.nHeight top = s.tree.nHeight walk + (n + 1) := place
  have batch := fetchBlocks_sound nodeid blocks f sound room climbs above
  rw [size, ← height] at batch
  refine ⟨top, member, by omega, by omega, _, batch, ?_⟩
  simp only [fetchBatch, number, ← Int.natCast_add, found, orNull, ok_then, read]
  rfl

/-- The loop ends before its fuel does, since every batch goes up. -/
theorem fetchLoop_sound (skips : s.tree.blockMap.Skips fun p => p ∈ s.tree.known)
    (known : best ∈ s.tree.known) (nodeid : NodeId) (nMaxHeight fuel : Nat)
    (low : nMaxHeight ≤ s.tree.nHeight best) (walk : Uint256)
    (above : s.tree.nHeight base ≤ s.tree.nHeight walk)
    (within : s.tree.nHeight walk ≤ nMaxHeight) (f : Fetching)
    (sound : s.Sound best base count (s.tree.nHeight walk) f)
    (room : f.vBlocks.length < count) (enough : nMaxHeight < s.tree.nHeight walk + fuel) :
    ∃ h, s.Sounds best base count h (s.fetchLoop nodeid count
      (s.tree.nHeight base + blockDownloadWindow) nMaxHeight best fuel (some walk) f) := by
  induction fuel generalizing walk f with
  | zero => omega
  | succ fuel ih =>
      rw [fetchLoop]
      by_cases further : s.tree.nHeight walk < nMaxHeight
      · obtain ⟨top, member, higher, inside, result, batch, taken⟩ :=
          fetchBatch_sound skips known nodeid nMaxHeight low walk above further f sound room
        rw [if_pos further, taken]
        cases result with
        | error exit => exact ⟨s.tree.nHeight top, by cases exit <;> exact batch⟩
        | ok f' => exact ih top (by omega) inside f' batch.1 batch.2 (by omega)
      · rw [if_neg further]
        exact ⟨s.tree.nHeight walk, sound, room⟩

end Loop

/-! ## The whole call -/

/-- What the call gives once it has gone back to the block `base`. -/
structure SoundDownload (best base : Uint256) (count : Nat) (found : Found) : Prop where
  announced : found.state.pindexBestKnownBlock = some best
  few : found.vBlocks.length ≤ count
  increasing : found.vBlocks.Pairwise fun p q => s.tree.nHeight p < s.tree.nHeight q
  distinct : found.vBlocks.Nodup
  wanted : ∀ p ∈ found.vBlocks, s.Wanted best p ∧ s.tree.nHeight base < s.tree.nHeight p ∧
    s.tree.nHeight p ≤ s.tree.nHeight base + blockDownloadWindow
  /-- The values of the last common block, from `base` on. -/
  common : ∃ last, found.state.pindexLastCommonBlock = some last ∧
    (last :: found.earlier).getLast? = some base ∧
    (last :: found.earlier).Pairwise (fun p q => s.tree.nHeight q < s.tree.nHeight p) ∧
    ∀ p ∈ last :: found.earlier, p ∈ s.tree.branch best
  staller : found.nodeStaller ≠ none → found.vBlocks = []

theorem finish_sound (state : PeerBlocks) (best base : Uint256) (count h : Nat) (f : Fetching)
    (nodeStaller : Option NodeId) (known : state.pindexBestKnownBlock = some best)
    (sound : s.Sound best base count h f) (staller : nodeStaller ≠ none → f.vBlocks = []) :
    s.SoundDownload best base count (finish state f nodeStaller) where
  announced := known
  few := sound.few
  increasing := sound.increasing
  distinct := by
    refine sound.increasing.imp ?_
    rintro p _ lower rfl
    exact Nat.lt_irrefl _ lower
  wanted p member := by
    obtain ⟨wanted, above, inside, -⟩ := sound.wanted p member
    exact ⟨wanted, above, inside⟩
  common := ⟨f.pindexLastCommonBlock, rfl, sound.start, sound.rising,
    fun p member => (sound.common p member).1⟩
  staller := staller

theorem fetchFrom_sound (skips : s.tree.blockMap.Skips fun p => p ∈ s.tree.known)
    (nodeid : NodeId) (count : Nat) (some_blocks : 0 < count) (state : PeerBlocks)
    (best base : Uint256) (announced : state.pindexBestKnownBlock = some best)
    (known : best ∈ s.tree.known) (onChain : base ∈ s.tree.branch best) :
    ∃ found, s.fetchFrom nodeid count state best base [] = some found ∧
      s.SoundDownload best base count found := by
  have low : s.tree.nHeight base ≤ s.tree.nHeight best :=
    height_le_branch _ _ _ skips.rooted best base known onChain
  have start : s.Sound best base count (s.tree.nHeight base) ⟨base, [], [], noNode⟩ :=
    { common := by simp [onChain]
      rising := List.pairwise_singleton _ _
      start := rfl
      wanted := by simp
      increasing := List.Pairwise.nil
      few := Nat.zero_le _ }
  obtain ⟨h, ends⟩ := fetchLoop_sound skips known nodeid
    (min (s.tree.nHeight best) (s.tree.nHeight base + blockDownloadWindow + 1)) _
    (Nat.min_le_left _ _) base (Nat.le_refl _) (by omega) _ start some_blocks
    (Nat.lt_of_lt_of_le (Nat.lt_succ_self _) (Nat.le_add_left _ _))
  rw [fetchFrom]
  revert ends
  cases s.fetchLoop nodeid count (s.tree.nHeight base + blockDownloadWindow)
    (min (s.tree.nHeight best) (s.tree.nHeight base + blockDownloadWindow + 1)) best
    (min (s.tree.nHeight best) (s.tree.nHeight base + blockDownloadWindow + 1) + 1) (some base)
    ⟨base, [], [], noNode⟩ with
  | ok f =>
      intro ends
      exact ⟨_, rfl, s.finish_sound state best base count h f none announced ends.1
        fun written => absurd rfl written⟩
  | error exit =>
      intro ends
      cases exit with
      | nullPointer => exact absurd ends id
      | returns f nodeStaller =>
          obtain ⟨⟨h', sound⟩, staller⟩ := ends
          exact ⟨_, rfl, s.finish_sound state best base count h' f nodeStaller announced sound
            staller⟩

/-- Where the loop starts: the highest block that the peer's chain has in common with the last
common block at entry, or with the guess. -/
def Rebased (state : PeerBlocks) (best base : Uint256) : Prop :=
  ∃ start, s.guessLastCommon state best = some start ∧
    HighestCommon s.tree.blockMap.pprev s.tree.blockMap.nHeight start best base

theorem vChain_chainTo (tip : Uint256) (consistent : s.Consistent tip) :
    s.vChain = s.tree.blockMap.chainTo (some tip) := by
  rw [vChain, consistent.active]
  rfl

theorem guess_known (state : PeerBlocks) (best tip : Uint256) (consistent : s.Consistent tip)
    (last : ∀ p ∈ state.pindexLastCommonBlock, p ∈ s.tree.known) :
    ∃ start ∈ s.tree.known, s.guessLastCommon state best = some start := by
  rw [guessLastCommon]
  cases held : state.pindexLastCommonBlock with
  | some p => exact ⟨p, last p held, rfl⟩
  | none =>
      have skips := consistent.skips
      have size := BlockMap.length_chainTo skips tip consistent.known
      have place : (min (s.tree.nHeight best : Int) (s.vChain.height)) =
          (min (s.tree.nHeight best) (s.tree.nHeight tip) : Nat) := by
        rw [s.vChain_chainTo tip consistent, CChain.height, size]
        have same : s.tree.blockMap.nHeight tip = s.tree.nHeight tip := rfl
        omega
      obtain ⟨start, member, height⟩ := exists_at_height _ _ _ skips.rooted tip consistent.known
        (min (s.tree.nHeight best) (s.tree.nHeight tip)) (Nat.min_le_right _ _)
      refine ⟨start, mem_branch_node _ _ _ skips.rooted tip consistent.known start member, ?_⟩
      dsimp only
      rw [place, ← height, s.vChain_chainTo tip consistent]
      exact BlockMap.entryAt_chainTo skips tip start consistent.known member

theorem rebase_exact (state : PeerBlocks) (best tip : Uint256) (consistent : s.Consistent tip)
    (known : best ∈ s.tree.known) (last : ∀ p ∈ state.pindexLastCommonBlock, p ∈ s.tree.known) :
    ∃ base, s.rebaseLastCommon state best = some base ∧ s.Rebased state best base := by
  obtain ⟨start, node, guessed⟩ := s.guess_known state best tip consistent last
  obtain ⟨base, found, common⟩ :=
    BlockMap.lastCommonAncestor_exact consistent.skips start best node known
  refine ⟨base, ?_, start, guessed, common⟩
  rw [rebaseLastCommon, guessed, Option.bind_some, found]
  rfl

theorem rebase_stays (skips : s.tree.blockMap.Skips fun p => p ∈ s.tree.known)
    (state : PeerBlocks) (best base entry : Uint256) (known : best ∈ s.tree.known)
    (rebased : s.Rebased state best base) (held : state.pindexLastCommonBlock = some entry)
    (onChain : entry ∈ s.tree.branch best) : base = entry := by
  obtain ⟨start, guessed, common⟩ := rebased
  rw [guessLastCommon, held] at guessed
  cases guessed
  have node := mem_branch_node _ _ _ skips.rooted best known entry onChain
  have self := mem_branch_self _ _ _ skips.rooted entry node
  rcases height_branch _ _ _ skips.rooted entry node base common.first with same | lower
  · exact same
  · have higher := common.highest entry self onChain
    omega

theorem processed_known (state : PeerBlocks) (peer : s.PeerKnown state) :
    s.PeerKnown (s.processBlockAvailability state) ∧
      (s.processBlockAvailability state).pindexLastCommonBlock = state.pindexLastCommonBlock := by
  rw [processBlockAvailability]
  split
  · split
    · rename_i found
      have chosen : ∀ better : Bool, ∀ p ∈ (if better = true then
          some state.hashLastUnknownBlock else state.pindexBestKnownBlock), p ∈ s.tree.known := by
        intro better p announced
        cases better with
        | false => exact peer.best p announced
        | true =>
            cases announced
            exact found.1
      exact ⟨⟨chosen _, peer.last⟩, rfl⟩
    · exact ⟨peer, rfl⟩
  · exact ⟨peer, rfl⟩

/-- The call ends without a null pointer. It returns before anything is fetched, or it goes back to
a common block and fetches what follows. -/
theorem find_next_blocks_sound (tip : Uint256) (consistent : s.Consistent tip) (nodeid : NodeId)
    (count : BitVec 32) (state : PeerBlocks) (peer : s.PeerKnown state) :
    ∃ found, s.findNextBlocksToDownload nodeid count state [] = some found ∧
      (found.vBlocks = [] ∧ found.nodeStaller = none ∧ found.earlier = [] ∧
          found.state.pindexLastCommonBlock = state.pindexLastCommonBlock ∨
        ∃ best base, s.SoundDownload best base count.toNat found ∧
          s.Rebased state best base ∧
          ∀ entry, state.pindexLastCommonBlock = some entry → entry ∈ s.tree.branch best →
            base = entry) := by
  have skips := consistent.skips
  obtain ⟨⟨bestKnown, lastKnown⟩, sameLast⟩ := s.processed_known state peer
  have at_tip : s.vChain.tip = some tip := by
    rw [s.vChain_chainTo tip consistent]
    exact BlockMap.chainTo_tip skips tip consistent.known
  rw [findNextBlocksToDownload]
  by_cases nothing : count.toNat = 0
  · rw [if_pos nothing]
    exact ⟨_, rfl, .inl ⟨rfl, rfl, rfl, rfl⟩⟩
  rw [if_neg nothing]
  dsimp only
  generalize s.processBlockAvailability state = current at *
  cases announced : current.pindexBestKnownBlock with
  | none => exact ⟨_, rfl, .inl ⟨rfl, rfl, rfl, sameLast⟩⟩
  | some best =>
      have known := bestKnown best announced
      rw [at_tip]
      dsimp only [Option.bind_some]
      by_cases worse : s.tree.nChainWork best < s.tree.nChainWork tip
      · rw [if_pos worse]
        exact ⟨_, rfl, .inl ⟨rfl, rfl, rfl, sameLast⟩⟩
      rw [if_neg worse]
      obtain ⟨base, found, rebased⟩ := s.rebase_exact current best tip consistent known lastKnown
      have onChain : base ∈ s.tree.branch best := rebased.choose_spec.2.second
      have atEntry : s.Rebased state best base := by
        rw [Rebased, guessLastCommon, ← sameLast]
        exact rebased
      rw [found, Option.bind_some]
      have stays := fun entry => s.rebase_stays skips state best base entry known atEntry
      by_cases done : base = best
      · rw [if_pos done]
        refine ⟨_, rfl, .inr ⟨best, base, ?_, atEntry, stays⟩⟩
        exact {
          announced := rfl
          few := Nat.zero_le _
          increasing := List.Pairwise.nil
          distinct := List.nodup_nil
          wanted := by simp
          common := ⟨base, rfl, rfl, List.pairwise_singleton _ _, by simpa using onChain⟩
          staller := fun _ => rfl }
      · rw [if_neg done]
        obtain ⟨result, fetched, sound⟩ := s.fetchFrom_sound skips nodeid count.toNat (by omega)
          current best base announced known onChain
        exact ⟨result, fetched, .inr ⟨best, base, sound, atEntry, stays⟩⟩

/-! ## A peer that has left our chain -/

def headerEntry (pprev pskip : Option Uint256) (nHeight : Nat) (nChainWork : Uint256) : BlockEntry :=
  ⟨pprev, pskip, nHeight, 0, 0, nChainWork, 0, 0, ⟨blockValidTree, false, false, false, false⟩, 0⟩

def storedEntry (pprev pskip : Option Uint256) (nHeight : Nat) (nChainWork : Uint256) : BlockEntry :=
  ⟨pprev, pskip, nHeight, 0, 0, nChainWork, 1, nHeight + 1,
    ⟨blockValidScripts, true, true, false, false⟩, 0⟩

def forkEntries : List (Uint256 × BlockEntry) :=
  [(1, storedEntry none none 0 1), (2, storedEntry (some 1) (some 1) 1 2),
    (3, storedEntry (some 2) (some 1) 2 3), (4, headerEntry (some 1) (some 1) 1 2),
    (5, headerEntry (some 4) (some 1) 2 3), (6, headerEntry (some 5) (some 4) 3 4)]

/-- The active chain 1, 2, 3 and the headers 4, 5, 6 of a longer one. -/
def forkView : DownloadView where
  tree := { ChainState.start with
    known := [1, 2, 3, 4, 5, 6]
    entry := fun p => (forkEntries.lookup p).getD .blank
    chainActive := [3, 2, 1] }
  mapBlocksInFlight := ∅

/-- A peer that had the tip of the active chain and now announces the longer chain. -/
def reorganisedPeer : PeerBlocks := ⟨some 6, 0, some 3⟩

/-- A link of the tree, with the skip pointer beside it. -/
def linked (s : DownloadView) (a b : Uint256) : Bool :=
  s.tree.known.contains b && s.tree.nHeight a == s.tree.nHeight b + 1 &&
    (s.tree.branch b).any fun t => s.tree.pskip a == some t &&
      s.tree.nHeight t == getSkipHeight (s.tree.nHeight a)

/-- The root, or an entry linked to its parent. -/
def placed (s : DownloadView) (a : Uint256) : Bool :=
  match s.tree.pprev a with
  | none => a == 1 && s.tree.nHeight a == 0
  | some b => linked s a b

theorem forkView_consistent : forkView.Consistent 3 := by
  have checked : forkView.tree.known.all (placed forkView) = true := by
    decide +kernel
  rw [List.all_eq_true] at checked
  have links : ∀ a b, a ∈ forkView.tree.known → forkView.tree.pprev a = some b →
      linked forkView a b = true := by
    intro a b inside link
    have own := checked a inside
    rwa [placed, link] at own
  have roots : ∀ a, a ∈ forkView.tree.known → forkView.tree.pprev a = none →
      a = 1 ∧ forkView.tree.nHeight a = 0 := by
    intro a inside root
    have own := checked a inside
    rw [placed, root] at own
    simpa using own
  simp only [linked, Bool.and_eq_true, List.contains_iff_mem, beq_iff_eq, List.any_eq_true,
    and_assoc] at links
  refine ⟨⟨⟨?_, ?_, ?_⟩, ?_, ?_⟩, by decide, by decide +kernel⟩
  · exact fun a b inside link => (links a b inside link).1
  · exact fun a b inside link => (links a b inside link).2.1
  · exact fun a inside root => (roots a inside root).2
  · intro a b insideA insideB rootA rootB
    exact (roots a insideA rootA).1.trans (roots b insideB rootB).1.symm
  · intro a b inside link
    obtain ⟨-, -, t, member, skip, height⟩ := links a b inside link
    exact ⟨t, member, skip, height⟩

theorem reorganisedPeer_known : forkView.PeerKnown reorganisedPeer := by
  constructor
  · intro p same
    cases same
    decide
  · intro p same
    cases same
    decide

theorem find_next_blocks_sound_fork : ∃ found best base,
    forkView.findNextBlocksToDownload 7 16 reorganisedPeer [] = some found ∧
      found.vBlocks = [4, 5, 6] ∧ forkView.SoundDownload best base 16 found := by
  obtain ⟨found, call, either⟩ := forkView.find_next_blocks_sound 3 forkView_consistent 7 16
    reorganisedPeer reorganisedPeer_known
  have blocks : (forkView.findNextBlocksToDownload 7 16 reorganisedPeer []).map Found.vBlocks =
      some [4, 5, 6] := by
    decide +kernel
  rw [call, Option.map_some, Option.some.injEq] at blocks
  rcases either with ⟨none, -⟩ | ⟨best, base, sound, -⟩
  · rw [blocks] at none
    cases none
  · exact ⟨found, best, base, call, blocks, sound⟩

/-- The blocks fetched need not be above the last common block at entry: the peer has left the
branch it is on. -/
theorem fetched_below_common_at_entry :
    forkView.Consistent 3 ∧ forkView.PeerKnown reorganisedPeer ∧
      reorganisedPeer.pindexLastCommonBlock = some 3 ∧
      ∃ found, forkView.findNextBlocksToDownload 7 16 reorganisedPeer [] = some found ∧
        ¬ ∀ p ∈ found.vBlocks, forkView.tree.nHeight 3 < forkView.tree.nHeight p := by
  have call : ∃ found, forkView.findNextBlocksToDownload 7 16 reorganisedPeer [] = some found :=
    Option.isSome_iff_exists.mp (by decide +kernel)
  have blocks : (forkView.findNextBlocksToDownload 7 16 reorganisedPeer []).map Found.vBlocks =
      some [4, 5, 6] := by
    decide +kernel
  obtain ⟨found, call⟩ := call
  rw [call, Option.map_some, Option.some.injEq] at blocks
  refine ⟨forkView_consistent, reorganisedPeer_known, rfl, found, call, ?_⟩
  intro above
  exact absurd (above 4 (by simp [blocks])) (by decide)

end DownloadView

end RoiCoin
