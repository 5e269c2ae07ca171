import Mathlib.Data.List.Chain
import Mathlib.Data.List.Find
import Mathlib.Data.Nat.Log
import RoiCoin.ForkPoints

/-! Locators (`CChain::GetLocator`), and the block index of one node against that of another.

A header is named by its hash, which it is taken to be known by. -/

namespace RoiCoin

open Branches

/-! ## The spacing of a locator -/

/-- Where the loop of `GetLocator` stands after `size` entries: one by one at first, and then twice
as far with every entry. -/
structure Descends (top nStep size height : Nat) : Prop where
  early : size ≤ 10 → nStep = 1 ∧ top = height + size
  late : 11 ≤ size → nStep = 2 ^ (size - 10) ∧ (height = 0 ∨ top = height + 9 + nStep)
  few : size ≤ 11 + Nat.log 2 top

theorem descends_start (top : Nat) : Descends top 1 0 top where
  early _ := ⟨rfl, rfl⟩
  late large := by omega
  few := Nat.zero_le _

theorem Descends.next {top nStep size height : Nat} (descends : Descends top nStep size height)
    (positive : 0 < height) :
    Descends top (if size + 1 > 10 then nStep * 2 else nStep) (size + 1) (height - nStep) := by
  by_cases early : size ≤ 10
  · obtain ⟨rfl, place⟩ := descends.early early
    refine ⟨fun small => ?_, fun large => ?_, by omega⟩
    · rw [if_neg (by omega)]
      exact ⟨rfl, by omega⟩
    · have ten : size = 10 := by omega
      subst ten
      exact ⟨rfl, .inr (by simp only [Nat.reduceAdd, gt_iff_lt, Nat.reduceLT, if_true]; omega)⟩
  · obtain ⟨step, place⟩ := descends.late (by omega)
    have below : top = height + 9 + nStep := by omega
    have power : 2 ^ (size - 10) ≤ top := by omega
    have many := Nat.le_log_of_pow_le (by decide : 1 < 2) power
    refine ⟨fun small => by omega, fun _ => ?_, by omega⟩
    rw [if_pos (by omega), step, show size + 1 - 10 = size - 10 + 1 by omega, pow_succ, ← step]
    refine ⟨rfl, ?_⟩
    omega

/-- How far the next entry may be below an entry. -/
def Spaced (top upper lower : Nat) : Prop :=
  lower < upper ∧ upper - lower ≤ max 1 (top - upper - 9)

theorem Descends.spaced {top nStep size height : Nat} (descends : Descends top nStep size height)
    (positive : 0 < height) : Spaced top height (height - nStep) := by
  rw [Spaced]
  by_cases early : size ≤ 10
  · obtain ⟨step, -⟩ := descends.early early
    omega
  · obtain ⟨step, place⟩ := descends.late (by omega)
    have some := Nat.two_pow_pos (size - 10)
    omega

/-- In a list that goes down to zero with such steps, the first entry at a height or below is close
to it. -/
theorem first_close (top height : Nat) (heights : List Nat) (upper : Nat) (within : upper ≤ top)
    (low : height ≤ upper) (spaced : (upper :: heights).IsChain (Spaced top))
    (zero : 0 ∈ upper :: heights) :
    ∃ first, (upper :: heights).find? (fun h => decide (h ≤ height)) = some first ∧
      first ≤ height ∧ height - first ≤ top - height - 11 := by
  induction heights generalizing upper with
  | nil =>
      rw [List.mem_singleton] at zero
      have reached : height = 0 := by omega
      subst reached
      exact ⟨upper, by simp [← zero], by omega, by omega⟩
  | cons lower heights ih =>
      rw [List.isChain_cons_cons] at spaced
      obtain ⟨step, rest⟩ := spaced
      rw [Spaced] at step
      by_cases here : upper ≤ height
      · exact ⟨upper, by rw [List.find?_cons_of_pos (by simpa using here)], here, by omega⟩
      · rw [List.find?_cons_of_neg (by simpa using here)]
        have later : 0 ∈ lower :: heights := by
          rcases List.mem_cons.mp zero with same | later
          · omega
          · exact later
        by_cases next : lower ≤ height
        · exact ⟨lower, by rw [List.find?_cons_of_pos (by simpa using next)], next, by omega⟩
        · exact ih lower (by omega) (by omega) rest later

/-! ## Locators -/

namespace BlockMap

variable {m : BlockMap} {S : Uint256 → Prop}

/-- The next entry, through the active chain or by the skip pointers. -/
theorem locator_next (skips : m.Skips S) (tip : Uint256) (known : S tip) (pindex : Uint256)
    (node : S pindex) (height : Nat) (low : height ≤ m.nHeight pindex) :
    ∃ a ∈ m.branch pindex,
      (if m.contains (m.chainTo (some tip)) pindex = true then
        some ((m.chainTo (some tip)).entryAt height)
      else m.getAncestor pindex height) = some (some a) ∧ m.nHeight a = height := by
  by_cases active : m.contains (m.chainTo (some tip)) pindex = true
  · obtain ⟨a, member, place⟩ := exists_at_height _ _ _ skips.rooted pindex node height low
    have place' : m.nHeight a = height := place
    have upper := (contains_chainTo skips tip pindex known).mp active
    refine ⟨a, member, ?_, place⟩
    rw [if_pos active, ← place', entryAt_chainTo skips tip a known
      (mem_branch_trans _ _ _ skips.rooted tip pindex a known upper member)]
  · obtain ⟨a, member, found, place⟩ := getAncestor_exact skips pindex node height low
    exact ⟨a, member, by rw [if_neg active, found], place⟩

/-- The entries from `pindex` on, with their spacing below `top`. -/
structure Locates (m : BlockMap) (top : Nat) (vHave : List Uint256) (pindex : Uint256)
    (rest : List Uint256) : Prop where
  ancestors : ∀ a ∈ pindex :: rest, a ∈ m.branch pindex
  spaced : ((pindex :: rest).map m.nHeight).IsChain (Spaced top)
  root : 0 ∈ (pindex :: rest).map m.nHeight
  few : (vHave ++ pindex :: rest).length ≤ 12 + Nat.log 2 top

theorem locatorLoop_spaced (skips : m.Skips S) (tip : Uint256) (known : S tip) (top : Nat)
    (fuel nStep : Nat) (vHave : List Uint256) (pindex : Uint256) (node : S pindex)
    (enough : m.nHeight pindex < fuel)
    (descends : Descends top nStep vHave.length (m.nHeight pindex)) :
    ∃ rest, m.locatorLoop (m.chainTo (some tip)) fuel nStep vHave (some pindex) =
        some (vHave ++ pindex :: rest) ∧ m.Locates top vHave pindex rest := by
  induction fuel generalizing nStep vHave pindex with
  | zero => omega
  | succ fuel ih =>
      have self := mem_branch_self _ _ _ skips.rooted pindex node
      have size : (vHave ++ [pindex]).length = vHave.length + 1 := by simp
      have few := descends.few
      rw [locatorLoop]
      dsimp only
      by_cases zero : m.nHeight pindex = 0
      · rw [if_pos zero]
        refine ⟨[], rfl, ?_, ?_, ?_, by omega⟩
        · intro a inList
          rw [List.mem_singleton.mp inList]
          exact self
        · exact .singleton _
        · simp [zero]
      · rw [if_neg zero]
        obtain ⟨a, member, next, place⟩ := locator_next skips tip known pindex node
          (m.nHeight pindex - nStep) (Nat.sub_le _ _)
        have inside := mem_branch_node _ _ _ skips.rooted pindex node a member
        have positive : 0 < m.nHeight pindex := by omega
        have spaced := descends.spaced positive
        have lower : m.nHeight a < m.nHeight pindex := by
          rw [place]
          exact spaced.1
        obtain ⟨rest, done, located⟩ := ih _ (vHave ++ [pindex]) a inside (by omega)
          (by rw [size, place]; exact descends.next positive)
        rw [next, Option.bind_some, size, done]
        refine ⟨a :: rest, by simp, ?_, ?_, ?_, ?_⟩
        · intro b inList
          rcases List.mem_cons.mp inList with rfl | later
          · exact self
          · exact mem_branch_trans _ _ _ skips.rooted pindex a b node member
              (located.ancestors b later)
        · have tail := located.spaced
          simp only [List.map_cons] at tail ⊢
          exact .cons_cons (place ▸ spaced) tail
        · exact List.mem_cons_of_mem _ located.root
        · have all := located.few
          rw [List.append_assoc, List.singleton_append] at all
          exact all

theorem getLocator_spaced (skips : m.Skips S) (tip : Uint256) (known : S tip) (pindex : Uint256)
    (node : S pindex) :
    ∃ rest, m.getLocator (m.chainTo (some tip)) (some pindex) = some (pindex :: rest) ∧
      m.Locates (m.nHeight pindex) [] pindex rest := by
  obtain ⟨rest, made, located⟩ := locatorLoop_spaced skips tip known (m.nHeight pindex)
    (m.nHeight pindex + 1) 1 [] pindex node (Nat.lt_succ_self _) (descends_start _)
  exact ⟨rest, by simpa [getLocator] using made, located⟩

end BlockMap

/-! ## Block indexes of different nodes -/

/-- The fields of the headers that hashes stand for. -/
structure HeaderSource where
  hashGenesisBlock : Uint256
  hashPrevBlock : Uint256 → Uint256
  nBits : Uint256 → BitVec 32

namespace ChainState

/-- `chainActive`, with the genesis block first. -/
def vChain (s : ChainState) : CChain := s.chainActive.reverse.map some

/-- The headers form one tree from the genesis block on, with the active chain in it. -/
structure Indexes (source : HeaderSource) (s : ChainState) : Prop where
  skips : s.blockMap.Skips fun p => p ∈ s.known
  links : ∀ p ∈ s.known, ∀ q, s.pprev p = some q → q = source.hashPrevBlock p
  genesis : source.hashGenesisBlock ∈ s.known
  first : s.pprev source.hashGenesisBlock = none
  active : ∃ tip ∈ s.known, s.chainActive = s.branch tip

section Nodes

variable {source : HeaderSource} {a b : ChainState}

theorem Indexes.only_first (indexes : a.Indexes source) (p : Uint256) (known : p ∈ a.known)
    (link : a.pprev p = none) : p = source.hashGenesisBlock :=
  indexes.skips.single p _ known indexes.genesis link indexes.first

theorem Indexes.parent (indexes : a.Indexes source) (p : Uint256) (known : p ∈ a.known)
    (later : p ≠ source.hashGenesisBlock) : a.pprev p = some (source.hashPrevBlock p) := by
  cases link : a.pprev p with
  | none => exact absurd (indexes.only_first p known link) later
  | some q => rw [indexes.links p known q link]

theorem Indexes.height_first (indexes : a.Indexes source) : a.nHeight source.hashGenesisBlock = 0 :=
  indexes.skips.rooted.root _ indexes.genesis indexes.first

/-- Two nodes that know a block have the same chain up to it. -/
theorem Indexes.same_branch (nodeA : a.Indexes source) (nodeB : b.Indexes source) (p : Uint256)
    (knownA : p ∈ a.known) (knownB : p ∈ b.known) :
    b.branch p = a.branch p ∧ b.nHeight p = a.nHeight p := by
  have rootedA := nodeA.skips.rooted
  have rootedB := nodeB.skips.rooted
  revert knownB knownA p
  apply rooted_induction _ _ _ rootedA (fun p => p ∈ b.known →
    b.branch p = a.branch p ∧ b.nHeight p = a.nHeight p)
  intro p knownA ih knownB
  have unfoldA := branch_eq _ _ _ rootedA p knownA
  have unfoldB := branch_eq _ _ _ rootedB p knownB
  by_cases first : p = source.hashGenesisBlock
  · subst first
    have linkA : a.blockMap.pprev source.hashGenesisBlock = none := nodeA.first
    have linkB : b.blockMap.pprev source.hashGenesisBlock = none := nodeB.first
    rw [linkA] at unfoldA
    rw [linkB] at unfoldB
    exact ⟨unfoldB.trans unfoldA.symm, nodeB.height_first.trans nodeA.height_first.symm⟩
  · have linkA : a.blockMap.pprev p = some (source.hashPrevBlock p) := nodeA.parent p knownA first
    have linkB : b.blockMap.pprev p = some (source.hashPrevBlock p) := nodeB.parent p knownB first
    have insideA := rootedA.closed p _ knownA linkA
    have insideB := rootedB.closed p _ knownB linkB
    obtain ⟨branches, heights⟩ := ih _ linkA insideA insideB
    have aboveA := rootedA.above p _ knownA linkA
    have aboveB := rootedB.above p _ knownB linkB
    rw [linkA] at unfoldA
    rw [linkB] at unfoldB
    refine ⟨unfoldB.trans ?_, aboveB.trans ?_⟩
    · rw [Option.elim_some]
      refine Eq.trans ?_ unfoldA.symm
      rw [Option.elim_some]
      exact congrArg (p :: ·) branches
    · exact (congrArg (· + 1) heights).trans aboveA.symm

theorem Indexes.chainTo (indexes : a.Indexes source) :
    ∃ tip ∈ a.known, a.chainActive = a.branch tip ∧ a.vChain = a.blockMap.chainTo (some tip) := by
  obtain ⟨tip, known, active⟩ := indexes.active
  refine ⟨tip, known, active, ?_⟩
  rw [vChain, active]
  rfl

theorem Indexes.contains_iff (indexes : a.Indexes source) (p : Uint256) :
    a.blockMap.contains a.vChain p = true ↔ p ∈ a.chainActive := by
  obtain ⟨tip, known, active, chain⟩ := indexes.chainTo
  rw [chain, active]
  exact BlockMap.contains_chainTo indexes.skips tip p known

theorem Indexes.active_known (indexes : a.Indexes source) (p : Uint256)
    (member : p ∈ a.chainActive) : p ∈ a.known := by
  obtain ⟨tip, known, active⟩ := indexes.active
  rw [active] at member
  exact mem_branch_node _ _ _ indexes.skips.rooted tip known p member

theorem Indexes.active_closed (indexes : a.Indexes source) (p x : Uint256)
    (member : p ∈ a.chainActive) (below : x ∈ a.branch p) : x ∈ a.chainActive := by
  obtain ⟨tip, known, active⟩ := indexes.active
  rw [active] at member ⊢
  exact mem_branch_trans _ _ _ indexes.skips.rooted tip p x known member below

theorem Indexes.genesis_active (indexes : a.Indexes source) :
    source.hashGenesisBlock ∈ a.chainActive := by
  obtain ⟨tip, known, active⟩ := indexes.active
  rw [active]
  exact BlockMap.root_shared indexes.skips _ tip indexes.genesis known indexes.height_first

/-- The highest block of a chain that the other node has in its active chain. -/
theorem Indexes.highest_active (nodeA : a.Indexes source) (nodeB : b.Indexes source) (p : Uint256)
    (known : p ∈ a.known) :
    ∃ f ∈ a.branch p, ∀ x ∈ a.branch p, x ∈ b.chainActive ↔ a.nHeight x ≤ a.nHeight f := by
  have rooted := nodeA.skips.rooted
  revert known p
  apply rooted_induction _ _ _ rooted (fun p =>
    ∃ f ∈ a.branch p, ∀ x ∈ a.branch p, x ∈ b.chainActive ↔ a.nHeight x ≤ a.nHeight f)
  intro p known ih
  have self : p ∈ a.branch p := mem_branch_self _ _ _ rooted p known
  by_cases active : p ∈ b.chainActive
  · refine ⟨p, self, fun x below => ⟨fun _ => ?_, fun _ => ?_⟩⟩
    · exact height_le_branch _ _ _ rooted p x known below
    · have same := (nodeA.same_branch nodeB p known (nodeB.active_known p active)).1
      rw [← same] at below
      exact nodeB.active_closed p x active below
  · have later : p ≠ source.hashGenesisBlock := by
      rintro rfl
      exact active nodeB.genesis_active
    have link : a.blockMap.pprev p = some (source.hashPrevBlock p) := nodeA.parent p known later
    have parent := rooted.closed p _ known link
    have above : a.nHeight p = a.nHeight (source.hashPrevBlock p) + 1 := rooted.above p _ known link
    obtain ⟨f, member, highest⟩ := ih _ link parent
    have low : a.nHeight f ≤ a.nHeight (source.hashPrevBlock p) :=
      height_le_branch _ _ _ rooted _ f parent member
    refine ⟨f, (mem_branch _ _ _ rooted p f known).mpr (.inr ⟨_, link, member⟩), ?_⟩
    intro x below
    rcases (mem_branch _ _ _ rooted p x known).mp below with rfl | ⟨q, link', under⟩
    · refine ⟨fun inside => absurd inside active, fun small => ?_⟩
      omega
    · rw [link, Option.some.injEq] at link'
      exact highest x (link' ▸ under)

end Nodes

end ChainState

/-! ## How far a locator misses -/

theorem find_fork_first (m : BlockMap) (vChain : CChain) (vHave : List Uint256) :
    m.findForkInGlobalIndex vChain vHave =
      (vHave.find? fun hash => decide (m.Known hash ∧ m.contains vChain hash = true)).or
        vChain.genesis := by
  induction vHave with
  | nil => rfl
  | cons hash vHave ih =>
      rw [BlockMap.findForkInGlobalIndex]
      by_cases here : m.Known hash ∧ m.contains vChain hash = true
      · rw [if_pos here, List.find?_cons_of_pos (by simpa using here)]
        rfl
      · rw [if_neg here, List.find?_cons_of_neg (by simpa using here), ih]

section Gap

variable {source : HeaderSource} {a b : ChainState}

/-- A locator has few entries. The other node finds through it a block that both have, which is the
last such block where that is among the last twelve, and else is at most twice as deep. -/
theorem locator_gap (nodeA : a.Indexes source) (nodeB : b.Indexes source) (pindex : Uint256)
    (known : pindex ∈ a.known) :
    ∃ vHave fork, a.blockMap.getLocator a.vChain (some pindex) = some vHave ∧
      vHave.length ≤ 12 + Nat.log 2 (a.nHeight pindex) ∧
      b.blockMap.findForkInGlobalIndex b.vChain vHave = some fork ∧ fork ∈ a.branch pindex ∧
      fork ∈ b.chainActive ∧
      ∀ common ∈ a.branch pindex, common ∈ b.chainActive →
        a.nHeight common - a.nHeight fork ≤ a.nHeight pindex - a.nHeight common - 11 := by
  obtain ⟨tip, inside, -, chain⟩ := nodeA.chainTo
  obtain ⟨rest, made, located⟩ := BlockMap.getLocator_spaced nodeA.skips tip inside pindex known
  obtain ⟨highest, member, active⟩ := nodeA.highest_active nodeB pindex known
  have low : a.nHeight highest ≤ a.nHeight pindex :=
    height_le_branch _ _ _ nodeA.skips.rooted pindex highest known member
  have spaced : ((pindex :: rest).map a.nHeight).IsChain (Spaced (a.nHeight pindex)) := located.spaced
  have root : 0 ∈ (pindex :: rest).map a.nHeight := located.root
  rw [List.map_cons] at spaced root
  obtain ⟨first, found, below, close⟩ := first_close (a.nHeight pindex) (a.nHeight highest)
    (rest.map a.nHeight) (a.nHeight pindex) (Nat.le_refl _) low spaced root
  rw [← List.map_cons, List.find?_map, Option.map_eq_some_iff] at found
  obtain ⟨fork, found, height⟩ := found
  have entry : fork ∈ a.branch pindex := located.ancestors fork (List.mem_of_find?_eq_some found)
  have both : ∀ hash ∈ pindex :: rest,
      decide (b.blockMap.Known hash ∧ b.blockMap.contains b.vChain hash = true) =
        ((fun h => decide (h ≤ a.nHeight highest)) ∘ a.nHeight) hash := by
    intro hash inList
    have iff := active hash (located.ancestors hash inList)
    rw [Function.comp_apply, decide_eq_decide, nodeB.contains_iff, ← iff]
    exact ⟨fun held => held.2, fun held => ⟨nodeB.active_known hash held, held⟩⟩
  refine ⟨pindex :: rest, fork, by rw [chain]; exact made, ?_, ?_, entry, ?_, ?_⟩
  · exact located.few
  · rw [find_fork_first, List.find?_congr both, found]
    rfl
  · rw [active fork entry, height]
    exact below
  · intro common inBranch held
    have under := (active common inBranch).mp held
    omega

end Gap

end RoiCoin
