import RoiCoin.SkipList
import RoiCoin.Validation.AcceptBlock

/-! The active chain as a vector of entries, and where other entries fork off it. -/

namespace RoiCoin

open Branches

namespace BlockMap

variable {m : BlockMap} {S : Uint256 → Prop}

/-- The ancestors of a tip, each at its height. -/
def chainTo (m : BlockMap) (tip : Option Uint256) : CChain := (tip.elim [] m.branch).reverse.map some

theorem length_chainTo (skips : m.Skips S) (tip : Uint256) (known : S tip) :
    (m.chainTo (some tip)).length = m.nHeight tip + 1 := by
  have size := length_branch _ _ _ skips.rooted tip known
  simpa [chainTo, branch] using size

theorem chainTo_at (skips : m.Skips S) (tip a : Uint256) (known : S tip) (member : a ∈ m.branch tip) :
    (m.chainTo (some tip))[m.nHeight a]? = some (some a) := by
  rw [chainTo, Option.elim_some, List.getElem?_map, branch,
    branch_reverse_at _ _ _ skips.rooted tip a known member]
  rfl

theorem entryAt_chainTo (skips : m.Skips S) (tip a : Uint256) (known : S tip)
    (member : a ∈ m.branch tip) : (m.chainTo (some tip)).entryAt (m.nHeight a) = some a := by
  have size := length_chainTo skips tip known
  have low := height_le_branch _ _ _ skips.rooted tip a known member
  have found := chainTo_at skips tip a known member
  rw [CChain.entryAt, if_neg (by omega), Int.toNat_natCast, List.getD_eq_getElem?_getD, found]
  rfl

/-- `Contains` finds exactly the ancestors of the tip. -/
theorem contains_chainTo (skips : m.Skips S) (tip p : Uint256) (known : S tip) :
    m.contains (m.chainTo (some tip)) p = true ↔ p ∈ m.branch tip := by
  rw [contains, beq_iff_eq]
  constructor
  · intro found
    by_cases low : m.nHeight p ≤ m.nHeight tip
    · obtain ⟨b, member, place⟩ := exists_at_height _ _ _ skips.rooted tip known _ low
      have there := entryAt_chainTo skips tip b known member
      rw [place, found, Option.some.injEq] at there
      rw [there]
      exact member
    · have size := length_chainTo skips tip known
      rw [CChain.entryAt, if_pos (by omega)] at found
      cases found
  · intro member
    exact entryAt_chainTo skips tip p known member

theorem chainTo_tip (skips : m.Skips S) (tip : Uint256) (known : S tip) :
    (m.chainTo (some tip)).tip = some tip := by
  have size := length_chainTo skips tip known
  have self := mem_branch_self _ _ _ skips.rooted tip known
  have found := chainTo_at skips tip tip known self
  rw [CChain.tip, if_pos (by omega), size, Nat.add_sub_cancel, List.getD_eq_getElem?_getD, found]
  rfl

/-! ## `SetTip` -/

theorem resize_at (vChain : CChain) (size i : Nat) (inside : i < size) :
    (vChain.resize size)[i]? = if i < vChain.length then vChain[i]? else some none := by
  rw [CChain.resize]
  by_cases old : i < vChain.length
  · rw [if_pos old, List.getElem?_append_left (by simp; omega), List.getElem?_take_of_lt inside]
  · rw [if_neg old, List.getElem?_append_right (by simp; omega), List.getElem?_replicate, if_pos]
    simp
    omega

theorem length_resize (vChain : CChain) (size : Nat) : (vChain.resize size).length = size := by
  simp [CChain.resize]
  omega

/-- Below the entry that the loop has reached the vector is as before. Where an entry stands there
at its height, all of its ancestors do, so that the loop may stop. -/
theorem setTipLoop_exact (skips : m.Skips S) (tip : Uint256) (known : S tip) (fuel : Nat)
    (pindex : Uint256) (member : pindex ∈ m.branch tip) (vChain : CChain)
    (size : vChain.length = m.nHeight tip + 1)
    (above : ∀ a ∈ m.branch tip, m.nHeight pindex < m.nHeight a →
      vChain[m.nHeight a]? = some (some a))
    (closed : ∀ b ∈ m.branch tip, m.nHeight b ≤ m.nHeight pindex →
      vChain[m.nHeight b]? = some (some b) → ∀ c ∈ m.branch b,
        vChain[m.nHeight c]? = some (some c))
    (enough : m.nHeight pindex < fuel) :
    ∃ vChain', m.setTipLoop fuel vChain (some pindex) = some vChain' ∧
      vChain'.length = m.nHeight tip + 1 ∧
      ∀ a ∈ m.branch tip, vChain'[m.nHeight a]? = some (some a) := by
  induction fuel generalizing pindex vChain with
  | zero => omega
  | succ fuel ih =>
      have node := mem_branch_node _ _ _ skips.rooted tip known pindex member
      have low := height_le_branch _ _ _ skips.rooted tip pindex known member
      have slot : vChain[m.nHeight pindex]? = some vChain[m.nHeight pindex] :=
        List.getElem?_eq_getElem (by omega)
      rw [setTipLoop, slot, Option.bind_some]
      by_cases stops : vChain[m.nHeight pindex] = some pindex
      · rw [if_neg (not_not.mpr stops)]
        refine ⟨vChain, rfl, size, ?_⟩
        intro a inside
        by_cases higher : m.nHeight pindex < m.nHeight a
        · exact above a inside higher
        · rw [stops] at slot
          exact closed pindex member (Nat.le_refl _) slot a
            (branch_comparable _ _ _ skips.rooted tip pindex a known member inside (by omega))
      · rw [if_pos stops]
        have placed : (vChain.set (m.nHeight pindex) (some pindex))[m.nHeight pindex]? =
            some (some pindex) := by
          rw [List.getElem?_set_self (by omega)]
        have elsewhere : ∀ i, i ≠ m.nHeight pindex →
            (vChain.set (m.nHeight pindex) (some pindex))[i]? = vChain[i]? := by
          intro i differs
          rw [List.getElem?_set_ne (Ne.symm differs)]
        have above' : ∀ a ∈ m.branch tip, m.nHeight pindex ≤ m.nHeight a →
            (vChain.set (m.nHeight pindex) (some pindex))[m.nHeight a]? = some (some a) := by
          intro a inside higher
          by_cases same : m.nHeight a = m.nHeight pindex
          · have equal := at_height_unique _ _ _ skips.rooted tip a pindex known inside member same
            rw [equal]
            exact placed
          · rw [elsewhere _ same]
            exact above a inside (by omega)
        cases link : m.pprev pindex with
        | none =>
            have zero := skips.rooted.root pindex node link
            refine ⟨vChain.set (m.nHeight pindex) (some pindex), ?_, ?_, ?_⟩
            · cases fuel with
              | zero => rfl
              | succ fuel => rfl
            · rw [List.length_set, size]
            · intro a inside
              have zero' : m.nHeight pindex = 0 := zero
              exact above' a inside (by omega)
        | some q =>
            have next : m.nHeight pindex = m.nHeight q + 1 :=
              skips.rooted.above pindex q node link
            have parent : q ∈ m.branch tip :=
              mem_branch_trans _ _ _ skips.rooted tip pindex q known member
                ((mem_branch _ _ _ skips.rooted pindex q node).mpr
                  (.inr ⟨q, link, mem_branch_self _ _ _ skips.rooted q
                    (skips.rooted.closed pindex q node link)⟩))
            apply ih q parent
            · rw [List.length_set, size]
            · intro a inside higher
              exact above' a inside (by omega)
            · intro b inside lower there c below
              have nodeB := mem_branch_node _ _ _ skips.rooted tip known b inside
              have under : m.nHeight c ≤ m.nHeight b :=
                height_le_branch _ _ _ skips.rooted b c nodeB below
              rw [elsewhere _ (by omega)] at there ⊢
              exact closed b inside (by omega) there c below
            · omega

/-- `SetTip` makes the chain exactly the ancestors of the tip, whatever the tip was before. -/
theorem setTip_exact (skips : m.Skips S) (old new : Option Uint256) (knownOld : ∀ t ∈ old, S t)
    (knownNew : ∀ t ∈ new, S t) : m.setTip (m.chainTo old) new = some (m.chainTo new) := by
  cases new with
  | none => rfl
  | some tip =>
      have known := knownNew tip rfl
      have self := mem_branch_self _ _ _ skips.rooted tip known
      have closed : ∀ b ∈ m.branch tip, m.nHeight b ≤ m.nHeight tip →
          ((m.chainTo old).resize (m.nHeight tip + 1))[m.nHeight b]? = some (some b) →
          ∀ c ∈ m.branch b,
            ((m.chainTo old).resize (m.nHeight tip + 1))[m.nHeight c]? = some (some c) := by
        intro b inside low there c below
        have nodeB := mem_branch_node _ _ _ skips.rooted tip known b inside
        have under : m.nHeight c ≤ m.nHeight b :=
          height_le_branch _ _ _ skips.rooted b c nodeB below
        rw [resize_at _ _ _ (by omega)] at there ⊢
        by_cases covered : m.nHeight b < (m.chainTo old).length
        · rw [if_pos covered] at there
          rw [if_pos (by omega)]
          cases old with
          | none => simp [chainTo] at covered
          | some t =>
              have knownT := knownOld t rfl
              have contained : m.contains (m.chainTo (some t)) b = true := by
                rw [contains, CChain.entryAt, if_neg (by omega), Int.toNat_natCast,
                  List.getD_eq_getElem?_getD, there]
                simp
              rw [contains_chainTo skips t b knownT] at contained
              exact chainTo_at skips t c knownT
                (mem_branch_trans _ _ _ skips.rooted t b c knownT contained below)
        · rw [if_neg covered] at there
          cases there
      obtain ⟨vChain', done, size, entries⟩ :=
        setTipLoop_exact skips tip known (m.nHeight tip + 1) tip self
          ((m.chainTo old).resize (m.nHeight tip + 1)) (length_resize _ _)
          (fun a inside higher => by
            have low : m.nHeight a ≤ m.nHeight tip :=
              height_le_branch _ _ _ skips.rooted tip a known inside
            omega)
          closed (by omega)
      rw [setTip, done, Option.some.injEq]
      apply List.ext_getElem?
      intro i
      by_cases inside : i ≤ m.nHeight tip
      · obtain ⟨a, member, place⟩ := exists_at_height _ _ _ skips.rooted tip known i inside
        have place' : m.nHeight a = i := place
        rw [← place', entries a member, chainTo_at skips tip a known member]
      · rw [List.getElem?_eq_none (by omega), List.getElem?_eq_none]
        rw [length_chainTo skips tip known]
        omega

/-! ## `FindFork` and `LastCommonAncestor` -/

/-- Two entries of the tree meet at the first block at the latest. -/
theorem root_shared (skips : m.Skips S) (a b : Uint256) (nodeA : S a) (nodeB : S b)
    (zero : m.nHeight a = 0) : a ∈ m.branch b := by
  obtain ⟨r, member, root⟩ := exists_at_height _ _ _ skips.rooted b nodeB 0 (Nat.zero_le _)
  have nodeR := mem_branch_node _ _ _ skips.rooted b nodeB r member
  have rootA := (height_zero_iff _ _ _ skips.rooted a nodeA).mp zero
  have rootR := (height_zero_iff _ _ _ skips.rooted r nodeR).mp root
  rw [skips.single a r nodeA nodeR rootA rootR]
  exact member

theorem forkLoop_exact (skips : m.Skips S) (tip : Uint256) (known : S tip) (fuel : Nat)
    (pindex : Uint256) (node : S pindex) (enough : m.nHeight pindex < fuel) :
    ∃ fork, m.forkLoop (m.chainTo (some tip)) fuel (some pindex) = some (some fork) ∧
      HighestCommon m.pprev m.nHeight pindex tip fork := by
  induction fuel generalizing pindex with
  | zero => omega
  | succ fuel ih =>
      rw [forkLoop]
      by_cases inside : pindex ∈ m.branch tip
      · rw [if_pos ((contains_chainTo skips tip pindex known).mpr inside)]
        exact ⟨pindex, rfl, highest_common_self _ _ _ skips.rooted pindex tip known inside⟩
      · rw [if_neg (mt (contains_chainTo skips tip pindex known).mp inside)]
        have positive : 0 < m.nHeight pindex := by
          by_contra zero
          exact inside (root_shared skips pindex tip node known (by omega))
        obtain ⟨q, link, parent, above⟩ :=
          exists_parent _ _ _ skips.rooted pindex node positive
        obtain ⟨fork, found, common⟩ := ih q parent (by omega)
        rw [link]
        refine ⟨fork, found, ?_, common.second, ?_⟩
        · exact (mem_branch _ _ _ skips.rooted pindex fork node).mpr
            (.inr ⟨q, link, common.first⟩)
        · intro d first second
          rcases (mem_branch _ _ _ skips.rooted pindex d node).mp first with rfl | ⟨e, link', below⟩
          · exact absurd second inside
          · rw [link, Option.some.injEq] at link'
            rw [← link'] at below
            exact common.highest d below second

/-- `FindFork` finds the highest common ancestor of the entry and the tip. -/
theorem findFork_exact (skips : m.Skips S) (tip : Uint256) (known : S tip) (pindex : Uint256)
    (node : S pindex) :
    ∃ fork, m.findFork (m.chainTo (some tip)) pindex = some (some fork) ∧
      HighestCommon m.pprev m.nHeight pindex tip fork := by
  have top : CChain.height (m.chainTo (some tip)) = m.nHeight tip := by
    rw [CChain.height, length_chainTo skips tip known]
    omega
  rw [findFork, top]
  by_cases higher : (m.nHeight pindex : Int) > m.nHeight tip
  · rw [if_pos higher]
    obtain ⟨a, member, found, place⟩ :=
      getAncestor_exact skips pindex node (m.nHeight tip) (by omega)
    have inside := mem_branch_node _ _ _ skips.rooted pindex node a member
    obtain ⟨fork, done, common⟩ :=
      forkLoop_exact skips tip known (m.nHeight pindex + 1) a inside (by omega)
    rw [found, Option.bind_some, done]
    exact ⟨fork, rfl, highest_common_ancestor _ _ _ skips.rooted pindex a tip fork node known member
      (by simp only [place, Nat.le_refl]) common⟩
  · rw [if_neg higher, Option.bind_some]
    exact forkLoop_exact skips tip known (m.nHeight pindex + 1) pindex node (by omega)

theorem commonLoop_exact (skips : m.Skips S) (fuel : Nat) (pa pb : Uint256) (nodeA : S pa)
    (nodeB : S pb) (same : m.nHeight pa = m.nHeight pb) (enough : m.nHeight pa < fuel) :
    ∃ a, m.commonLoop fuel (some pa) (some pb) = some (some a) ∧
      HighestCommon m.pprev m.nHeight pa pb a := by
  induction fuel generalizing pa pb with
  | zero => omega
  | succ fuel ih =>
      rw [commonLoop]
      by_cases equal : pa = pb
      · rw [if_pos (congrArg some equal), equal]
        exact ⟨pb, rfl, highest_common_self _ _ _ skips.rooted pb pb nodeB
          (mem_branch_self _ _ _ skips.rooted pb nodeB)⟩
      · have differ : ¬ some pa = some pb := fun eq => equal (Option.some.inj eq)
        rw [if_neg differ]
        have positive : 0 < m.nHeight pa := by
          by_contra zero
          have under := root_shared skips pa pb nodeA nodeB (by omega)
          have self := mem_branch_self _ _ _ skips.rooted pb nodeB
          exact equal (at_height_unique _ _ _ skips.rooted pb pa pb nodeB under self same)
        obtain ⟨qa, linkA, parentA, aboveA⟩ := exists_parent _ _ _ skips.rooted pa nodeA positive
        obtain ⟨qb, linkB, parentB, aboveB⟩ :=
          exists_parent _ _ _ skips.rooted pb nodeB (by rw [← same]; exact positive)
        obtain ⟨a, found, common⟩ := ih qa qb parentA parentB (by omega) (by omega)
        rw [Option.bind_some, Option.bind_some, linkA, linkB]
        exact ⟨a, found, highest_common_step _ _ _ skips.rooted pa pb qa qb a nodeA nodeB linkA linkB
          same equal common⟩

/-- `LastCommonAncestor` passes its assertion and finds the highest common ancestor. -/
theorem lastCommonAncestor_exact (skips : m.Skips S) (pa pb : Uint256) (nodeA : S pa)
    (nodeB : S pb) : ∃ a, m.lastCommonAncestor pa pb = some (some a) ∧
      HighestCommon m.pprev m.nHeight pa pb a := by
  rw [lastCommonAncestor]
  by_cases higher : m.nHeight pa > m.nHeight pb
  · obtain ⟨pa', member, found, place⟩ :=
      getAncestor_exact skips pa nodeA (m.nHeight pb) (by omega)
    have inside := mem_branch_node _ _ _ skips.rooted pa nodeA pa' member
    obtain ⟨a, done, common⟩ :=
      commonLoop_exact skips (m.nHeight pb + 2) pa' pb inside nodeB place (by omega)
    rw [if_pos higher, found, Option.bind_some]
    exact ⟨a, done, highest_common_ancestor _ _ _ skips.rooted pa pa' pb a nodeA nodeB member
      (by simp only [place, Nat.le_refl]) common⟩
  · rw [if_neg higher]
    by_cases lower : m.nHeight pb > m.nHeight pa
    · obtain ⟨pb', member, found, place⟩ :=
        getAncestor_exact skips pb nodeB (m.nHeight pa) (by omega)
      have inside := mem_branch_node _ _ _ skips.rooted pb nodeB pb' member
      obtain ⟨a, done, common⟩ :=
        commonLoop_exact skips (m.nHeight pa + 2) pa pb' nodeA inside place.symm (by omega)
      rw [if_pos lower, found, Option.bind_some]
      exact ⟨a, done, (highest_common_ancestor _ _ _ skips.rooted pb pb' pa a nodeB nodeA member
        (by simp only [place, Nat.le_refl]) common.symm).symm⟩
    · rw [if_neg lower]
      exact commonLoop_exact skips (m.nHeight pa + 2) pa pb nodeA nodeB (by omega) (by omega)

/-! ## Locators -/

/-- The locator goes on with the entry and ancestors of it, the first block last. -/
theorem locatorLoop_exact (skips : m.Skips S) (tip : Uint256) (known : S tip) (fuel nStep : Nat)
    (step : 0 < nStep) (vHave : List Uint256) (pindex : Uint256) (node : S pindex)
    (enough : m.nHeight pindex < fuel) :
    ∃ rest, m.locatorLoop (m.chainTo (some tip)) fuel nStep vHave (some pindex) =
        some (vHave ++ pindex :: rest) ∧ (∀ a ∈ rest, a ∈ m.branch pindex) ∧
      ∃ a ∈ pindex :: rest, m.nHeight a = 0 := by
  induction fuel generalizing nStep vHave pindex with
  | zero => omega
  | succ fuel ih =>
      rw [locatorLoop]
      dsimp only
      by_cases zero : m.nHeight pindex = 0
      · rw [if_pos zero]
        exact ⟨[], rfl, by simp, pindex, by simp, zero⟩
      · rw [if_neg zero]
        obtain ⟨a, member, next, place⟩ : ∃ a ∈ m.branch pindex,
            (if m.contains (m.chainTo (some tip)) pindex = true then
              some ((m.chainTo (some tip)).entryAt (m.nHeight pindex - nStep : Nat))
            else m.getAncestor pindex (m.nHeight pindex - nStep : Nat)) = some (some a) ∧
            m.nHeight a = m.nHeight pindex - nStep := by
          by_cases active : m.contains (m.chainTo (some tip)) pindex = true
          · obtain ⟨a, member, place⟩ := exists_at_height _ _ _ skips.rooted pindex node
              (m.nHeight pindex - nStep) (Nat.sub_le _ _)
            have place' : m.nHeight a = m.nHeight pindex - nStep := place
            have upper := (contains_chainTo skips tip pindex known).mp active
            refine ⟨a, member, ?_, place⟩
            rw [if_pos active, ← place', entryAt_chainTo skips tip a known
              (mem_branch_trans _ _ _ skips.rooted tip pindex a known upper member)]
          · obtain ⟨a, member, found, place⟩ := getAncestor_exact skips pindex node
              (m.nHeight pindex - nStep) (Nat.sub_le _ _)
            exact ⟨a, member, by rw [if_neg active, found], place⟩
        have inside := mem_branch_node _ _ _ skips.rooted pindex node a member
        have grows : 0 < if (vHave ++ [pindex]).length > 10 then nStep * 2 else nStep := by
          split <;> omega
        obtain ⟨rest, done, below, last⟩ := ih _ grows (vHave ++ [pindex]) a inside (by omega)
        rw [next, Option.bind_some, done]
        refine ⟨a :: rest, by simp, ?_, ?_⟩
        · intro b inList
          rcases List.mem_cons.mp inList with rfl | later
          · exact member
          · exact mem_branch_trans _ _ _ skips.rooted pindex a b node member (below b later)
        · obtain ⟨b, inList, root⟩ := last
          exact ⟨b, List.mem_cons_of_mem _ inList, root⟩

/-- The first block of a locator that the chain has. -/
theorem findForkInGlobalIndex_exact (skips : m.Skips fun p => p ∈ m.known) (tip : Uint256)
    (known : tip ∈ m.known) (vHave : List Uint256) (nodes : ∀ a ∈ vHave, a ∈ m.known)
    (root : ∃ a ∈ vHave, m.nHeight a = 0) :
    ∃ fork ∈ vHave, m.findForkInGlobalIndex (m.chainTo (some tip)) vHave = some fork ∧
      fork ∈ m.branch tip := by
  induction vHave with
  | nil =>
      obtain ⟨a, inList, zero⟩ := root
      cases inList
  | cons hash vHave ih =>
      have node := nodes hash List.mem_cons_self
      rw [findForkInGlobalIndex]
      by_cases inside : hash ∈ m.branch tip
      · rw [if_pos ⟨node, (contains_chainTo skips tip hash known).mpr inside⟩]
        exact ⟨hash, List.mem_cons_self, rfl, inside⟩
      · rw [if_neg fun both => inside ((contains_chainTo skips tip hash known).mp both.2)]
        obtain ⟨a, inList, zero⟩ := root
        rcases List.mem_cons.mp inList with rfl | later
        · exact absurd (root_shared skips a tip node known zero) inside
        · obtain ⟨fork, member, found, below⟩ :=
            ih (fun b inside => nodes b (List.mem_cons_of_mem _ inside)) ⟨a, later, zero⟩
          exact ⟨fork, List.mem_cons_of_mem _ member, found, below⟩

/-- The fork found through a locator is an ancestor in the chain; it is the entry where the chain has
it. -/
theorem locator_fork (skips : m.Skips fun p => p ∈ m.known) (tip : Uint256) (known : tip ∈ m.known)
    (pindex : Uint256) (node : pindex ∈ m.known) :
    ∃ vHave fork, m.getLocator (m.chainTo (some tip)) (some pindex) = some vHave ∧
      m.findForkInGlobalIndex (m.chainTo (some tip)) vHave = some fork ∧
      fork ∈ m.branch pindex ∧ fork ∈ m.branch tip ∧
      (pindex ∈ m.branch tip → fork = pindex) := by
  obtain ⟨rest, made, below, root⟩ := locatorLoop_exact skips tip known (m.nHeight pindex + 1) 1
    (by omega) [] pindex node (by omega)
  have members : ∀ a ∈ pindex :: rest, a ∈ m.branch pindex := by
    intro a inList
    rcases List.mem_cons.mp inList with rfl | later
    · exact mem_branch_self _ _ _ skips.rooted a node
    · exact below a later
  obtain ⟨fork, inList, found, shared⟩ := findForkInGlobalIndex_exact skips tip known
    (pindex :: rest)
    (fun a inside => mem_branch_node _ _ _ skips.rooted pindex node a (members a inside)) root
  refine ⟨pindex :: rest, fork, ?_, found, members fork inList, shared, ?_⟩
  · simpa [getLocator] using made
  · intro active
    rw [findForkInGlobalIndex,
      if_pos ⟨node, (contains_chainTo skips tip pindex known).mpr active⟩] at found
    exact (Option.some.inj found).symm

/-! ## Runs -/

/-- What insertions and changes of the tip lead to. -/
inductive Reached : BlockMap → CChain → Prop
  | start : Reached ⟨[], fun _ => ⟨none, none, 0⟩⟩ []
  | insert (m m' : BlockMap) (vChain : CChain) (hash hashPrevBlock : Uint256)
      (reached : Reached m vChain) (admits : m.Admits hash hashPrevBlock)
      (added : m.addToBlockIndex hash hashPrevBlock = some m') : Reached m' vChain
  | setTip (m : BlockMap) (vChain vChain' : CChain) (pindex : Option Uint256)
      (reached : Reached m vChain) (known : ∀ p ∈ pindex, p ∈ m.known)
      (set : m.setTip vChain pindex = some vChain') : Reached m vChain'

theorem Reached.invariant {vChain : CChain} (reached : Reached m vChain) :
    (m.Skips fun p => p ∈ m.known) ∧
      ∃ tip : Option Uint256, (∀ t ∈ tip, t ∈ m.known) ∧ vChain = m.chainTo tip := by
  induction reached with
  | start =>
      refine ⟨Skips.alone 0 ?_ rfl rfl, none, by simp, rfl⟩
      intro p inside
      cases inside
  | insert m m' vChain hash hashPrevBlock reached admits added ih =>
      obtain ⟨skips, tip, known, active⟩ := ih
      obtain ⟨m'', added', skips', kept⟩ := addToBlockIndex_skips skips hash hashPrevBlock admits
      rw [added, Option.some.injEq] at added'
      subst added'
      refine ⟨skips', tip, fun t inside => (kept t (known t inside)).1, ?_⟩
      rw [active]
      cases tip with
      | none => rfl
      | some t =>
          have same := branch_agree skips (fun p inside => (kept p inside).2) t (known t rfl)
          rw [chainTo, chainTo, Option.elim_some, Option.elim_some, same]
  | setTip m vChain vChain' pindex reached known set ih =>
      obtain ⟨skips, tip, knownTip, active⟩ := ih
      rw [active, setTip_exact skips tip pindex knownTip known, Option.some.injEq] at set
      exact ⟨skips, pindex, known, set.symm⟩

/-- In every tree that insertions build, the walks follow no null pointer and end at the ancestors
that the parent pointers lead to. -/
theorem skip_list_exact (m : BlockMap) (vChain : CChain) (reached : Reached m vChain) :
    (∀ hash hashPrevBlock, m.Admits hash hashPrevBlock →
      ∃ m', m.addToBlockIndex hash hashPrevBlock = some m') ∧
    (∀ pindex ∈ m.known, ∀ height : Nat, height ≤ m.nHeight pindex →
      ∃ a ∈ m.branch pindex, m.getAncestor pindex height = some (some a) ∧
        m.nHeight a = height) ∧
    (∀ tip : Option Uint256, (∀ t ∈ tip, t ∈ m.known) →
      m.setTip vChain tip = some (m.chainTo tip)) ∧
    (∀ tip, vChain.tip = some tip → ∀ pindex ∈ m.known,
      ∃ fork, m.findFork vChain pindex = some (some fork) ∧
        HighestCommon m.pprev m.nHeight pindex tip fork) ∧
    (∀ pa ∈ m.known, ∀ pb ∈ m.known, ∃ a, m.lastCommonAncestor pa pb = some (some a) ∧
      HighestCommon m.pprev m.nHeight pa pb a) ∧
    (∀ tip, vChain.tip = some tip → ∀ pindex ∈ m.known,
      ∃ vHave fork, m.getLocator vChain (some pindex) = some vHave ∧
        m.findForkInGlobalIndex vChain vHave = some fork ∧ fork ∈ m.branch pindex ∧
        m.contains vChain fork = true ∧ (m.contains vChain pindex = true → fork = pindex)) := by
  obtain ⟨skips, active, knownTip, rfl⟩ := reached.invariant
  have tipOf : ∀ tip, CChain.tip (m.chainTo active) = some tip → active = some tip := by
    intro tip at_tip
    cases active with
    | none => cases at_tip
    | some t =>
        rw [chainTo_tip skips t (knownTip t rfl)] at at_tip
        exact at_tip
  refine ⟨?_, ?_, ?_, ?_, ?_, ?_⟩
  · intro hash hashPrevBlock admits
    obtain ⟨m', added, kept⟩ := addToBlockIndex_skips skips hash hashPrevBlock admits
    exact ⟨m', added⟩
  · intro pindex known height low
    exact getAncestor_exact skips pindex known height low
  · intro tip known
    exact setTip_exact skips active tip knownTip known
  · intro tip at_tip pindex known
    have same := tipOf tip at_tip
    subst same
    exact findFork_exact skips tip (knownTip tip rfl) pindex known
  · intro pa knownA pb knownB
    exact lastCommonAncestor_exact skips pa pb knownA knownB
  · intro tip at_tip pindex known
    have same := tipOf tip at_tip
    subst same
    obtain ⟨vHave, fork, made, found, below, shared, equal⟩ :=
      locator_fork skips tip (knownTip tip rfl) pindex known
    refine ⟨vHave, fork, made, found, below, ?_, ?_⟩
    · exact (contains_chainTo skips tip fork (knownTip tip rfl)).mpr shared
    · intro inside
      exact equal ((contains_chainTo skips tip pindex (knownTip tip rfl)).mp inside)

def emptyMap : BlockMap := ⟨[], fun _ => ⟨none, none, 0⟩⟩

/-- A first block and its child. -/
def twoBlocks : BlockMap :=
  (((emptyMap.insert 1).insert 2).set 2 ⟨some 1, none, 1⟩).set 2 ⟨some 1, some 1, 1⟩

theorem twoBlocks_reached : Reached twoBlocks [some 1, some 2] := by
  have first : Reached (emptyMap.insert 1) [] :=
    .insert emptyMap _ [] 1 0 .start (.inl ⟨rfl, by decide⟩) rfl
  have second : Reached twoBlocks [] :=
    .insert _ _ [] 2 1 first (.inr List.mem_cons_self) rfl
  refine .setTip twoBlocks [] _ (some 2) second ?_ rfl
  intro p same
  cases same
  exact List.mem_cons_self

theorem skip_list_exact_two :
    ∃ a ∈ twoBlocks.branch 2, twoBlocks.getAncestor 2 (0 : Nat) = some (some a) ∧
      twoBlocks.nHeight a = 0 :=
  (skip_list_exact twoBlocks _ twoBlocks_reached).2.1 2 List.mem_cons_self 0 (Nat.zero_le _)

end BlockMap

/-! ## The block tree of the validation functions -/

namespace ChainState

/-- What the walks read of the block tree. -/
def blockMap (s : ChainState) : BlockMap where
  known := s.known
  node pindex := ⟨s.pprev pindex, s.pskip pindex, s.nHeight pindex⟩

variable {s : ChainState}

/-- The block tree's `getAncestor` is where the walk ends. -/
theorem getAncestor_walk (skips : s.blockMap.Skips fun p => p ∈ s.known) (pindex : Uint256)
    (known : pindex ∈ s.known) (height : Nat) (low : height ≤ s.nHeight pindex) :
    s.blockMap.getAncestor pindex height = some (s.getAncestor pindex height) := by
  obtain ⟨a, member, found, place⟩ :=
    BlockMap.getAncestor_exact skips pindex known height low
  have inside : ∃ b ∈ s.branch pindex, s.nHeight b = height := ⟨a, member, place⟩
  rw [found, getAncestor, if_neg (by omega)]
  cases first : (s.branch pindex).find? fun pindexWalk => s.nHeight pindexWalk = height with
  | none =>
      rw [List.find?_eq_none] at first
      have missed := first a member
      simp only [decide_eq_true_eq] at missed
      exact absurd place missed
  | some b =>
      have level : s.nHeight b = height := by simpa using List.find?_some first
      have same := at_height_unique _ _ _ skips.rooted pindex a b known member
        (List.mem_of_find?_eq_some first) (place.trans level.symm)
      rw [same]

/-- A new entry elsewhere does not change where a walk ends. -/
theorem getAncestor_agree {m m' : BlockMap} {S : Uint256 → Prop} (skips : m.Skips S)
    (same : ∀ p, S p → m'.node p = m.node p) (pindex : Uint256) (known : S pindex) (height : Nat)
    (low : height ≤ m.nHeight pindex) :
    m'.getAncestor pindex height = m.getAncestor pindex height := by
  have level : m'.nHeight pindex = m.nHeight pindex := by
    rw [BlockMap.nHeight, BlockMap.nHeight, same pindex known]
  obtain ⟨a, member, found, place⟩ := BlockMap.getAncestor_exact skips pindex known height low
  obtain ⟨a', member', found', place'⟩ :=
    BlockMap.getAncestor_exact (skips.agree same) pindex known height (by omega)
  rw [BlockMap.branch_agree skips same pindex known] at member'
  have inside := mem_branch_node _ _ _ skips.rooted pindex known a' member'
  rw [BlockMap.nHeight, same a' inside] at place'
  rw [found, found', at_height_unique _ _ _ skips.rooted pindex a a' known member member'
    (place.trans place'.symm)]

/-- Its `addToBlockIndex` is an insertion with the walk of `BuildSkip`. -/
theorem addToBlockIndex_walk (skips : s.blockMap.Skips fun p => p ∈ s.known) (block : OfferedBlock)
    (new : block.hash ∉ s.known) (admits : s.blockMap.Admits block.hash block.hashPrevBlock) :
    s.blockMap.addToBlockIndex block.hash block.hashPrevBlock =
      some (s.addToBlockIndex block).blockMap := by
  have absent : ¬ s.blockMap.Known block.hash := new
  rw [BlockMap.addToBlockIndex, if_neg absent]
  dsimp only
  rcases admits with ⟨empty, differs⟩ | parent
  · have none : s.known = [] := empty
    have absent : ¬ (s.blockMap.insert block.hash).Known block.hashPrevBlock := by
      simp [BlockMap.Known, BlockMap.insert, empty, differs]
    rw [if_neg absent, Option.some.injEq]
    simp only [blockMap, BlockMap.insert, addToBlockIndex, none, BlockMap.mk.injEq, true_and]
    funext p
    by_cases here : p = block.hash
    · simp [pprev, pskip, nHeight, here]
    · simp [pprev, pskip, nHeight, here]
  · have known : block.hashPrevBlock ∈ s.known := parent
    have present : (s.blockMap.insert block.hash).Known block.hashPrevBlock :=
      List.mem_cons_of_mem _ parent
    have other : ∀ p ∈ s.known, p ≠ block.hash := fun p inside same => new (same ▸ inside)
    have level : (s.blockMap.insert block.hash).nHeight block.hashPrevBlock =
        s.nHeight block.hashPrevBlock := by
      rw [BlockMap.nHeight, BlockMap.node_insert, if_neg (other _ known)]
      rfl
    rw [if_pos present, level]
    generalize linked : (s.blockMap.insert block.hash).set block.hash
      ⟨some block.hashPrevBlock, none, s.nHeight block.hashPrevBlock + 1⟩ = m₁
    have unchanged : ∀ p ∈ s.known, m₁.node p = s.blockMap.node p := by
      intro p inside
      rw [← linked, BlockMap.node_set, if_neg (other p inside), BlockMap.node_insert,
        if_neg (other p inside)]
    have here : m₁.node block.hash =
        ⟨some block.hashPrevBlock, none, s.nHeight block.hashPrevBlock + 1⟩ := by
      rw [← linked, BlockMap.node_set, if_pos rfl]
    have link : m₁.pprev block.hash = some block.hashPrevBlock := by rw [BlockMap.pprev, here]
    have above : m₁.nHeight block.hash = s.nHeight block.hashPrevBlock + 1 := by
      rw [BlockMap.nHeight, here]
    have shorter := getSkipHeight_lt (s.nHeight block.hashPrevBlock + 1) (by omega)
    have low : getSkipHeight (s.nHeight block.hashPrevBlock + 1) ≤ s.nHeight block.hashPrevBlock := by
      omega
    rw [BlockMap.buildSkip, link]
    dsimp only
    rw [above, getAncestor_agree skips unchanged block.hashPrevBlock known _ low,
      getAncestor_walk skips block.hashPrevBlock known _ low, Option.map_some, Option.some.injEq,
      here, ← linked]
    simp only [blockMap, BlockMap.insert, BlockMap.set, addToBlockIndex, BlockMap.mk.injEq,
      true_and, if_pos known]
    funext p
    by_cases at_hash : p = block.hash
    · simp [pprev, pskip, nHeight, at_hash]
    · simp [pprev, pskip, nHeight, at_hash]

end ChainState

end RoiCoin
