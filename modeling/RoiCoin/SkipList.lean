import RoiCoin.BlockTree
import RoiCoin.Lib.Ancestors

/-! Walks through the block index by parent and skip pointers (`chain.cpp`).

An entry is known by its hash, the key under which `mapBlockIndex` owns it. Every function gives
nothing where the source reads through a null pointer or outside a vector. -/

namespace RoiCoin

open Branches

/-- The pointers and the height of a `CBlockIndex`. -/
structure BlockNode where
  pprev : Option Uint256
  pskip : Option Uint256
  nHeight : Nat
  deriving DecidableEq, Repr

/-- `mapBlockIndex` -/
structure BlockMap where
  known : List Uint256
  node : Uint256 → BlockNode

/-- `vChain` of a `CChain`; a slot may be null. -/
abbrev CChain := List (Option Uint256)

namespace BlockMap

section Fields

variable (m : BlockMap) (pindex : Uint256)

def pprev : Option Uint256 := (m.node pindex).pprev
def pskip : Option Uint256 := (m.node pindex).pskip
def nHeight : Nat := (m.node pindex).nHeight

/-- An entry with all of its ancestors, down to the first block. -/
def branch : List Uint256 := Branches.branch m.pprev m.nHeight pindex

def set (node : BlockNode) : BlockMap := { m with node := Function.update m.node pindex node }

end Fields

/-- The loop of `GetAncestor`; each turn lowers `heightWalk`, so that more turns than it counts are
never needed. -/
def ancestorLoop (m : BlockMap) (height : Nat) :
    Nat → Option Uint256 → Nat → Option (Option Uint256)
  | 0, _, _ => none
  | fuel + 1, pindexWalk, heightWalk =>
      if heightWalk > height then
        let heightSkip := getSkipHeight heightWalk
        let heightSkipPrev := getSkipHeight (heightWalk - 1)
        if heightSkip = height ∨ (heightSkip > height ∧
            ¬ (heightSkipPrev + 2 < heightSkip ∧ heightSkipPrev ≥ height)) then
          -- only follow `pskip` if `pprev->pskip` is not better than `pskip->pprev`
          pindexWalk.bind fun pindex => m.ancestorLoop height fuel (m.pskip pindex) heightSkip
        else
          pindexWalk.bind fun pindex => m.ancestorLoop height fuel (m.pprev pindex) (heightWalk - 1)
      else some pindexWalk

def getAncestor (m : BlockMap) (pindex : Uint256) (height : Int) : Option (Option Uint256) :=
  if height > m.nHeight pindex ∨ height < 0 then some none
  else m.ancestorLoop height.toNat (m.nHeight pindex + 1) (some pindex) (m.nHeight pindex)

def buildSkip (m : BlockMap) (pindex : Uint256) : Option BlockMap :=
  match m.pprev pindex with
  | none => some m
  | some pprev =>
      (m.getAncestor pprev (getSkipHeight (m.nHeight pindex))).map fun pskip =>
        m.set pindex { m.node pindex with pskip }

/-- A new `CBlockIndex` under its hash. -/
def insert (m : BlockMap) (hash : Uint256) : BlockMap where
  known := hash :: m.known
  node := Function.update m.node hash ⟨none, none, 0⟩

/-- `find(hash) != end()` -/
def Known (m : BlockMap) (hash : Uint256) : Prop := hash ∈ m.known

instance (m : BlockMap) (hash : Uint256) : Decidable (m.Known hash) :=
  decidable_of_iff (m.known.contains hash = true) List.contains_iff_mem

/-- The entry is inserted before its parent is looked up. -/
def addToBlockIndex (m : BlockMap) (hash hashPrevBlock : Uint256) : Option BlockMap :=
  if m.Known hash then some m
  else
    let m := m.insert hash
    if m.Known hashPrevBlock then
      (m.set hash ⟨some hashPrevBlock, none, m.nHeight hashPrevBlock + 1⟩).buildSkip hash
    else some m

end BlockMap

/-! ## Chains of entries -/

namespace CChain

def height (vChain : CChain) : Int := vChain.length - 1

/-- `operator[]` -/
def entryAt (vChain : CChain) (nHeight : Int) : Option Uint256 :=
  if nHeight < 0 ∨ nHeight ≥ vChain.length then none else vChain.getD nHeight.toNat none

def genesis (vChain : CChain) : Option Uint256 :=
  if vChain.length > 0 then vChain.getD 0 none else none

def tip (vChain : CChain) : Option Uint256 :=
  if vChain.length > 0 then vChain.getD (vChain.length - 1) none else none

/-- `vChain.resize(size)` -/
def resize (vChain : CChain) (size : Nat) : CChain :=
  vChain.take size ++ List.replicate (size - vChain.length) none

end CChain

namespace BlockMap

def contains (m : BlockMap) (vChain : CChain) (pindex : Uint256) : Bool :=
  vChain.entryAt (m.nHeight pindex) == some pindex

/-- The loop of `SetTip`. -/
def setTipLoop (m : BlockMap) : Nat → CChain → Option Uint256 → Option CChain
  | _, vChain, none => some vChain
  | 0, _, some _ => none
  | fuel + 1, vChain, some pindex =>
      vChain[m.nHeight pindex]?.bind fun slot =>
        if slot ≠ some pindex then
          m.setTipLoop fuel (vChain.set (m.nHeight pindex) (some pindex)) (m.pprev pindex)
        else some vChain

def setTip (m : BlockMap) (vChain : CChain) : Option Uint256 → Option CChain
  | none => some []
  | some pindex =>
      m.setTipLoop (m.nHeight pindex + 1) (vChain.resize (m.nHeight pindex + 1)) (some pindex)

/-- The loop of `GetLocator`. The step is last doubled on the way to the first block, so that it
need not be bounded. -/
def locatorLoop (m : BlockMap) (vChain : CChain) :
    Nat → Nat → List Uint256 → Option Uint256 → Option (List Uint256)
  | _, _, vHave, none => some vHave
  | 0, _, _, some _ => none
  | fuel + 1, nStep, vHave, some pindex =>
      let vHave := vHave ++ [pindex]
      if m.nHeight pindex = 0 then some vHave
      else
        let nHeight := m.nHeight pindex - nStep
        let next :=
          if m.contains vChain pindex then some (vChain.entryAt nHeight)
          else m.getAncestor pindex nHeight
        next.bind fun pindex =>
          m.locatorLoop vChain fuel (if vHave.length > 10 then nStep * 2 else nStep) vHave pindex

def getLocator (m : BlockMap) (vChain : CChain) (pindex : Option Uint256) :
    Option (List Uint256) :=
  let pindex := if pindex = none then vChain.tip else pindex
  m.locatorLoop vChain (pindex.elim 0 fun pindex => m.nHeight pindex + 1) 1 [] pindex

/-- The loop of `FindFork`. -/
def forkLoop (m : BlockMap) (vChain : CChain) : Nat → Option Uint256 → Option (Option Uint256)
  | _, none => some none
  | 0, some _ => none
  | fuel + 1, some pindex =>
      if m.contains vChain pindex then some (some pindex)
      else m.forkLoop vChain fuel (m.pprev pindex)

def findFork (m : BlockMap) (vChain : CChain) (pindex : Uint256) : Option (Option Uint256) :=
  let start :=
    if m.nHeight pindex > vChain.height then m.getAncestor pindex vChain.height
    else some (some pindex)
  start.bind (m.forkLoop vChain (m.nHeight pindex + 1))

/-- The loop of `LastCommonAncestor` with the assertion after it. -/
def commonLoop (m : BlockMap) : Nat → Option Uint256 → Option Uint256 → Option (Option Uint256)
  | 0, _, _ => none
  | fuel + 1, pa, pb =>
      if pa = pb then some pa
      else
        pa.bind fun pa => pb.bind fun pb => m.commonLoop fuel (m.pprev pa) (m.pprev pb)

def lastCommonAncestor (m : BlockMap) (pa pb : Uint256) : Option (Option Uint256) :=
  if m.nHeight pa > m.nHeight pb then
    (m.getAncestor pa (m.nHeight pb)).bind fun pa => m.commonLoop (m.nHeight pb + 2) pa (some pb)
  else if m.nHeight pb > m.nHeight pa then
    (m.getAncestor pb (m.nHeight pa)).bind fun pb => m.commonLoop (m.nHeight pa + 2) (some pa) pb
  else m.commonLoop (m.nHeight pa + 2) (some pa) (some pb)

/-- The first block of the locator that the chain has; the genesis block where it has none. -/
def findForkInGlobalIndex (m : BlockMap) (vChain : CChain) : List Uint256 → Option Uint256
  | [] => vChain.genesis
  | hash :: vHave =>
      if m.Known hash ∧ m.contains vChain hash = true then some hash
      else m.findForkInGlobalIndex vChain vHave

end BlockMap

/-! ## Ancestors -/

theorem invertLowestOne_le (n : Nat) : invertLowestOne n ≤ n - 1 := Nat.and_le_right

theorem getSkipHeight_lt (height : Nat) (positive : 0 < height) : getSkipHeight height < height := by
  have once := invertLowestOne_le (height - 1)
  have twice := invertLowestOne_le (invertLowestOne (height - 1))
  have even := invertLowestOne_le height
  simp only [getSkipHeight]
  split
  · exact positive
  · split
    · omega
    · omega

/-- Entries `S` that form a tree whose skip pointers lead to the ancestor at the skip height. -/
structure BlockMap.Skips (m : BlockMap) (S : Uint256 → Prop) : Prop where
  rooted : Rooted m.pprev m.nHeight S
  single : ∀ a b, S a → S b → m.pprev a = none → m.pprev b = none → a = b
  skips : ∀ p q, S p → m.pprev p = some q → ∃ t ∈ m.branch q, m.pskip p = some t ∧
    m.nHeight t = getSkipHeight (m.nHeight p)

namespace BlockMap

variable {m : BlockMap} {S : Uint256 → Prop}

/-- The walk never overshoots: whatever pointer a turn follows, the ancestor sought is still below
it. -/
theorem ancestorLoop_exact (skips : m.Skips S) (height : Nat) (fuel : Nat) (pindex : Uint256)
    (known : S pindex) (low : height ≤ m.nHeight pindex) (enough : m.nHeight pindex < fuel) :
    ∃ a ∈ m.branch pindex, m.ancestorLoop height fuel (some pindex) (m.nHeight pindex) =
      some (some a) ∧ m.nHeight a = height := by
  induction fuel generalizing pindex with
  | zero => omega
  | succ fuel ih =>
      by_cases above : m.nHeight pindex > height
      · obtain ⟨q, link, inside, next⟩ :=
          exists_parent _ _ _ skips.rooted pindex known (by omega)
        have parent : q ∈ m.branch pindex :=
          (mem_branch _ _ _ skips.rooted pindex q known).mpr
            (.inr ⟨q, link, mem_branch_self _ _ _ skips.rooted q inside⟩)
        obtain ⟨t, under, skip, place⟩ := skips.skips pindex q known link
        have jump : t ∈ m.branch pindex :=
          mem_branch_trans _ _ _ skips.rooted pindex q t known parent under
        have shorter := getSkipHeight_lt (m.nHeight pindex) (by omega)
        rw [ancestorLoop, if_pos above]
        dsimp only
        split
        · rename_i better
          have reaches : height ≤ getSkipHeight (m.nHeight pindex) := by omega
          obtain ⟨a, member, found, here⟩ :=
            ih t (mem_branch_node _ _ _ skips.rooted pindex known t jump) (by omega) (by omega)
          rw [place] at found
          refine ⟨a, mem_branch_trans _ _ _ skips.rooted pindex t a known jump member, ?_, here⟩
          rw [Option.bind_some, skip, found]
        · obtain ⟨a, member, found, here⟩ := ih q inside (by omega) (by omega)
          refine ⟨a, mem_branch_trans _ _ _ skips.rooted pindex q a known parent member, ?_, here⟩
          have lower : m.nHeight pindex - 1 = m.nHeight q := by omega
          rw [Option.bind_some, link, lower, found]
      · refine ⟨pindex, mem_branch_self _ _ _ skips.rooted pindex known, ?_, by omega⟩
        rw [ancestorLoop, if_neg above]

theorem getAncestor_exact (skips : m.Skips S) (pindex : Uint256) (known : S pindex)
    (height : Nat) (low : height ≤ m.nHeight pindex) :
    ∃ a ∈ m.branch pindex, m.getAncestor pindex height = some (some a) ∧ m.nHeight a = height := by
  obtain ⟨a, member, found, here⟩ :=
    ancestorLoop_exact skips height (m.nHeight pindex + 1) pindex known low (by omega)
  refine ⟨a, member, ?_, here⟩
  rw [getAncestor, if_neg (by omega), Int.toNat_natCast, found]

/-! ## Insertion -/

/-- Entries that are left alone keep their branches and their skip pointers. -/
theorem branch_agree {m' : BlockMap} (skips : m.Skips S)
    (same : ∀ p, S p → m'.node p = m.node p) (p : Uint256) (known : S p) :
    m'.branch p = m.branch p := by
  refine branch_congr _ _ S m'.pprev m'.nHeight skips.rooted ?_ ?_ p known
  · intro a inside
    rw [pprev, pprev, same a inside]
  · intro a inside
    rw [nHeight, nHeight, same a inside]

theorem Skips.agree {m' : BlockMap} (skips : m.Skips S)
    (same : ∀ p, S p → m'.node p = m.node p) : m'.Skips S := by
  have links : ∀ p, S p → m'.pprev p = m.pprev p := by
    intro p inside
    rw [pprev, pprev, same p inside]
  have heights : ∀ p, S p → m'.nHeight p = m.nHeight p := by
    intro p inside
    rw [nHeight, nHeight, same p inside]
  refine ⟨⟨?_, ?_, ?_⟩, ?_, ?_⟩
  · intro a b inside link
    rw [links a inside] at link
    exact skips.rooted.closed a b inside link
  · intro a b inside link
    rw [links a inside] at link
    rw [heights a inside, heights b (skips.rooted.closed a b inside link)]
    exact skips.rooted.above a b inside link
  · intro a inside link
    rw [links a inside] at link
    rw [heights a inside]
    exact skips.rooted.root a inside link
  · intro a b first second rootA rootB
    rw [links a first] at rootA
    rw [links b second] at rootB
    exact skips.single a b first second rootA rootB
  · intro p q inside link
    rw [links p inside] at link
    have parent := skips.rooted.closed p q inside link
    obtain ⟨t, member, skip, place⟩ := skips.skips p q inside link
    have low := mem_branch_node _ _ _ skips.rooted q parent t member
    refine ⟨t, ?_, ?_, ?_⟩
    · rw [branch_agree skips same q parent]
      exact member
    · rw [pskip, same p inside]
      exact skip
    · rw [heights t low, heights p inside]
      exact place

/-- A new entry whose skip pointer leads to the right ancestor of its parent. -/
theorem Skips.extend (skips : m.Skips S) (hash q t : Uint256) (new : ¬ S hash) (parent : S q)
    (link : m.pprev hash = some q) (above : m.nHeight hash = m.nHeight q + 1)
    (member : t ∈ m.branch q) (skip : m.pskip hash = some t)
    (place : m.nHeight t = getSkipHeight (m.nHeight hash)) :
    m.Skips fun p => p = hash ∨ S p := by
  refine ⟨⟨?_, ?_, ?_⟩, ?_, ?_⟩
  · rintro a b (rfl | inside) below
    · rw [link, Option.some.injEq] at below
      rw [← below]
      exact .inr parent
    · exact .inr (skips.rooted.closed a b inside below)
  · rintro a b (rfl | inside) below
    · rw [link, Option.some.injEq] at below
      rw [← below, above]
    · exact skips.rooted.above a b inside below
  · rintro a (rfl | inside) root
    · rw [link] at root
      cases root
    · exact skips.rooted.root a inside root
  · rintro a b (rfl | first) (rfl | second) rootA rootB
    · rfl
    · rw [link] at rootA
      cases rootA
    · rw [link] at rootB
      cases rootB
    · exact skips.single a b first second rootA rootB
  · rintro a b (rfl | inside) below
    · rw [link, Option.some.injEq] at below
      rw [← below]
      exact ⟨t, member, skip, place⟩
    · exact skips.skips a b inside below

theorem Skips.alone (hash : Uint256) (only : ∀ p, S p → p = hash) (root : m.pprev hash = none)
    (zero : m.nHeight hash = 0) : m.Skips S := by
  have rootOf : ∀ p, S p → m.pprev p = none := by
    intro p inside
    rw [only p inside, root]
  refine ⟨⟨?_, ?_, ?_⟩, ?_, ?_⟩
  · intro a b inside link
    rw [rootOf a inside] at link
    cases link
  · intro a b inside link
    rw [rootOf a inside] at link
    cases link
  · intro a inside link
    rw [only a inside, zero]
  · intro a b first second rootA rootB
    exact (only a first).trans (only b second).symm
  · intro a b inside link
    rw [rootOf a inside] at link
    cases link

/-- What `AcceptBlockHeader` makes sure of before it inserts an entry. -/
def Admits (m : BlockMap) (hash hashPrevBlock : Uint256) : Prop :=
  (m.known = [] ∧ hashPrevBlock ≠ hash) ∨ hashPrevBlock ∈ m.known

theorem node_set (m : BlockMap) (pindex p : Uint256) (node : BlockNode) :
    (m.set pindex node).node p = if p = pindex then node else m.node p := by
  simp [set, Function.update_apply]

theorem node_insert (m : BlockMap) (hash p : Uint256) :
    (m.insert hash).node p = if p = hash then ⟨none, none, 0⟩ else m.node p := by
  simp [insert, Function.update_apply]

/-- An insertion succeeds, leaves the other entries alone and keeps the tree. -/
theorem addToBlockIndex_skips (skips : m.Skips fun p => p ∈ m.known) (hash hashPrevBlock : Uint256)
    (admits : m.Admits hash hashPrevBlock) :
    ∃ m', m.addToBlockIndex hash hashPrevBlock = some m' ∧ (m'.Skips fun p => p ∈ m'.known) ∧
      (∀ p ∈ m.known, p ∈ m'.known ∧ m'.node p = m.node p) := by
  by_cases old : m.Known hash
  · refine ⟨m, ?_, skips, fun p inside => ⟨inside, rfl⟩⟩
    rw [addToBlockIndex, if_pos old]
  · have other : ∀ p ∈ m.known, p ≠ hash := fun p inside same => old (same ▸ inside)
    rw [addToBlockIndex, if_neg old]
    dsimp only
    rcases admits with ⟨empty, differs⟩ | parent
    · have absent : ¬ (m.insert hash).Known hashPrevBlock := by
        simp [Known, insert, empty, differs]
      rw [if_neg absent]
      refine ⟨m.insert hash, rfl, ?_, fun p inside => ?_⟩
      · apply Skips.alone hash
        · simp [insert, empty]
        · rw [pprev, node_insert, if_pos rfl]
        · rw [nHeight, node_insert, if_pos rfl]
      · rw [empty] at inside
        cases inside
    · have present : (m.insert hash).Known hashPrevBlock := List.mem_cons_of_mem _ parent
      rw [if_pos present]
      generalize linked : (m.insert hash).set hash
        ⟨some hashPrevBlock, none, (m.insert hash).nHeight hashPrevBlock + 1⟩ = m₁
      have unchanged : ∀ p ∈ m.known, m₁.node p = m.node p := by
        intro p inside
        rw [← linked, node_set, if_neg (other p inside), node_insert, if_neg (other p inside)]
      have here : m₁.node hash = ⟨some hashPrevBlock, none, m.nHeight hashPrevBlock + 1⟩ := by
        rw [← linked, node_set, if_pos rfl, nHeight, node_insert, if_neg (other _ parent), nHeight]
      have link : m₁.pprev hash = some hashPrevBlock := by rw [pprev, here]
      have above : m₁.nHeight hash = m₁.nHeight hashPrevBlock + 1 := by
        rw [nHeight, here, nHeight, nHeight, unchanged _ parent]
      have skips₁ := skips.agree unchanged
      have shorter := getSkipHeight_lt (m₁.nHeight hash) (by omega)
      obtain ⟨t, member, found, place⟩ :=
        getAncestor_exact skips₁ hashPrevBlock parent (getSkipHeight (m₁.nHeight hash)) (by omega)
      rw [buildSkip, link]
      dsimp only
      rw [found]
      refine ⟨m₁.set hash { m₁.node hash with pskip := some t }, rfl, ?_, ?_⟩
      · have entries : (fun p => p ∈ (m₁.set hash { m₁.node hash with pskip := some t }).known) =
            fun p => p = hash ∨ p ∈ m.known := by
          funext p
          rw [← linked]
          simp [set, insert]
        have kept : ∀ p ∈ m.known,
            (m₁.set hash { m₁.node hash with pskip := some t }).node p = m₁.node p := by
          intro p inside
          rw [node_set, if_neg (other p inside)]
        have built : (m₁.set hash { m₁.node hash with pskip := some t }).node hash =
            { m₁.node hash with pskip := some t } := by
          rw [node_set, if_pos rfl]
        rw [entries]
        refine (skips₁.agree kept).extend hash hashPrevBlock t old parent ?_ ?_ ?_ ?_ ?_
        · rw [pprev, built]
          exact link
        · rw [nHeight, nHeight, built, kept _ parent]
          exact above
        · rw [branch_agree skips₁ kept hashPrevBlock parent]
          exact member
        · rw [pskip, built]
        · have low := mem_branch_node _ _ _ skips₁.rooted hashPrevBlock parent t member
          rw [nHeight, nHeight, built, kept t low]
          exact place
      · intro p inside
        refine ⟨?_, ?_⟩
        · rw [← linked]
          exact List.mem_cons_of_mem _ inside
        · rw [node_set, if_neg (other p inside), unchanged p inside]

end BlockMap

end RoiCoin
