import RoiCoin.Lib.Branches

/-! Ancestors at a height, and common ancestors of two nodes of a forest. -/

namespace Branches

universe u

variable {ι : Type u} (parent : ι → Option ι) (height : ι → Nat) (S : ι → Prop)

/-- A node that has both nodes above it, and no such node is higher. -/
structure HighestCommon (a b c : ι) : Prop where
  first : c ∈ branch parent height a
  second : c ∈ branch parent height b
  highest : ∀ d ∈ branch parent height a, d ∈ branch parent height b → height d ≤ height c

/-- Ancestors of a node at consecutive heights, the first one just above the height given. -/
def Climbs (a : ι) : Nat → List ι → Prop
  | _, [] => True
  | h, b :: rest => b ∈ branch parent height a ∧ height b = h + 1 ∧ Climbs a (h + 1) rest

theorem climbs_append (a : ι) (h : Nat) (first second : List ι) :
    Climbs parent height a h (first ++ second) ↔
      Climbs parent height a h first ∧ Climbs parent height a (h + first.length) second := by
  induction first generalizing h with
  | nil => simp [Climbs]
  | cons b rest ih =>
      have place : h + 1 + rest.length = h + (b :: rest).length := by
        rw [List.length_cons]
        omega
      rw [List.cons_append, Climbs, Climbs, ih, place, and_assoc, and_assoc]

section Forest

variable (rooted : Rooted parent height S)
include rooted

theorem height_le_branch (a b : ι) (node : S a) (member : b ∈ branch parent height a) :
    height b ≤ height a := by
  rcases height_branch parent height S rooted a node b member with rfl | lower
  · exact Nat.le_refl _
  · omega

theorem height_zero_iff (a : ι) (node : S a) : height a = 0 ↔ parent a = none := by
  constructor
  · intro zero
    cases link : parent a with
    | none => rfl
    | some b =>
        have above := rooted.above a b node link
        omega
  · exact rooted.root a node

theorem exists_parent (a : ι) (node : S a) (positive : 0 < height a) :
    ∃ b, parent a = some b ∧ S b ∧ height a = height b + 1 := by
  cases link : parent a with
  | none =>
      have zero := rooted.root a node link
      omega
  | some b => exact ⟨b, rfl, rooted.closed a b node link, rooted.above a b node link⟩

theorem branch_parent (a b : ι) (node : S a) (link : parent a = some b) :
    branch parent height a = a :: branch parent height b := by
  rw [branch_eq parent height S rooted a node, link, Option.elim_some]

/-- There is an ancestor at every height up to a node's own. -/
theorem exists_at_height (a : ι) (node : S a) (h : Nat) (low : h ≤ height a) :
    ∃ b ∈ branch parent height a, height b = h := by
  revert low node a
  apply rooted_induction parent height S rooted
  intro a node ih low
  by_cases here : height a = h
  · exact ⟨a, mem_branch_self parent height S rooted a node, here⟩
  · obtain ⟨b, link, inside, above⟩ := exists_parent parent height S rooted a node (by omega)
    obtain ⟨c, member, found⟩ := ih b link inside (by omega)
    exact ⟨c, (mem_branch parent height S rooted a c node).mpr (.inr ⟨b, link, member⟩), found⟩

/-- Two ancestors of a node lie on one branch. -/
theorem branch_comparable (a b c : ι) (node : S a) (first : b ∈ branch parent height a)
    (second : c ∈ branch parent height a) (lower : height c ≤ height b) :
    c ∈ branch parent height b := by
  revert first second node a
  apply rooted_induction parent height S rooted
  intro a node ih first second
  rcases (mem_branch parent height S rooted a b node).mp first with rfl | ⟨d, link, below⟩
  · exact second
  · have inside := rooted.closed a d node link
    have under := height_le_branch parent height S rooted d b inside below
    have above := rooted.above a d node link
    rcases (mem_branch parent height S rooted a c node).mp second with rfl | ⟨e, link', below'⟩
    · omega
    · rw [link, Option.some.injEq] at link'
      rw [← link'] at below'
      exact ih d link inside below below'

theorem at_height_unique (a b c : ι) (node : S a) (first : b ∈ branch parent height a)
    (second : c ∈ branch parent height a) (same : height b = height c) : b = c := by
  have below := branch_comparable parent height S rooted a b c node first second (by omega)
  have inside := mem_branch_node parent height S rooted a node b first
  rcases height_branch parent height S rooted b inside c below with rfl | lower
  · rfl
  · omega

theorem length_branch (a : ι) (node : S a) :
    (branch parent height a).length = height a + 1 := by
  revert node a
  apply rooted_induction parent height S rooted
  intro a node ih
  rw [branch_eq parent height S rooted a node]
  cases link : parent a with
  | none => simp [rooted.root a node link]
  | some b =>
      have above := rooted.above a b node link
      simp [ih b link (rooted.closed a b node link), above]

/-- Counted from the root, a branch has its nodes at their heights. -/
theorem branch_reverse_at (a b : ι) (node : S a) (member : b ∈ branch parent height a) :
    (branch parent height a).reverse[height b]? = some b := by
  revert member node a
  apply rooted_induction parent height S rooted
  intro a node ih member
  have size := length_branch parent height S rooted a node
  rcases (mem_branch parent height S rooted a b node).mp member with rfl | ⟨c, link, below⟩
  · rw [branch_eq parent height S rooted b node] at size ⊢
    rw [List.length_cons, Nat.add_right_cancel_iff] at size
    simp [size]
  · have inside := rooted.closed a c node link
    have low := height_le_branch parent height S rooted c b inside below
    have shorter := length_branch parent height S rooted c inside
    rw [branch_parent parent height S rooted a c node link, List.reverse_cons,
      List.getElem?_append_left (by simp; omega)]
    exact ih c link inside below

/-- Where one node is an ancestor of the other, it is their highest common ancestor. -/
theorem highest_common_self (a b : ι) (node : S b) (member : a ∈ branch parent height b) :
    HighestCommon parent height a b a := by
  have inside := mem_branch_node parent height S rooted b node a member
  exact ⟨mem_branch_self parent height S rooted a inside, member,
    fun d below _ => height_le_branch parent height S rooted a d inside below⟩

/-- The common ancestors of a node's ancestor and of a node that is not higher are those of the
nodes. -/
theorem highest_common_ancestor (a a' b c : ι) (node : S a) (nodeB : S b)
    (member : a' ∈ branch parent height a) (low : height b ≤ height a')
    (common : HighestCommon parent height a' b c) : HighestCommon parent height a b c := by
  have inside := mem_branch_node parent height S rooted a node a' member
  refine ⟨mem_branch_trans parent height S rooted a a' c node member common.first,
    common.second, ?_⟩
  intro d first second
  have under := height_le_branch parent height S rooted b d nodeB second
  have below := branch_comparable parent height S rooted a a' d node member first (by omega)
  exact common.highest d below second

theorem highest_common_step (a b a' b' c : ι) (nodeA : S a) (nodeB : S b)
    (linkA : parent a = some a') (linkB : parent b = some b') (same : height a = height b)
    (differ : a ≠ b) (common : HighestCommon parent height a' b' c) :
    HighestCommon parent height a b c := by
  refine ⟨(mem_branch parent height S rooted a c nodeA).mpr (.inr ⟨a', linkA, common.first⟩),
    (mem_branch parent height S rooted b c nodeB).mpr (.inr ⟨b', linkB, common.second⟩), ?_⟩
  intro d first second
  have aboveA := rooted.above a a' nodeA linkA
  have aboveB := rooted.above b b' nodeB linkB
  rcases (mem_branch parent height S rooted a d nodeA).mp first with rfl | ⟨e, link, below⟩
  · rcases height_branch parent height S rooted b nodeB d second with rfl | lower
    · exact absurd rfl differ
    · omega
  · rcases (mem_branch parent height S rooted b d nodeB).mp second with rfl | ⟨e', link', below'⟩
    · rcases height_branch parent height S rooted a nodeA d first with rfl | lower
      · exact absurd rfl differ
      · omega
    · rw [linkA, Option.some.injEq] at link
      rw [linkB, Option.some.injEq] at link'
      rw [← link] at below
      rw [← link'] at below'
      exact common.highest d below below'

end Forest

theorem HighestCommon.symm {a b c : ι} (common : HighestCommon parent height a b c) :
    HighestCommon parent height b a c :=
  ⟨common.second, common.first, fun d second first => common.highest d first second⟩

end Branches
