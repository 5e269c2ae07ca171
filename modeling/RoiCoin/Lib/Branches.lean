import Mathlib.Data.List.Basic

/-! Branches of a forest given by parent links.

Nodes have heights one above their parents', which makes every walk along the links end. -/

namespace Branches

universe u

variable {ι : Type u}

/-- At most `fuel` nodes, from a node along its parents. -/
def walk (parent : ι → Option ι) : Nat → ι → List ι
  | 0, _ => []
  | fuel + 1, a => a :: (parent a).elim [] (walk parent fuel)

/-- A node, its parent, and so on to the root. -/
def branch (parent : ι → Option ι) (height : ι → Nat) (a : ι) : List ι :=
  walk parent (height a + 1) a

/-- The nodes `S` have their parents among them, and the heights count the links. -/
structure Rooted (parent : ι → Option ι) (height : ι → Nat) (S : ι → Prop) : Prop where
  closed : ∀ a b, S a → parent a = some b → S b
  above : ∀ a b, S a → parent a = some b → height a = height b + 1
  root : ∀ a, S a → parent a = none → height a = 0

/-- A walk does not leave nodes that have their parents among them. -/
theorem mem_walk_closed (parent : ι → Option ι) (S : ι → Prop)
    (closed : ∀ a b, S a → parent a = some b → S b) (fuel : Nat) (a : ι) (node : S a) :
    ∀ b ∈ walk parent fuel a, S b := by
  induction fuel generalizing a with
  | zero =>
      intro b member
      cases member
  | succ fuel ih =>
      rw [walk, List.forall_mem_cons]
      refine ⟨node, ?_⟩
      intro b member
      cases link : parent a with
      | none =>
          rw [link] at member
          cases member
      | some c =>
          rw [link] at member
          exact ih c (closed a c node link) b member

section Forest

variable (parent : ι → Option ι) (height : ι → Nat) (S : ι → Prop)
  (rooted : Rooted parent height S)
include rooted

/-- Induction from the root up. -/
theorem rooted_induction (P : ι → Prop)
    (step : ∀ a, S a → (∀ b, parent a = some b → S b → P b) → P a) (a : ι) (node : S a) : P a := by
  generalize level : height a = n
  induction n using Nat.strongRecOn generalizing a with
  | ind n ih =>
      apply step a node
      intro b link inside
      have above := rooted.above a b node link
      exact ih (height b) (by omega) b inside rfl

theorem branch_eq (a : ι) (node : S a) :
    branch parent height a = a :: (parent a).elim [] (branch parent height) := by
  rw [branch, walk]
  cases link : parent a with
  | none => rfl
  | some b =>
      have above := rooted.above a b node link
      rw [Option.elim_some, Option.elim_some, branch, above]

theorem mem_branch (a b : ι) (node : S a) :
    b ∈ branch parent height a ↔ b = a ∨ ∃ c, parent a = some c ∧ b ∈ branch parent height c := by
  rw [branch_eq parent height S rooted a node, List.mem_cons]
  cases parent a with
  | none => simp
  | some c => simp

theorem mem_branch_self (a : ι) (node : S a) : a ∈ branch parent height a :=
  (mem_branch parent height S rooted a a node).mpr (.inl rfl)

theorem mem_branch_node (a : ι) (node : S a) : ∀ b ∈ branch parent height a, S b := by
  revert node a
  apply rooted_induction parent height S rooted
  intro a node ih b member
  rcases (mem_branch parent height S rooted a b node).mp member with rfl | ⟨c, link, below⟩
  · exact node
  · exact ih c link (rooted.closed a c node link) b below

/-- The branch of an ancestor is the end of the branch. -/
theorem branch_suffix (a : ι) (node : S a) :
    ∀ b ∈ branch parent height a, branch parent height b <:+ branch parent height a := by
  revert node a
  apply rooted_induction parent height S rooted
  intro a node ih b member
  rcases (mem_branch parent height S rooted a b node).mp member with rfl | ⟨c, link, below⟩
  · exact List.suffix_rfl
  · have short := ih c link (rooted.closed a c node link) b below
    rw [branch_eq parent height S rooted a node, link]
    exact short.trans (List.suffix_cons a _)

theorem mem_branch_trans (a b c : ι) (node : S a) (upper : b ∈ branch parent height a)
    (lower : c ∈ branch parent height b) : c ∈ branch parent height a :=
  (branch_suffix parent height S rooted a node b upper).subset lower

/-- An ancestor is lower, or the node itself. -/
theorem height_branch (a : ι) (node : S a) :
    ∀ b ∈ branch parent height a, b = a ∨ height b < height a := by
  revert node a
  apply rooted_induction parent height S rooted
  intro a node ih b member
  rcases (mem_branch parent height S rooted a b node).mp member with rfl | ⟨c, link, below⟩
  · exact .inl rfl
  · have above := rooted.above a c node link
    rcases ih c link (rooted.closed a c node link) b below with rfl | lower
    · exact .inr (by omega)
    · exact .inr (by omega)

theorem branch_antisymm (a b : ι) (node : S a) (lower : b ∈ branch parent height a)
    (upper : a ∈ branch parent height b) : a = b := by
  have inside := mem_branch_node parent height S rooted a node b lower
  rcases height_branch parent height S rooted a node b lower with same | below
  · exact same.symm
  · rcases height_branch parent height S rooted b inside a upper with same | above
    · exact same
    · omega

/-- A node is in the first part of a branch, or at or below a node that ends that part. -/
theorem mem_takeWhile_branch (keep : ι → Bool) (a x : ι) (node : S a)
    (member : x ∈ branch parent height a) : x ∈ (branch parent height a).takeWhile keep ∨
      ∃ b ∈ branch parent height a, keep b = false ∧ x ∈ branch parent height b := by
  revert member node a
  apply rooted_induction parent height S rooted
  intro a node ih member
  cases stop : keep a with
  | false =>
      exact .inr ⟨a, mem_branch_self parent height S rooted a node, stop, member⟩
  | true =>
      rcases (mem_branch parent height S rooted a x node).mp member with rfl | ⟨c, link, below⟩
      · left
        rw [branch_eq parent height S rooted x node, List.takeWhile_cons_of_pos stop]
        exact List.mem_cons_self
      · rw [branch_eq parent height S rooted a node, List.takeWhile_cons_of_pos stop, link]
        rcases ih c link (rooted.closed a c node link) below with first | ⟨b, above, ends, later⟩
        · exact .inl (List.mem_cons_of_mem _ first)
        · exact .inr ⟨b, List.mem_cons_of_mem _ above, ends, later⟩

/-- What stands before a node on a branch is above it. -/
theorem branch_split (a b x : ι) (node : S a) (first rest : List ι)
    (split : branch parent height a = first ++ b :: rest) (member : x ∈ first) :
    b ∈ branch parent height x := by
  revert split member node first
  apply rooted_induction parent height S rooted (fun a => ∀ first,
    branch parent height a = first ++ b :: rest → x ∈ first → b ∈ branch parent height x) _ a
  intro a node ih first split member
  cases first with
  | nil => cases member
  | cons top first =>
      have whole := split
      rw [branch_eq parent height S rooted a node, List.cons_append, List.cons.injEq] at split
      obtain ⟨rfl, below⟩ := split
      rcases List.mem_cons.mp member with rfl | later
      · rw [whole]
        exact List.mem_append_right _ List.mem_cons_self
      · cases link : parent a with
        | none =>
            rw [link, Option.elim_none] at below
            rw [List.nil_eq_append_iff] at below
            cases below.2
        | some c =>
            rw [link, Option.elim_some] at below
            exact ih c link (rooted.closed a c node link) first below later

omit rooted in
/-- Links and heights that agree on the nodes give the same branches. -/
theorem branch_congr (parent' : ι → Option ι) (height' : ι → Nat)
    (rooted : Rooted parent height S) (links : ∀ a, S a → parent' a = parent a)
    (heights : ∀ a, S a → height' a = height a) (a : ι) (node : S a) :
    branch parent' height' a = branch parent height a := by
  have rooted' : Rooted parent' height' S := by
    refine ⟨?_, ?_, ?_⟩
    · intro b c inside link
      rw [links b inside] at link
      exact rooted.closed b c inside link
    · intro b c inside link
      rw [links b inside] at link
      rw [heights b inside, heights c (rooted.closed b c inside link)]
      exact rooted.above b c inside link
    · intro b inside link
      rw [links b inside] at link
      rw [heights b inside]
      exact rooted.root b inside link
  revert node a
  apply rooted_induction parent height S rooted
  intro a node ih
  rw [branch_eq parent height S rooted a node, branch_eq parent' height' S rooted' a node,
    links a node]
  cases link : parent a with
  | none => rfl
  | some b =>
      rw [Option.elim_some, Option.elim_some, ih b link (rooted.closed a b node link)]

end Forest

end Branches
