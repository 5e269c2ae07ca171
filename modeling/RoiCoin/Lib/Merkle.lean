import Mathlib.Algebra.Order.Ring.Int
import Mathlib.Data.List.Basic
import Mathlib.Data.List.Nodup
import Mathlib.Data.Nat.Bitwise
import Mathlib.Tactic.Common

/-! Hash trees whose odd levels repeat their last node, and what their root commits to. -/

namespace Merkle

universe u

variable {α : Type u}

/-- The neighbours of a level; the last node of an odd level is its own neighbour. -/
def pairs : List α → List (α × α)
  | [] => []
  | [a] => [(a, a)]
  | a :: b :: rest => (a, b) :: pairs rest

theorem pairs_length (nodes : List α) : (pairs nodes).length = (nodes.length + 1) / 2 := by
  fun_induction pairs nodes with
  | case1 => simp
  | case2 => simp
  | case3 a b rest ih =>
      rw [List.length_cons, List.length_cons, List.length_cons, ih]
      omega

theorem pairs_mem (nodes : List α) (pair : α × α) (member : pair ∈ pairs nodes) :
    pair.1 ∈ nodes ∧ pair.2 ∈ nodes := by
  fun_induction pairs nodes with
  | case1 => cases member
  | case2 a =>
      rw [List.mem_singleton] at member
      subst member
      exact ⟨List.mem_cons_self, List.mem_cons_self⟩
  | case3 a b rest ih =>
      rcases List.mem_cons.mp member with rfl | later
      · exact ⟨List.mem_cons_self, List.mem_cons_of_mem _ List.mem_cons_self⟩
      · have inside := ih later
        exact ⟨List.mem_cons_of_mem _ (List.mem_cons_of_mem _ inside.1),
          List.mem_cons_of_mem _ (List.mem_cons_of_mem _ inside.2)⟩

/-- The two last nodes of an even level are the same. -/
def twin [DecidableEq α] : List α → Bool
  | [] => false
  | [_] => false
  | [a, b] => a = b
  | _ :: _ :: c :: rest => twin (c :: rest)

/-- A list that pairs up like another list is that list, or ends with a repeated node. -/
theorem pairs_determine [DecidableEq α] (xs ys : List α) (same : pairs xs = pairs ys)
    (order : xs.length ≤ ys.length) : xs = ys ∨ twin ys = true := by
  fun_induction pairs xs generalizing ys with
  | case1 =>
      left
      match ys with
      | [] => rfl
      | [_] => cases same
      | _ :: _ :: _ => cases same
  | case2 a =>
      match ys with
      | [] => cases same
      | [b] =>
          left
          simp only [pairs, List.cons.injEq, Prod.mk.injEq, and_true] at same
          rw [same.1]
      | [b, c] =>
          right
          simp only [pairs, List.cons.injEq, Prod.mk.injEq, and_true] at same
          exact decide_eq_true (same.1.symm.trans same.2)
      | b :: c :: [d] => simp [pairs] at same
      | b :: c :: d :: e :: rest => simp [pairs] at same
  | case3 a b rest ih =>
      match ys with
      | [] => cases same
      | [c] =>
          simp only [List.length_cons, List.length_nil] at order
          omega
      | c :: d :: others =>
          simp only [pairs, List.cons.injEq, Prod.mk.injEq] at same
          obtain ⟨⟨rfl, rfl⟩, below⟩ := same
          have shorter : rest.length ≤ others.length := by
            simp only [List.length_cons] at order
            omega
          rcases ih others below shorter with rfl | repeated
          · exact .inl rfl
          · right
            cases others with
            | nil => cases repeated
            | cons e others => exact repeated

variable (hash : α → α → α)

def level (nodes : List α) : List α := (pairs nodes).map fun pair => hash pair.1 pair.2

@[simp] theorem level_length (nodes : List α) :
    (level hash nodes).length = (nodes.length + 1) / 2 := by
  rw [level, List.length_map, pairs_length]

/-- The root of the tree over `nodes`. -/
def root (nodes : List α) : Option α :=
  if nodes.length ≤ 1 then nodes.head? else root (level hash nodes)
termination_by nodes.length
decreasing_by
  rw [level_length]
  omega

/-- Some level of the tree ends with a repeated node. -/
def mutated [DecidableEq α] (nodes : List α) : Bool :=
  if nodes.length ≤ 1 then false else twin nodes || mutated (level hash nodes)
termination_by nodes.length
decreasing_by
  rw [level_length]
  omega

/-- Every pair that is hashed on the way to the root. -/
def hashed (nodes : List α) : List (α × α) :=
  if nodes.length ≤ 1 then [] else pairs nodes ++ hashed (level hash nodes)
termination_by nodes.length
decreasing_by
  rw [level_length]
  omega

theorem root_short (nodes : List α) (short : nodes.length ≤ 1) :
    root hash nodes = nodes.head? := by
  rw [root, if_pos short]

theorem root_level (nodes : List α) (long : 1 < nodes.length) :
    root hash nodes = root hash (level hash nodes) := by
  rw [root, if_neg (by omega)]

theorem mutated_short [DecidableEq α] (nodes : List α) (short : nodes.length ≤ 1) :
    mutated hash nodes = false := by
  rw [mutated, if_pos short]

theorem mutated_level [DecidableEq α] (nodes : List α) (long : 1 < nodes.length) :
    mutated hash nodes = (twin nodes || mutated hash (level hash nodes)) := by
  rw [mutated, if_neg (by omega)]

theorem hashed_short (nodes : List α) (short : nodes.length ≤ 1) : hashed hash nodes = [] := by
  rw [hashed, if_pos short]

theorem hashed_level (nodes : List α) (long : 1 < nodes.length) :
    hashed hash nodes = pairs nodes ++ hashed hash (level hash nodes) := by
  rw [hashed, if_neg (by omega)]

theorem root_exists (nodes : List α) (nonempty : nodes ≠ []) :
    ∃ node, root hash nodes = some node := by
  fun_induction root hash nodes with
  | case1 nodes short =>
      cases nodes with
      | nil => exact absurd rfl nonempty
      | cons node nodes => exact ⟨node, rfl⟩
  | case2 nodes long ih =>
      apply ih
      intro empty
      have size := level_length hash nodes
      rw [empty, List.length_nil] at size
      omega

/-- The root of a tree with more than one leaf is the hash of a pair. -/
theorem root_hashed (nodes : List α) (long : 1 < nodes.length) :
    ∃ pair ∈ hashed hash nodes, root hash nodes = some (hash pair.1 pair.2) := by
  fun_induction root hash nodes with
  | case1 nodes short => omega
  | case2 nodes _ ih =>
      rw [hashed_level hash nodes long]
      by_cases longer : 1 < (level hash nodes).length
      · obtain ⟨pair, member, found⟩ := ih longer
        exact ⟨pair, List.mem_append_right _ member, found⟩
      · have one : (pairs nodes).length = 1 := by
          rw [level_length] at longer
          rw [pairs_length]
          omega
        obtain ⟨pair, only⟩ := List.length_eq_one_iff.mp one
        refine ⟨pair, List.mem_append_left _ (only ▸ List.mem_singleton_self pair), ?_⟩
        rw [root_short hash _ (by omega), level, only]
        rfl

theorem level_mem (nodes : List α) (node : α) (member : node ∈ level hash nodes) :
    ∃ pair ∈ pairs nodes, hash pair.1 pair.2 = node := List.mem_map.mp member

/-- Above the leaves, what is hashed is a hash itself. -/
theorem hashed_above (nodes : List α) (long : 1 < nodes.length) (pair : α × α)
    (member : pair ∈ hashed hash (level hash nodes)) :
    ∃ below ∈ hashed hash nodes, hash below.1 below.2 = pair.1 := by
  induction size : nodes.length using Nat.strongRecOn generalizing nodes with
  | ind n ih =>
      subst size
      rw [hashed_level hash nodes long]
      by_cases longer : 1 < (level hash nodes).length
      · rw [hashed_level hash _ longer, List.mem_append] at member
        rcases member with here | above
        · obtain ⟨below, inside, value⟩ := level_mem hash nodes _ (pairs_mem _ pair here).1
          exact ⟨below, List.mem_append_left _ inside, value⟩
        · have shorter : (level hash nodes).length < nodes.length := by
            rw [level_length]
            omega
          obtain ⟨below, inside, value⟩ := ih _ shorter (level hash nodes) longer above rfl
          exact ⟨below, List.mem_append_right _ inside, value⟩
      · rw [hashed_short hash _ (by omega)] at member
        cases member

/-- The hash does not collide on what two trees hash, and no hash is one of their leaves. -/
structure Apart (xs ys : List α) : Prop where
  free : ∀ p ∈ hashed hash xs ++ hashed hash ys, ∀ q ∈ hashed hash xs ++ hashed hash ys,
    hash p.1 p.2 = hash q.1 q.2 → p = q
  fresh : ∀ p ∈ hashed hash xs ++ hashed hash ys, hash p.1 p.2 ∉ xs ++ ys

theorem Apart.symm {xs ys : List α} (apart : Apart hash xs ys) : Apart hash ys xs := by
  have inside : ∀ p ∈ hashed hash ys ++ hashed hash xs, p ∈ hashed hash xs ++ hashed hash ys := by
    intro p member
    exact List.mem_append.mpr (List.mem_append.mp member).symm
  constructor
  · intro p first q second
    exact apart.free p (inside p first) q (inside q second)
  · intro p member leaf
    exact apart.fresh p (inside p member) (List.mem_append.mpr (List.mem_append.mp leaf).symm)

theorem Apart.level {xs ys : List α} (apart : Apart hash xs ys) (long_x : 1 < xs.length)
    (long_y : 1 < ys.length) : Apart hash (Merkle.level hash xs) (Merkle.level hash ys) := by
  have inside : ∀ p ∈ hashed hash (Merkle.level hash xs) ++ hashed hash (Merkle.level hash ys),
      p ∈ hashed hash xs ++ hashed hash ys := by
    intro p member
    rw [hashed_level hash xs long_x, hashed_level hash ys long_y]
    rcases List.mem_append.mp member with left | right
    · exact List.mem_append_left _ (List.mem_append_right _ left)
    · exact List.mem_append_right _ (List.mem_append_right _ right)
  have above : ∀ p ∈ hashed hash (Merkle.level hash xs) ++ hashed hash (Merkle.level hash ys),
      ∃ below ∈ hashed hash xs ++ hashed hash ys, hash below.1 below.2 = p.1 := by
    intro p member
    rcases List.mem_append.mp member with left | right
    · obtain ⟨below, first, value⟩ := hashed_above hash xs long_x p left
      exact ⟨below, List.mem_append_left _ first, value⟩
    · obtain ⟨below, second, value⟩ := hashed_above hash ys long_y p right
      exact ⟨below, List.mem_append_right _ second, value⟩
  constructor
  · intro p first q second
    exact apart.free p (inside p first) q (inside q second)
  · intro p member leaf
    -- A node of the lower level that equals this hash is hashed from the same pair of leaves.
    have origin : ∃ q ∈ hashed hash xs ++ hashed hash ys,
        hash q.1 q.2 = hash p.1 p.2 ∧ q.1 ∈ xs ++ ys := by
      rw [hashed_level hash xs long_x, hashed_level hash ys long_y]
      rcases List.mem_append.mp leaf with left | right
      · obtain ⟨q, member_q, value⟩ := level_mem hash xs _ left
        exact ⟨q, List.mem_append_left _ (List.mem_append_left _ member_q), value,
          List.mem_append_left _ (pairs_mem xs q member_q).1⟩
      · obtain ⟨q, member_q, value⟩ := level_mem hash ys _ right
        exact ⟨q, List.mem_append_right _ (List.mem_append_left _ member_q), value,
          List.mem_append_right _ (pairs_mem ys q member_q).1⟩
    obtain ⟨q, member_q, value, leaf_q⟩ := origin
    have same := apart.free q member_q p (inside p member) value
    obtain ⟨below, member_below, hashed_below⟩ := above p member
    apply apart.fresh below member_below
    rwa [hashed_below, ← same]

theorem level_determines [DecidableEq α] (xs ys : List α)
    (free : ∀ p ∈ pairs xs, ∀ q ∈ pairs ys, hash p.1 p.2 = hash q.1 q.2 → p = q)
    (same : level hash xs = level hash ys) (order : xs.length ≤ ys.length) :
    xs = ys ∨ twin ys = true := by
  have equal : pairs xs = pairs ys := by
    have sizes : (pairs xs).length = (pairs ys).length := by
      have lengths := congrArg List.length same
      rwa [level_length, level_length, ← pairs_length, ← pairs_length] at lengths
    apply List.ext_getElem sizes
    intro i left right
    apply free _ (List.getElem_mem left) _ (List.getElem_mem right)
    have nodes : (level hash xs)[i]? = (level hash ys)[i]? := by rw [same]
    simpa only [level, List.getElem?_map, List.getElem?_eq_getElem left,
      List.getElem?_eq_getElem right, Option.map_some, Option.some.injEq] using nodes
  exact pairs_determine xs ys equal order

/-- Two leaf lists with one root are the same list, or the longer one repeats a node. -/
theorem root_commits [DecidableEq α] (xs ys : List α) (nonempty : xs ≠ [])
    (apart : Apart hash xs ys) (order : xs.length ≤ ys.length)
    (same : root hash xs = root hash ys) : xs = ys ∨ mutated hash ys = true := by
  induction size : xs.length using Nat.strongRecOn generalizing xs ys with
  | ind n ih =>
      subst size
      have positive : 0 < xs.length := List.length_pos_iff.mpr nonempty
      by_cases long_y : 1 < ys.length
      · by_cases long_x : 1 < xs.length
        · rw [root_level hash xs long_x, root_level hash ys long_y] at same
          have shorter : (level hash xs).length < xs.length := by
            rw [level_length]
            omega
          have order_above : (level hash xs).length ≤ (level hash ys).length := by
            rw [level_length, level_length]
            omega
          have nonempty_above : level hash xs ≠ [] := by
            intro empty
            have length := level_length hash xs
            rw [empty, List.length_nil] at length
            omega
          rw [mutated_level hash ys long_y, Bool.or_eq_true]
          rcases ih _ shorter (level hash xs) (level hash ys) nonempty_above
            (apart.level hash long_x long_y) order_above same rfl with equal | repeated
          · have free : ∀ p ∈ pairs xs, ∀ q ∈ pairs ys, hash p.1 p.2 = hash q.1 q.2 → p = q := by
              intro p member_p q member_q
              apply apart.free
              · rw [hashed_level hash xs long_x]
                exact List.mem_append_left _ (List.mem_append_left _ member_p)
              · rw [hashed_level hash ys long_y]
                exact List.mem_append_right _ (List.mem_append_left _ member_q)
            rcases level_determines hash xs ys free equal order with lists | repeated
            · exact .inl lists
            · exact .inr (.inl repeated)
          · exact .inr (.inr repeated)
        · -- A single leaf would be the hash of a pair.
          exfalso
          obtain ⟨leaf, only⟩ := List.length_eq_one_iff.mp (by omega : xs.length = 1)
          obtain ⟨pair, member, top⟩ := root_hashed hash ys long_y
          rw [root_short hash xs (by omega), top, only, List.head?_cons, Option.some.injEq] at same
          apply apart.fresh pair (List.mem_append_right _ member)
          rw [← same, only]
          exact List.mem_append_left _ List.mem_cons_self
      · left
        obtain ⟨x, only_x⟩ := List.length_eq_one_iff.mp (by omega : xs.length = 1)
        obtain ⟨y, only_y⟩ := List.length_eq_one_iff.mp (by omega : ys.length = 1)
        rw [root_short hash xs (by omega), root_short hash ys (by omega), only_x, only_y,
          List.head?_cons, List.head?_cons, Option.some.injEq] at same
        rw [only_x, only_y, same]

/-! ## Levels by height -/

/-- The level at a height; the leaves are at height zero. -/
def above : Nat → List α → List α
  | 0, nodes => nodes
  | height + 1, nodes => level hash (above height nodes)

theorem above_length (height : Nat) (nodes : List α) :
    (above hash height nodes).length = (nodes.length + 2 ^ height - 1) / 2 ^ height := by
  induction height with
  | zero =>
      rw [above, Nat.pow_zero, Nat.div_one]
      rfl
  | succ height ih =>
      have positive : 0 < 2 ^ height := Nat.two_pow_pos height
      rw [above, level_length, ih, Nat.pow_succ, ← Nat.div_div_eq_div_mul]
      have shifted : (nodes.length + 2 ^ height - 1) / 2 ^ height + 1 =
          (nodes.length + 2 ^ height * 2 - 1) / 2 ^ height := by
        rw [← Nat.add_div_right _ positive]
        congr 1
        omega
      rw [shifted]

/-- The neighbours of a level by position. -/
theorem pairs_getElem? (nodes : List α) (pos : Nat) (a : α) (here : nodes[pos * 2]? = some a) :
    (pairs nodes)[pos]? = some (a, (nodes[pos * 2 + 1]?).getD a) := by
  fun_induction pairs nodes generalizing pos with
  | case1 => cases here
  | case2 b =>
      cases pos with
      | zero =>
          cases here
          rfl
      | succ pos => simp [Nat.succ_mul] at here
  | case3 b c rest ih =>
      cases pos with
      | zero =>
          cases here
          rfl
      | succ pos =>
          rw [Nat.succ_mul] at here ⊢
          exact ih pos here

theorem level_getElem? (nodes : List α) (pos : Nat) (a : α) (here : nodes[pos * 2]? = some a) :
    (level hash nodes)[pos]? = some (hash a ((nodes[pos * 2 + 1]?).getD a)) := by
  rw [level, List.getElem?_map, pairs_getElem? nodes pos a here]
  rfl

/-- Going up while there is more than one node keeps the root. -/
theorem root_above (nodes : List α) (height : Nat)
    (long : ∀ lower < height, 1 < (above hash lower nodes).length) :
    root hash (above hash height nodes) = root hash nodes := by
  induction height with
  | zero => rfl
  | succ height ih =>
      rw [above, ← root_level hash _ (long height (Nat.lt_succ_self height))]
      exact ih fun lower small => long lower (Nat.lt_succ_of_lt small)

theorem hashed_above_sub (nodes : List α) (height : Nat)
    (long : ∀ lower < height, 1 < (above hash lower nodes).length) (pair : α × α)
    (member : pair ∈ hashed hash (above hash height nodes)) : pair ∈ hashed hash nodes := by
  induction height with
  | zero => exact member
  | succ height ih =>
      apply ih fun lower small => long lower (Nat.lt_succ_of_lt small)
      rw [hashed_level hash _ (long height (Nat.lt_succ_self height))]
      exact List.mem_append_right _ member

/-- The pairs of every level below the root are hashed. -/
theorem pairs_above_hashed (nodes : List α) (height : Nat)
    (long : ∀ lower ≤ height, 1 < (above hash lower nodes).length) (pair : α × α)
    (member : pair ∈ pairs (above hash height nodes)) : pair ∈ hashed hash nodes := by
  apply hashed_above_sub hash nodes height fun lower small => long lower (Nat.le_of_lt small)
  rw [hashed_level hash _ (long height (Nat.le_refl height))]
  exact List.mem_append_left _ member

theorem pairs_firsts (nodes : List α) : ((pairs nodes).map Prod.fst).Sublist nodes := by
  fun_induction pairs nodes with
  | case1 => exact List.Sublist.slnil
  | case2 a => exact List.Sublist.refl _
  | case3 a b rest ih => exact (ih.cons b).cons_cons a

/-- A hash without collisions keeps distinct leaves distinct on every level. -/
theorem above_nodup (nodes : List α) (height : Nat) (distinct : nodes.Nodup)
    (free : ∀ p ∈ hashed hash nodes, ∀ q ∈ hashed hash nodes,
      hash p.1 p.2 = hash q.1 q.2 → p = q)
    (long : ∀ lower < height, 1 < (above hash lower nodes).length) :
    (above hash height nodes).Nodup := by
  induction height with
  | zero => exact distinct
  | succ height ih =>
      have lower_nodup := ih fun lower small => long lower (Nat.lt_succ_of_lt small)
      have pairs_nodup : (pairs (above hash height nodes)).Nodup :=
        List.Nodup.of_map Prod.fst ((pairs_firsts _).nodup lower_nodup)
      apply List.Nodup.map_on _ pairs_nodup
      intro p member_p q member_q
      have inside := pairs_above_hashed hash nodes height
        fun lower small => long lower (Nat.lt_succ_of_le small)
      exact free p (inside p member_p) q (inside q member_q)

/-! ## Branches -/

/-- The neighbour of a position in a level. -/
def neighbour (size pos : Nat) : Nat := min (pos ^^^ 1) (size - 1)

theorem xor_one (pos : Nat) : pos ^^^ 1 = if pos % 2 = 1 then pos - 1 else pos + 1 := by
  have low : (pos ^^^ 1) % 2 = (pos + 1) % 2 := Nat.xor_mod_two_eq
  have high : (pos ^^^ 1) / 2 = pos / 2 := by
    rw [Nat.xor_div_two, Nat.div_eq_of_lt (Nat.lt_add_one 1), Nat.xor_zero]
  split_ifs <;> omega

theorem neighbour_lt (size pos : Nat) (inside : pos < size) : neighbour size pos < size := by
  rw [neighbour]
  omega

/-- A node and its neighbour are hashed together, the one with the even position first. -/
theorem level_neighbour (nodes : List α) (pos : Nat) (a b : α) (here : nodes[pos]? = some a)
    (beside : nodes[neighbour nodes.length pos]? = some b) :
    (level hash nodes)[pos / 2]? = some (if pos % 2 = 1 then hash b a else hash a b) := by
  have inside := (List.getElem?_eq_some_iff.mp here).1
  rw [neighbour, xor_one] at beside
  split_ifs with odd
  · have left : min (pos - 1) (nodes.length - 1) = pos / 2 * 2 := by omega
    have right : pos = pos / 2 * 2 + 1 := by omega
    rw [if_pos odd, left] at beside
    rw [level_getElem? hash nodes (pos / 2) b beside, ← right, here, Option.getD_some]
  · have left : pos / 2 * 2 = pos := by omega
    rw [if_neg odd] at beside
    have whole := level_getElem? hash nodes (pos / 2) a (by rw [left]; exact here)
    rw [left] at whole
    rw [whole]
    by_cases last : pos + 1 < nodes.length
    · have right : min (pos + 1) (nodes.length - 1) = pos + 1 := by omega
      rw [right] at beside
      rw [beside, Option.getD_some]
    · have right : min (pos + 1) (nodes.length - 1) = pos := by omega
      rw [right, here, Option.some.injEq] at beside
      rw [List.getElem?_eq_none (by omega), Option.getD_none, beside]

/-- The neighbours on the way from a position to the root. -/
def branch (nodes : List α) (pos : Nat) : List α :=
  if nodes.length ≤ 1 then []
  else (nodes[neighbour nodes.length pos]?).toList ++ branch (level hash nodes) (pos / 2)
termination_by nodes.length
decreasing_by
  rw [level_length]
  omega

/-- From a leaf up along a branch. -/
def climb : α → List α → Nat → α
  | node, [], _ => node
  | node, beside :: rest, pos =>
      climb (if pos % 2 = 1 then hash beside node else hash node beside) rest (pos / 2)

theorem branch_short (nodes : List α) (pos : Nat) (short : nodes.length ≤ 1) :
    branch hash nodes pos = [] := by
  rw [branch, if_pos short]

theorem branch_level (nodes : List α) (pos : Nat) (b : α) (long : 1 < nodes.length)
    (beside : nodes[neighbour nodes.length pos]? = some b) :
    branch hash nodes pos = b :: branch hash (level hash nodes) (pos / 2) := by
  rw [branch, if_neg (by omega), beside]
  rfl

/-- Climbing the branch of a leaf ends at the root. -/
theorem climb_branch (nodes : List α) (pos : Nat) (a : α) (here : nodes[pos]? = some a) :
    root hash nodes = some (climb hash a (branch hash nodes pos) pos) := by
  induction size : nodes.length using Nat.strongRecOn generalizing nodes pos a with
  | ind n ih =>
      subst size
      have inside := (List.getElem?_eq_some_iff.mp here).1
      by_cases long : 1 < nodes.length
      · obtain ⟨b, beside⟩ : ∃ b, nodes[neighbour nodes.length pos]? = some b :=
          ⟨_, List.getElem?_eq_getElem (neighbour_lt nodes.length pos inside)⟩
        have shorter : (level hash nodes).length < nodes.length := by
          rw [level_length]
          omega
        rw [root_level hash nodes long, branch_level hash nodes pos b long beside, climb]
        exact ih _ shorter _ _ _ (level_neighbour hash nodes pos a b here beside) rfl
      · have first : pos = 0 := by omega
        rw [first] at here
        rw [root_short hash nodes (by omega), branch_short hash nodes pos (by omega), climb,
          ← here, List.head?_eq_getElem?]

/-! ## All levels -/

/-- The levels one after the other, the leaves first. -/
def levels (nodes : List α) : List α :=
  if nodes.length ≤ 1 then nodes else nodes ++ levels (level hash nodes)
termination_by nodes.length
decreasing_by
  rw [level_length]
  omega

theorem levels_short (nodes : List α) (short : nodes.length ≤ 1) :
    levels hash nodes = nodes := by
  rw [levels, if_pos short]

theorem levels_level (nodes : List α) (long : 1 < nodes.length) :
    levels hash nodes = nodes ++ levels hash (level hash nodes) := by
  rw [levels, if_neg (by omega)]

theorem levels_nonempty (nodes : List α) (nonempty : nodes ≠ []) : levels hash nodes ≠ [] := by
  by_cases long : 1 < nodes.length
  · rw [levels_level hash nodes long]
    exact List.append_ne_nil_of_left_ne_nil nonempty _
  · rwa [levels_short hash nodes (by omega)]

/-- The root comes last. -/
theorem levels_last (nodes : List α) : (levels hash nodes).getLast? = root hash nodes := by
  fun_induction root hash nodes with
  | case1 nodes short =>
      rw [levels_short hash nodes short]
      match nodes, short with
      | [], _ => rfl
      | [a], _ => rfl
  | case2 nodes long ih =>
      have nonempty : level hash nodes ≠ [] := by
        apply List.ne_nil_of_length_pos
        rw [level_length]
        omega
      rw [levels_level hash nodes (by omega), ← ih,
        List.getLast?_append_of_ne_nil _ (levels_nonempty hash _ nonempty)]

end Merkle
