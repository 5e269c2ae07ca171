import RoiCoin.Lib.Merkle
import RoiCoin.Validation.CheckBlock

/-! What the Merkle root of a block says about its transaction ids. -/

namespace RoiCoin

variable (hash : Uint256 → Uint256 → Uint256)

theorem merkleLevel_eq (hashes : List Uint256) :
    merkleLevel hash hashes = (Merkle.level hash hashes, Merkle.twin hashes) := by
  fun_induction merkleLevel hash hashes with
  | case1 => rfl
  | case2 a => rfl
  | case3 a b => simp only [Merkle.level, Merkle.pairs, Merkle.twin, List.map_cons, List.map_nil,
      beq_eq_decide]
  | case4 a b hashes more level repeated above ih =>
      rw [above] at ih
      obtain ⟨rfl, rfl⟩ := Prod.mk.inj ih
      cases hashes with
      | nil => exact absurd rfl more
      | cons c hashes => rfl

/-- The fuel of `buildMerkleTree` does not run out. -/
theorem buildMerkleTree_eq (fuel : Nat) (hashes : List Uint256) (enough : hashes.length ≤ fuel) :
    buildMerkleTree hash fuel hashes =
      ((Merkle.root hash hashes).getD 0, Merkle.mutated hash hashes) := by
  induction fuel generalizing hashes with
  | zero =>
      rw [buildMerkleTree, Merkle.root_short hash _ (by omega), Merkle.mutated_short hash _ (by omega),
        List.headD_eq_head?_getD]
  | succ fuel ih =>
      rw [buildMerkleTree]
      split_ifs with short
      · rw [Merkle.root_short hash _ short, Merkle.mutated_short hash _ short,
          List.headD_eq_head?_getD]
      · have long : 1 < hashes.length := by omega
        have enough_above : (Merkle.level hash hashes).length ≤ fuel := by
          rw [Merkle.level_length]
          omega
        rw [merkleLevel_eq, Merkle.root_level hash _ long, Merkle.mutated_level hash _ long]
        dsimp only
        rw [ih _ enough_above]

theorem same_root (xs ys : List Uint256) (nonempty_x : xs ≠ []) (nonempty_y : ys ≠ [])
    (same : (buildMerkleTree hash xs.length xs).1 = (buildMerkleTree hash ys.length ys).1) :
    Merkle.root hash xs = Merkle.root hash ys := by
  obtain ⟨top_x, root_x⟩ := Merkle.root_exists hash xs nonempty_x
  obtain ⟨top_y, root_y⟩ := Merkle.root_exists hash ys nonempty_y
  rw [buildMerkleTree_eq hash _ xs le_rfl, buildMerkleTree_eq hash _ ys le_rfl, root_x, root_y] at same
  rw [root_x, root_y]
  exact congrArg some same

/-- Of two lists with one root the longer one is reported; lists of one length are equal. -/
theorem root_decides (xs ys : List Uint256) (nonempty_x : xs ≠ []) (nonempty_y : ys ≠ [])
    (apart : Merkle.Apart hash xs ys) (order : xs.length ≤ ys.length)
    (same : (buildMerkleTree hash xs.length xs).1 = (buildMerkleTree hash ys.length ys).1) :
    xs = ys ∨ (buildMerkleTree hash ys.length ys).2 = true := by
  rw [buildMerkleTree_eq hash _ ys le_rfl]
  exact Merkle.root_commits hash xs ys nonempty_x apart order
    (same_root hash xs ys nonempty_x nonempty_y same)

theorem unreported_equal (xs ys : List Uint256) (nonempty_x : xs ≠ []) (nonempty_y : ys ≠ [])
    (apart : Merkle.Apart hash xs ys)
    (same : (buildMerkleTree hash xs.length xs).1 = (buildMerkleTree hash ys.length ys).1)
    (plain_x : (buildMerkleTree hash xs.length xs).2 = false)
    (plain_y : (buildMerkleTree hash ys.length ys).2 = false) : xs = ys := by
  rcases Nat.le_total xs.length ys.length with order | order
  · rcases root_decides hash xs ys nonempty_x nonempty_y apart order same with equal | reported
    · exact equal
    · rw [plain_y] at reported
      cases reported
  · rcases root_decides hash ys xs nonempty_y nonempty_x (apart.symm hash) order same.symm with
      equal | reported
    · exact equal.symm
    · rw [plain_x] at reported
      cases reported

/-- Blocks whose headers agree on the root, both through the root check, hold the same ids. -/
theorem checked_roots (env : Environment) (first second : CBlock)
    (nonempty_first : first.vtx ≠ []) (nonempty_second : second.vtx ≠ [])
    (apart : Merkle.Apart env.hash (first.vtx.map env.getHash) (second.vtx.map env.getHash))
    (passed_first : checkMerkleRoot env first true = .ok ())
    (passed_second : checkMerkleRoot env second true = .ok ())
    (same : first.header.hashMerkleRoot = second.header.hashMerkleRoot) :
    first.vtx.map env.getHash = second.vtx.map env.getHash := by
  simp only [checkMerkleRoot, CBlock.merkleTree, Checked.then_ok, Checked.require_ok, reduceCtorEq,
    false_or, ← List.length_map (f := env.getHash)] at passed_first passed_second
  have roots := passed_first.1.symm.trans (same.trans passed_second.1)
  have nonempty_ids : ∀ block : CBlock, block.vtx ≠ [] → block.vtx.map env.getHash ≠ [] := by
    intro block nonempty
    rwa [Ne, List.map_eq_nil_iff]
  exact unreported_equal env.hash _ _ (nonempty_ids first nonempty_first)
    (nonempty_ids second nonempty_second) apart roots passed_first.2 passed_second.2

/-- Two lists with one root that are not reported are equal, and a longer list with the root of
another one, so every list that repeats trailing nodes of another, is reported. -/
theorem merkle_root_commits (xs ys : List Uint256) (nonempty_x : xs ≠ []) (nonempty_y : ys ≠ [])
    (apart : Merkle.Apart hash xs ys)
    (same : (buildMerkleTree hash xs.length xs).1 = (buildMerkleTree hash ys.length ys).1) :
    ((buildMerkleTree hash xs.length xs).2 = false → (buildMerkleTree hash ys.length ys).2 = false →
        xs = ys) ∧
      (xs.length < ys.length → (buildMerkleTree hash ys.length ys).2 = true) := by
  constructor
  · exact unreported_equal hash xs ys nonempty_x nonempty_y apart same
  · intro longer
    rcases root_decides hash xs ys nonempty_x nonempty_y apart (Nat.le_of_lt longer) same with
      equal | reported
    · rw [equal] at longer
      exact absurd longer (Nat.lt_irrefl _)
    · exact reported

/-- A hash that keeps the three ids 1, 2, 3 and its own values apart. -/
theorem merkle_root_commits_repeated :
    let hash : Uint256 → Uint256 → Uint256 := fun a b => 100 * a + b
    (buildMerkleTree hash 4 [1, 2, 3, 3]).2 = true := by
  intro hash
  let pairs : List (Uint256 × Uint256) := [(1, 2), (3, 3), (102, 303)]
  have pairs_three : Merkle.hashed hash [1, 2, 3] = pairs := by
    rw [Merkle.hashed_level hash _ (by decide), Merkle.hashed_level hash _ (by decide),
      Merkle.hashed_short hash _ (by decide)]
    decide +kernel
  have pairs_four : Merkle.hashed hash [1, 2, 3, 3] = pairs := by
    rw [Merkle.hashed_level hash _ (by decide), Merkle.hashed_level hash _ (by decide),
      Merkle.hashed_short hash _ (by decide)]
    decide +kernel
  have free : ((pairs ++ pairs).all fun p => (pairs ++ pairs).all fun q =>
      decide (hash p.1 p.2 = hash q.1 q.2 → p = q)) = true := by decide +kernel
  have fresh : ((pairs ++ pairs).all fun p =>
      !([1, 2, 3] ++ [1, 2, 3, 3] : List Uint256).contains (hash p.1 p.2)) = true := by
    decide +kernel
  have apart : Merkle.Apart hash [1, 2, 3] [1, 2, 3, 3] := by
    constructor
    · rw [pairs_three, pairs_four]
      intro p first q second
      exact of_decide_eq_true (List.all_eq_true.mp (List.all_eq_true.mp free p first) q second)
    · rw [pairs_three, pairs_four]
      intro p member leaf
      have outside := List.all_eq_true.mp fresh p member
      rw [List.contains_iff_mem.mpr leaf] at outside
      cases outside
  have same : (buildMerkleTree hash 3 [1, 2, 3]).1 = (buildMerkleTree hash 4 [1, 2, 3, 3]).1 := by
    decide +kernel
  exact (merkle_root_commits hash [1, 2, 3] [1, 2, 3, 3] (List.cons_ne_nil _ _)
    (List.cons_ne_nil _ _) apart same).2 (by decide)

end RoiCoin
