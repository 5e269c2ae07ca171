import RoiCoin.Validation.ConnectBlock
import RoiCoin.Validation.MerkleRoot

/-! Merkle branches read out of the flat array of all levels (`CBlock::BuildMerkleTree`,
`CBlock::GetMerkleBranch`, `CBlock::CheckMerkleBranch`).

`none` is a read outside the array, or a loop that has used up its fuel. -/

namespace RoiCoin

section Flat

variable (hash : Uint256 → Uint256 → Uint256)

/-- The inner loop of `BuildMerkleTree` from `i` on, over the level of `nSize` hashes at `j`. -/
def pushLevel (j nSize : Nat) : Nat → Nat → List Uint256 × Bool → Option (List Uint256 × Bool)
  | 0, _, st => some st
  | turns + 1, i, (vMerkleTree, mutated) =>
      let i2 := min (i + 1) (nSize - 1)
      match vMerkleTree[j + i]?, vMerkleTree[j + i2]? with
      | some left, some right =>
          pushLevel j nSize turns (i + 2) (vMerkleTree ++ [hash left right],
            mutated || decide (i2 = i + 1 ∧ i2 + 1 = nSize ∧ left = right))
      | _, _ => none

/-- The outer loop; a level has half of the hashes below it, rounded up. -/
def pushLevels : Nat → Nat → Nat → List Uint256 × Bool → Option (List Uint256 × Bool)
  | 0, _, nSize, st => if nSize > 1 then none else some st
  | fuel + 1, j, nSize, st =>
      if nSize > 1 then
        (pushLevel hash j nSize ((nSize + 1) / 2) 0 st).bind
          (pushLevels fuel (j + nSize) ((nSize + 1) / 2))
      else some st

/-- `BuildMerkleTree` over the ids of the transactions: the array, and `fMutated`. -/
def fillMerkleTree (hashes : List Uint256) : Option (List Uint256 × Bool) :=
  pushLevels hash hashes.length 0 hashes.length (hashes, false)

/-- `vMerkleTree.empty() ? uint256() : vMerkleTree.back()` -/
def merkleBack (vMerkleTree : List Uint256) : Uint256 := vMerkleTree.getLastD 0

/-- The loop of `GetMerkleBranch`. -/
def readBranch (vMerkleTree : List Uint256) : Nat → Nat → Nat → Nat → Option (List Uint256)
  | 0, _, nSize, _ => if nSize > 1 then none else some []
  | fuel + 1, j, nSize, nIndex =>
      if nSize > 1 then
        let i := min (nIndex ^^^ 1) (nSize - 1)
        match vMerkleTree[j + i]? with
        | none => none
        | some beside =>
            (readBranch vMerkleTree fuel (j + nSize) ((nSize + 1) / 2) (nIndex >>> 1)).map
              (beside :: ·)
      else some []

/-- `GetMerkleBranch` with the array that the block has kept. -/
def getMerkleBranch (hashes vMerkleTree : List Uint256) (nIndex : Nat) : Option (List Uint256) :=
  if vMerkleTree.isEmpty then
    (fillMerkleTree hash hashes).bind fun built =>
      readBranch built.1 hashes.length 0 hashes.length nIndex
  else readBranch vMerkleTree hashes.length 0 hashes.length nIndex

/-- The loop of `CheckMerkleBranch`. -/
def foldBranch : Uint256 → List Uint256 → Int → Uint256
  | node, [], _ => node
  | node, it :: vMerkleBranch, nIndex =>
      foldBranch (if nIndex % 2 = 1 then hash it node else hash node it) vMerkleBranch (nIndex / 2)

def checkMerkleBranch (node : Uint256) (vMerkleBranch : List Uint256) (nIndex : Int) : Uint256 :=
  if nIndex = -1 then 0 else foldBranch hash node vMerkleBranch nIndex

/-! ## The array -/

/-- A level in the middle of the array, by position. -/
theorem array_getElem? (lower level done : List Uint256) (pos : Nat) (inside : pos < level.length) :
    (lower ++ level ++ done)[lower.length + pos]? = level[pos]? := by
  rw [List.append_assoc, List.getElem?_append_right (Nat.le_add_right _ _), Nat.add_sub_cancel_left,
    List.getElem?_append_left inside]

/-- One turn of the inner loop. -/
theorem pushLevel_turn (lower level done : List Uint256) (turns i i2 : Nat) (mutated : Bool)
    (left right : Uint256) (second : i2 = min (i + 1) (level.length - 1))
    (first : level[i]? = some left) (beside : level[i2]? = some right) :
    pushLevel hash lower.length level.length (turns + 1) i (lower ++ level ++ done, mutated) =
      pushLevel hash lower.length level.length turns (i + 2)
        (lower ++ level ++ (done ++ [hash left right]),
          mutated || decide (i2 = i + 1 ∧ i2 + 1 = level.length ∧ left = right)) := by
  have inside := (List.getElem?_eq_some_iff.mp first).1
  have inside' := (List.getElem?_eq_some_iff.mp beside).1
  rw [pushLevel, ← second, array_getElem? lower level done i inside, first,
    array_getElem? lower level done i2 inside', beside]
  dsimp only
  rw [List.append_assoc _ done]

theorem pushLevel_eq (lower front rest done : List Uint256) (mutated : Bool) :
    pushLevel hash lower.length (front ++ rest).length ((rest.length + 1) / 2) front.length
        (lower ++ (front ++ rest) ++ done, mutated) =
      some (lower ++ (front ++ rest) ++ (done ++ Merkle.level hash rest),
        mutated || Merkle.twin rest) := by
  fun_induction Merkle.twin rest generalizing front done mutated with
  | case1 => simp [pushLevel, Merkle.level, Merkle.pairs]
  | case2 a =>
      have size : (front ++ [a]).length = front.length + 1 := by simp
      have turn := pushLevel_turn hash lower (front ++ [a]) done 0 front.length front.length mutated
        a a (by rw [size]; omega) (by simp) (by simp)
      have none : decide (front.length = front.length + 1 ∧
          front.length + 1 = (front ++ [a]).length ∧ a = a) = false := by simp
      have turns : ([a].length + 1) / 2 = 0 + 1 := by simp
      rw [turns, turn, none, pushLevel]
      rfl
  | case3 a b =>
      have size : (front ++ [a, b]).length = front.length + 2 := by simp
      have turn := pushLevel_turn hash lower (front ++ [a, b]) done 0 front.length
        (front.length + 1) mutated a b (by rw [size]; omega) (by simp) (by simp)
      have same : decide (front.length + 1 = front.length + 1 ∧
          front.length + 1 + 1 = (front ++ [a, b]).length ∧ a = b) = decide (a = b) := by simp
      have turns : ([a, b].length + 1) / 2 = 0 + 1 := by simp
      rw [turns, turn, same, pushLevel]
      rfl
  | case4 a b c rest ih =>
      have size : (front ++ a :: b :: c :: rest).length = front.length + rest.length + 3 := by
        simp [Nat.add_assoc]
      have turn := pushLevel_turn hash lower (front ++ a :: b :: c :: rest) done
        (((c :: rest).length + 1) / 2) front.length (front.length + 1) mutated a b
        (by rw [size]; omega) (by simp) (by simp)
      have none : decide (front.length + 1 = front.length + 1 ∧
          front.length + 1 + 1 = (front ++ a :: b :: c :: rest).length ∧ a = b) = false := by
        rw [decide_eq_false_iff_not, size]
        omega
      have turns : ((a :: b :: c :: rest).length + 1) / 2 = ((c :: rest).length + 1) / 2 + 1 := by
        simp only [List.length_cons]
        omega
      have split : front ++ a :: b :: c :: rest = (front ++ [a, b]) ++ c :: rest := by simp
      have shift : front.length + 2 = (front ++ [a, b]).length := by simp
      have later := ih (front ++ [a, b]) (done ++ [hash a b]) mutated
      rw [turns, turn, none, Bool.or_false, split, shift, later, List.append_assoc done]
      rfl

theorem pushLevels_eq (fuel : Nat) (lower nodes : List Uint256) (mutated : Bool)
    (enough : nodes.length ≤ fuel + 1) :
    pushLevels hash fuel lower.length nodes.length (lower ++ nodes, mutated) =
      some (lower ++ Merkle.levels hash nodes, mutated || Merkle.mutated hash nodes) := by
  induction fuel generalizing lower nodes mutated with
  | zero =>
      rw [pushLevels, if_neg (by omega), Merkle.levels_short hash nodes (by omega),
        Merkle.mutated_short hash nodes (by omega), Bool.or_false]
  | succ fuel ih =>
      rw [pushLevels]
      split_ifs with long
      · have pushed := pushLevel_eq hash lower [] nodes [] mutated
        simp only [List.nil_append, List.append_nil, List.length_nil] at pushed
        have size := Merkle.level_length hash nodes
        have later := ih (lower ++ nodes) (Merkle.level hash nodes) (mutated || Merkle.twin nodes)
          (by omega)
        rw [List.length_append, size] at later
        rw [pushed, Option.bind_some, later, Merkle.levels_level hash nodes long,
          Merkle.mutated_level hash nodes long, List.append_assoc, Bool.or_assoc]
      · rw [Merkle.levels_short hash nodes (by omega), Merkle.mutated_short hash nodes (by omega),
          Bool.or_false]

/-- The array holds all levels. -/
theorem fillMerkleTree_eq (hashes : List Uint256) :
    fillMerkleTree hash hashes =
      some (Merkle.levels hash hashes, Merkle.mutated hash hashes) := by
  have filled := pushLevels_eq hash hashes.length [] hashes false (Nat.le_succ _)
  rw [fillMerkleTree]
  simpa only [List.length_nil, List.nil_append, Bool.false_or] using filled

/-- What `CheckBlock` computes level by level is what the array gives. -/
theorem fillMerkleTree_root (hashes : List Uint256) :
    ∃ vMerkleTree mutated, fillMerkleTree hash hashes = some (vMerkleTree, mutated) ∧
      (merkleBack vMerkleTree, mutated) = buildMerkleTree hash hashes.length hashes := by
  refine ⟨_, _, fillMerkleTree_eq hash hashes, ?_⟩
  rw [buildMerkleTree_eq hash _ hashes le_rfl, merkleBack, List.getLastD_eq_getLast?,
    Merkle.levels_last]

/-! ## The branch -/

theorem readBranch_eq (fuel : Nat) (lower nodes : List Uint256) (nIndex : Nat)
    (enough : nodes.length ≤ fuel + 1) (inside : nIndex < nodes.length) :
    readBranch (lower ++ Merkle.levels hash nodes) fuel lower.length nodes.length nIndex =
      some (Merkle.branch hash nodes nIndex) := by
  induction fuel generalizing lower nodes nIndex with
  | zero => rw [readBranch, if_neg (by omega), Merkle.branch_short hash nodes _ (by omega)]
  | succ fuel ih =>
      rw [readBranch]
      split_ifs with long
      · have close := Merkle.neighbour_lt nodes.length nIndex inside
        obtain ⟨beside, found⟩ :
            ∃ beside, nodes[Merkle.neighbour nodes.length nIndex]? = some beside :=
          ⟨_, List.getElem?_eq_getElem close⟩
        have size := Merkle.level_length hash nodes
        have later := ih (lower ++ nodes) (Merkle.level hash nodes) (nIndex / 2) (by omega)
          (by omega)
        rw [List.length_append, size] at later
        have read := array_getElem? lower nodes (Merkle.levels hash (Merkle.level hash nodes))
          (Merkle.neighbour nodes.length nIndex) close
        rw [Merkle.neighbour] at read found
        rw [Merkle.levels_level hash nodes long, ← List.append_assoc]
        dsimp only
        rw [read, found, Nat.shiftRight_one, later, Merkle.branch_level hash nodes nIndex beside long
          found]
        rfl
      · rw [Merkle.branch_short hash nodes _ (by omega)]

/-- The sign bit is not set. -/
theorem foldBranch_eq (node : Uint256) (vMerkleBranch : List Uint256) (nIndex : Nat) :
    foldBranch hash node vMerkleBranch nIndex = Merkle.climb hash node vMerkleBranch nIndex := by
  induction vMerkleBranch generalizing node nIndex with
  | nil => rfl
  | cons it vMerkleBranch ih =>
      have bit : (nIndex : Int) % 2 = 1 ↔ nIndex % 2 = 1 := by omega
      have half : (nIndex : Int) / 2 = ((nIndex / 2 : Nat) : Int) := by omega
      rw [foldBranch, Merkle.climb, half, ih]
      simp only [bit]

end Flat

/-- Every transaction's id is led to the root by its branch, whether the block has kept its array
or builds it for the branch. -/
theorem merkle_branch_verifies (env : Environment) (block : CBlock) (i : Nat) (tx : CTransaction)
    (position : block.vtx[i]? = some tx) :
    ∃ vMerkleTree mutated,
      fillMerkleTree env.hash (block.vtx.map env.getHash) = some (vMerkleTree, mutated) ∧
      ∀ kept, kept = [] ∨ kept = vMerkleTree →
        ∃ vMerkleBranch,
          getMerkleBranch env.hash (block.vtx.map env.getHash) kept i = some vMerkleBranch ∧
          checkMerkleBranch env.hash (env.getHash tx) vMerkleBranch i = merkleBack vMerkleTree := by
  have size : (block.vtx.map env.getHash).length = block.vtx.length := List.length_map _
  have here : (block.vtx.map env.getHash)[i]? = some (env.getHash tx) := by
    rw [List.getElem?_map, position]
    rfl
  generalize block.vtx.map env.getHash = hashes at size here ⊢
  have inside := (List.getElem?_eq_some_iff.mp here).1
  have read := readBranch_eq env.hash hashes.length [] hashes i (Nat.le_succ _) inside
  rw [List.nil_append, List.length_nil] at read
  have top := Merkle.climb_branch env.hash hashes i _ here
  refine ⟨_, _, fillMerkleTree_eq env.hash hashes, ?_⟩
  intro kept either
  refine ⟨Merkle.branch env.hash hashes i, ?_, ?_⟩
  · rw [getMerkleBranch]
    rcases either with rfl | rfl
    · rw [List.isEmpty_nil, if_pos rfl, fillMerkleTree_eq]
      exact read
    · have nonempty : Merkle.levels env.hash hashes ≠ [] :=
        Merkle.levels_nonempty env.hash hashes (List.ne_nil_of_length_pos (by omega))
      rw [if_neg (by rwa [List.isEmpty_iff])]
      exact read
  · have positive : (i : Int) ≠ -1 := by omega
    rw [checkMerkleBranch, if_neg positive, foldBranch_eq, merkleBack, List.getLastD_eq_getLast?,
      Merkle.levels_last, top, Option.getD_some]

/-- A block of three transactions, of which the last one is its own neighbour. -/
def threeTransactions : CBlock :=
  ⟨firstHeader 7, [coinbasePaying 1, coinbasePaying 2, coinbasePaying 3]⟩

/-- The ids are the values paid. -/
def idsByValue : Environment :=
  { plainEnvironment with getHash := fun tx => BitVec.ofInt 256 tx.outputs }

theorem merkle_branch_verifies_last :
    ∃ vMerkleTree mutated,
      fillMerkleTree idsByValue.hash (threeTransactions.vtx.map idsByValue.getHash) =
        some (vMerkleTree, mutated) ∧
      ∀ kept, kept = [] ∨ kept = vMerkleTree →
        ∃ vMerkleBranch,
          getMerkleBranch idsByValue.hash (threeTransactions.vtx.map idsByValue.getHash) kept 2 =
            some vMerkleBranch ∧
          checkMerkleBranch idsByValue.hash (idsByValue.getHash (coinbasePaying 3)) vMerkleBranch
            (2 : Nat) = merkleBack vMerkleTree :=
  merkle_branch_verifies idsByValue threeTransactions 2 (coinbasePaying 3) rfl

end RoiCoin
