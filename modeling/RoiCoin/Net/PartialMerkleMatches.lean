import RoiCoin.Net.PartialMerkleTree
import RoiCoin.Validation.MerkleRoot

/-! What a partial Merkle tree yields, built by the code or received from a peer. -/

namespace RoiCoin

open Codec

/-! ## Shape of the tree -/

theorem calcTreeWidth_eq (nTransactions : BitVec 32) (height : Nat)
    (small : nTransactions.toNat ≤ maxBlockSize / 60) (low : height ≤ 15) :
    calcTreeWidth nTransactions height =
      (nTransactions.toNat + 2 ^ height - 1) / 2 ^ height := by
  have power : 2 ^ height ≤ 2 ^ 15 := Nat.pow_le_pow_right (by decide) low
  have positive : 0 < 2 ^ height := Nat.two_pow_pos height
  have bound : maxBlockSize / 60 = 16666 := by decide
  have bit : ((1 : BitVec 32) <<< height).toNat = 2 ^ height := by
    rw [BitVec.toNat_shiftLeft, Nat.shiftLeft_eq]
    have one : (1 : BitVec 32).toNat = 1 := rfl
    rw [one, Nat.one_mul, Nat.mod_eq_of_lt (by omega)]
  have sum : (nTransactions + ((1 : BitVec 32) <<< height) - 1).toNat =
      nTransactions.toNat + 2 ^ height - 1 := by
    have one : (1 : BitVec 32).toNat = 1 := rfl
    rw [BitVec.toNat_sub, BitVec.toNat_add, bit, one]
    omega
  rw [calcTreeWidth, BitVec.toNat_ushiftRight, sum, Nat.shiftRight_eq_div_pow]

theorem treeHeightFrom_spec (nTransactions : BitVec 32) (fuel start reach : Nat)
    (enough : reach ≤ fuel) (top : calcTreeWidth nTransactions (start + reach) ≤ 1) :
    treeHeightFrom nTransactions fuel start ≤ start + reach ∧
      calcTreeWidth nTransactions (treeHeightFrom nTransactions fuel start) ≤ 1 ∧
      ∀ height, start ≤ height → height < treeHeightFrom nTransactions fuel start →
        1 < calcTreeWidth nTransactions height := by
  induction fuel generalizing start reach with
  | zero =>
      have none_left : reach = 0 := by omega
      subst none_left
      exact ⟨le_rfl, top, fun height least most => absurd most (by simp only [treeHeightFrom]; omega)⟩
  | succ fuel ih =>
      rw [treeHeightFrom]
      split_ifs with wide
      · cases reach with
        | zero => exact absurd top (by simpa using wide)
        | succ reach =>
            have next : start + (reach + 1) = start + 1 + reach := by omega
            rw [next] at top ⊢
            have rest := ih (start + 1) reach (by omega) top
            refine ⟨rest.1, rest.2.1, fun height least most => ?_⟩
            by_cases first : height = start
            · rw [first]
              exact wide
            · exact rest.2.2 height (by omega) most
      · exact ⟨by omega, by omega, fun height least most => absurd most (by omega)⟩

/-- The transaction count of a block whose ids are `vTxid`. -/
structure Counts (nTransactions : BitVec 32) (vTxid : List Uint256) : Prop where
  count : nTransactions.toNat = vTxid.length
  nonempty : vTxid ≠ []
  small : vTxid.length ≤ maxBlockSize / 60

section

variable {nTransactions : BitVec 32} {vTxid : List Uint256}

theorem Counts.positive (counts : Counts nTransactions vTxid) : 0 < vTxid.length :=
  List.length_pos_iff.mpr counts.nonempty

theorem Counts.height_le (counts : Counts nTransactions vTxid) : treeHeight nTransactions ≤ 15 ∧
    calcTreeWidth nTransactions (treeHeight nTransactions) ≤ 1 ∧
    ∀ height < treeHeight nTransactions, 1 < calcTreeWidth nTransactions height := by
  have small : nTransactions.toNat ≤ maxBlockSize / 60 := counts.count ▸ counts.small
  have top : calcTreeWidth nTransactions (0 + 15) ≤ 1 := by
    rw [calcTreeWidth_eq nTransactions _ small (by decide)]
    have bound : maxBlockSize / 60 = 16666 := by decide
    omega
  have spec := treeHeightFrom_spec nTransactions 31 0 15 (by decide) top
  rw [Nat.zero_add] at spec
  exact ⟨spec.1, spec.2.1, fun height most => spec.2.2 height (Nat.zero_le height) most⟩

theorem Counts.width (hash : Uint256 → Uint256 → Uint256) (counts : Counts nTransactions vTxid)
    (height : Nat) (low : height ≤ 15) :
    calcTreeWidth nTransactions height = (Merkle.above hash height vTxid).length := by
  rw [calcTreeWidth_eq nTransactions height (counts.count ▸ counts.small) low, Merkle.above_length,
    counts.count]

theorem Counts.long (hash : Uint256 → Uint256 → Uint256) (counts : Counts nTransactions vTxid)
    (height : Nat) (low : height < treeHeight nTransactions) :
    1 < (Merkle.above hash height vTxid).length := by
  rw [← counts.width hash height (by have := counts.height_le.1; omega)]
  exact counts.height_le.2.2 height low

/-- `CalcHash` computes the nodes of the tree. -/
theorem Counts.calcHash (hash : Uint256 → Uint256 → Uint256) (counts : Counts nTransactions vTxid)
    (height pos : Nat) (low : height ≤ treeHeight nTransactions)
    (inside : pos < calcTreeWidth nTransactions height) :
    (Merkle.above hash height vTxid)[pos]? =
      some (RoiCoin.calcHash hash nTransactions vTxid height pos) := by
  have low_fifteen := counts.height_le.1
  induction height generalizing pos with
  | zero =>
      rw [counts.width hash 0 (by decide), Merkle.above] at inside
      rw [Merkle.above, RoiCoin.calcHash, List.getD_eq_getElem?_getD,
        List.getElem?_eq_getElem inside]
      rfl
  | succ height ih =>
      have below_fifteen : height ≤ 15 := by omega
      have two : pos * 2 < calcTreeWidth nTransactions height := by
        rw [counts.width hash (height + 1) (by omega), Merkle.above, Merkle.level_length] at inside
        rw [counts.width hash height below_fifteen]
        omega
      rw [Merkle.above, Merkle.level_getElem? hash _ pos _ (ih (pos * 2) (by omega) two),
        RoiCoin.calcHash]
      split_ifs with second
      · rw [ih (pos * 2 + 1) (by omega) second, Option.getD_some]
      · rw [List.getElem?_eq_none, Option.getD_none]
        rw [← counts.width hash height below_fifteen]
        omega

/-- The node at the top is the root of the block. -/
theorem Counts.root (hash : Uint256 → Uint256 → Uint256) (counts : Counts nTransactions vTxid) :
    RoiCoin.calcHash hash nTransactions vTxid (treeHeight nTransactions) 0 =
      (buildMerkleTree hash vTxid.length vTxid).1 := by
  have heights := counts.height_le
  have top : 0 < calcTreeWidth nTransactions (treeHeight nTransactions) := by
    rw [counts.width hash _ heights.1, Merkle.above_length]
    have positive := counts.positive
    have power : 0 < 2 ^ treeHeight nTransactions := Nat.two_pow_pos _
    exact Nat.div_pos (by omega) power
  have node := counts.calcHash hash (treeHeight nTransactions) 0 le_rfl top
  have short : (Merkle.above hash (treeHeight nTransactions) vTxid).length ≤ 1 := by
    rw [← counts.width hash _ heights.1]
    exact heights.2.1
  rw [buildMerkleTree_eq hash _ vTxid le_rfl,
    ← Merkle.root_above hash vTxid (treeHeight nTransactions) (counts.long hash),
    Merkle.root_short hash _ short, List.head?_eq_getElem?, node]
  rfl

end

/-! ## What lies below a node -/

theorem below_succ {α : Type} (height pos : Nat) (entries : List α) :
    below (height + 1) pos entries =
      below height (pos * 2) entries ++ below height (pos * 2 + 1) entries := by
  have start : pos * 2 ^ (height + 1) = pos * 2 * 2 ^ height := by
    rw [Nat.pow_succ, Nat.mul_comm (2 ^ height), Nat.mul_assoc]
  have next : (pos * 2 + 1) * 2 ^ height = pos * 2 * 2 ^ height + 2 ^ height := by
    rw [Nat.add_mul, Nat.one_mul]
  have double : 2 ^ (height + 1) = 2 ^ height + 2 ^ height := by
    rw [Nat.pow_succ, Nat.mul_two]
  rw [below, below, below, start, next, double, List.take_add, List.drop_drop]

theorem below_beyond {α : Type} (height pos : Nat) (entries : List α)
    (beyond : entries.length ≤ pos * 2 ^ height) : below height pos entries = [] := by
  rw [below, List.drop_eq_nil_of_le beyond, List.take_nil]

theorem below_map {α β : Type} (f : α → β) (height pos : Nat) (entries : List α) :
    below height pos (entries.map f) = (below height pos entries).map f := by
  rw [below, below, List.map_take, List.map_drop]

theorem below_leaf {α : Type} (pos : Nat) (entries : List α) (entry : α)
    (here : entries[pos]? = some entry) : below 0 pos entries = [entry] := by
  obtain ⟨inside, value⟩ := List.getElem?_eq_some_iff.mp here
  rw [below, Nat.pow_zero, Nat.mul_one, List.drop_eq_getElem_cons inside, value]
  rfl

/-- The ids whose bit in the mask is set. -/
def matchedTxids (entries : List (Uint256 × Bool)) : List Uint256 :=
  (entries.filter Prod.snd).map Prod.fst

theorem matchedTxids_append (front back : List (Uint256 × Bool)) :
    matchedTxids (front ++ back) = matchedTxids front ++ matchedTxids back := by
  rw [matchedTxids, List.filter_append, List.map_append, matchedTxids, matchedTxids]

theorem matchedTxids_none (entries : List (Uint256 × Bool))
    (unmatched : entries.any Prod.snd = false) : matchedTxids entries = [] := by
  have nothing : entries.filter Prod.snd = [] := by
    apply List.filter_eq_nil_iff.mpr
    intro entry member
    exact List.any_eq_false.mp unmatched entry member
  rw [matchedTxids, nothing, List.map_nil]

theorem Counts.parentOfMatch {nTransactions : BitVec 32} {vTxid : List Uint256}
    (counts : Counts nTransactions vTxid) (vMatch : List Bool) (mask : vMatch.length = vTxid.length)
    (height pos : Nat) :
    RoiCoin.parentOfMatch nTransactions vMatch height pos =
      (below height pos (vTxid.zip vMatch)).any Prod.snd := by
  have whole : vMatch.take nTransactions.toNat = (vTxid.zip vMatch).map Prod.snd := by
    rw [List.map_snd_zip (by omega), counts.count, ← mask, List.take_length]
  rw [RoiCoin.parentOfMatch, whole, below_map, List.any_map]
  rfl

/-! ## Cursors -/

def Extraction.advance (state : Extraction) (bits hashes : Nat) (matched : List Uint256) :
    Extraction :=
  ⟨state.nBitsUsed + bits, state.nHashUsed + hashes, state.vMatch ++ matched, state.fBad⟩

theorem Extraction.advance_advance (state : Extraction) (bits bits' hashes hashes' : Nat)
    (matched matched' : List Uint256) :
    (state.advance bits hashes matched).advance bits' hashes' matched' =
      state.advance (bits + bits') (hashes + hashes') (matched ++ matched') := by
  simp only [advance, Nat.add_assoc, List.append_assoc]

theorem drop_cons {α : Type} (a : α) (rest list : List α) (start : Nat)
    (front : a :: rest <+: list.drop start) :
    list[start]? = some a ∧ rest <+: list.drop (start + 1) := by
  obtain ⟨after, whole⟩ := front
  constructor
  · rw [← Nat.add_zero start, ← List.getElem?_drop, ← whole]
    rfl
  · refine ⟨after, ?_⟩
    rw [← List.drop_drop, ← whole]
    rfl

theorem drop_append {α : Type} (first second list : List α) (start : Nat)
    (front : first ++ second <+: list.drop start) :
    first <+: list.drop start ∧ second <+: list.drop (start + first.length) := by
  obtain ⟨after, whole⟩ := front
  constructor
  · exact ⟨second ++ after, by rw [← whole, List.append_assoc]⟩
  · refine ⟨after, ?_⟩
    rw [← List.drop_drop, ← whole, List.append_assoc, List.drop_left]

theorem nextBit_drop (tree : CPartialMerkleTree) (state : Extraction) (fParentOfMatch : Bool)
    (rest : List Bool) (front : fParentOfMatch :: rest <+: tree.vBits.drop state.nBitsUsed) :
    tree.nextBit state = some (fParentOfMatch, state.advance 1 0 []) := by
  rw [CPartialMerkleTree.nextBit, (drop_cons _ rest _ _ front).1, Extraction.advance,
    List.append_nil]
  rfl

theorem storedHash_drop (tree : CPartialMerkleTree) (state : Extraction) (fMatched : Bool)
    (stored : Uint256) (front : [stored] <+: tree.vHash.drop state.nHashUsed) :
    tree.storedHash fMatched state =
      (stored, state.advance 0 1 (if fMatched then [stored] else [])) := by
  rw [CPartialMerkleTree.storedHash, (drop_cons stored [] _ _ front).1]
  cases fMatched <;> simp [Extraction.advance]

/-! ## Extracting what was built -/

/-- No other pair hashes like a pair of the tree over these ids. -/
def CollisionFree (hash : Uint256 → Uint256 → Uint256) (vTxid : List Uint256) : Prop :=
  ∀ pair ∈ Merkle.hashed hash vTxid, ∀ a b, hash a b = hash pair.1 pair.2 → (a, b) = pair

section

variable {hash : Uint256 → Uint256 → Uint256} {nTransactions : BitVec 32} {vTxid : List Uint256}

/-- Siblings of the tree differ. -/
theorem Counts.siblings (counts : Counts nTransactions vTxid) (distinct : vTxid.Nodup)
    (free : CollisionFree hash vTxid) (height pos : Nat) (low : height < treeHeight nTransactions)
    (second : pos * 2 + 1 < calcTreeWidth nTransactions height) :
    RoiCoin.calcHash hash nTransactions vTxid height (pos * 2 + 1) ≠
      RoiCoin.calcHash hash nTransactions vTxid height (pos * 2) := by
  intro equal
  have nodup : (Merkle.above hash height vTxid).Nodup := by
    apply Merkle.above_nodup hash vTxid height distinct
    · intro p _ q member same
      exact free q member p.1 p.2 same
    · intro lower small
      exact counts.long hash lower (by omega)
  have right := counts.calcHash hash height (pos * 2 + 1) (by omega) second
  have left := counts.calcHash hash height (pos * 2) (by omega) (by omega)
  have inside := (List.getElem?_eq_some_iff.mp right).1
  have positions := (List.getElem?_inj inside nodup).mp
    (right.trans ((congrArg some equal).trans left.symm))
  omega

theorem Counts.half (counts : Counts nTransactions vTxid) (height pos : Nat)
    (low : height < treeHeight nTransactions)
    (inside : pos < calcTreeWidth nTransactions (height + 1)) :
    pos * 2 < calcTreeWidth nTransactions height := by
  have heights := counts.height_le.1
  rw [counts.width (fun a _ => a) (height + 1) (by omega), Merkle.above,
    Merkle.level_length] at inside
  rw [counts.width (fun a _ => a) height (by omega)]
  omega

/-- A node has ids below it exactly when the level reaches that far. -/
theorem Counts.inside_iff (counts : Counts nTransactions vTxid) (height pos : Nat)
    (low : height ≤ treeHeight nTransactions) :
    pos < calcTreeWidth nTransactions height ↔ pos * 2 ^ height < vTxid.length := by
  have heights := counts.height_le.1
  have positive : 0 < 2 ^ height := Nat.two_pow_pos height
  rw [counts.width (fun a _ => a) height (by omega), Merkle.above_length, ← Nat.succ_le_iff,
    Nat.le_div_iff_mul_le positive, Nat.succ_mul]
  omega

theorem traverseAndExtract_built (counts : Counts nTransactions vTxid) (distinct : vTxid.Nodup)
    (free : CollisionFree hash vTxid) (vMatch : List Bool) (mask : vMatch.length = vTxid.length)
    (tree : CPartialMerkleTree) (count : tree.nTransactions = nTransactions) (height pos : Nat)
    (low : height ≤ treeHeight nTransactions) (inside : pos < calcTreeWidth nTransactions height)
    (state : Extraction)
    (bits : (traverseAndBuild hash nTransactions vTxid vMatch height pos).1 <+:
      tree.vBits.drop state.nBitsUsed)
    (hashes : (traverseAndBuild hash nTransactions vTxid vMatch height pos).2 <+:
      tree.vHash.drop state.nHashUsed) :
    traverseAndExtract hash tree height pos state =
      (RoiCoin.calcHash hash nTransactions vTxid height pos,
        state.advance (traverseAndBuild hash nTransactions vTxid vMatch height pos).1.length
          (traverseAndBuild hash nTransactions vTxid vMatch height pos).2.length
          (matchedTxids (below height pos (vTxid.zip vMatch)))) := by
  induction height generalizing pos state with
  | zero =>
      rw [traverseAndBuild] at bits hashes ⊢
      have txid := counts.calcHash hash 0 pos low inside
      have in_mask : pos < vMatch.length := by
        rw [mask]
        exact (List.getElem?_eq_some_iff.mp txid).1
      have entry : (vTxid.zip vMatch)[pos]? =
          some (RoiCoin.calcHash hash nTransactions vTxid 0 pos, vMatch[pos]) := by
        rw [List.getElem?_zip_eq_some]
        exact ⟨txid, List.getElem?_eq_getElem in_mask⟩
      have matched := counts.parentOfMatch vMatch mask 0 pos
      rw [below_leaf pos _ _ entry] at matched ⊢
      rw [traverseAndExtract, nextBit_drop tree state _ [] bits]
      dsimp only
      rw [storedHash_drop tree (state.advance 1 0 []) _ _ hashes, Extraction.advance_advance, matched]
      cases value : vMatch[pos] <;> simp [matchedTxids]
  | succ height ih =>
      rw [traverseAndBuild] at bits hashes ⊢
      have matched := counts.parentOfMatch vMatch mask (height + 1) pos
      split_ifs at bits hashes ⊢ with unmatched second
      · rw [traverseAndExtract, nextBit_drop tree state _ [] bits]
        dsimp only
        rw [storedHash_drop tree (state.advance 1 0 []) _ _ hashes, Extraction.advance_advance,
          matchedTxids_none _ (matched ▸ unmatched)]
        rfl
      · have first := counts.half height pos (by omega) inside
        obtain ⟨bits_left, bits_right⟩ := drop_append _ _ _ _ (drop_cons _ _ _ _ bits).2
        obtain ⟨hashes_left, hashes_right⟩ := drop_append _ _ _ _ hashes
        have left := ih (pos * 2) (by omega) first (state.advance 1 0 []) bits_left hashes_left
        have right := ih (pos * 2 + 1) (by omega) second
          ((state.advance 1 0 []).advance _ _
            (matchedTxids (below height (pos * 2) (vTxid.zip vMatch)))) bits_right hashes_right
        have differ := counts.siblings distinct free height pos (by omega) second
        rw [traverseAndExtract, nextBit_drop tree state _ _ bits]
        dsimp only
        rw [count, if_pos second, left]
        dsimp only
        rw [right]
        dsimp only
        rw [if_neg differ, Extraction.advance_advance, Extraction.advance_advance,
          RoiCoin.calcHash, if_pos second, below_succ, matchedTxids_append, List.length_cons,
          List.length_append, List.length_append]
        rw [List.nil_append, Nat.zero_add, Nat.add_comm 1]
      · have first := counts.half height pos (by omega) inside
        have left := ih (pos * 2) (by omega) first (state.advance 1 0 []) (drop_cons _ _ _ _ bits).2
          hashes
        have nothing : below height (pos * 2 + 1) (vTxid.zip vMatch) = [] := by
          apply below_beyond
          rw [counts.inside_iff height _ (by omega)] at second
          rw [List.length_zip]
          omega
        rw [traverseAndExtract, nextBit_drop tree state _ _ bits]
        dsimp only
        rw [count, if_neg second, left]
        dsimp only
        rw [Extraction.advance_advance, RoiCoin.calcHash, if_neg second, below_succ, nothing,
          List.append_nil, List.length_cons]
        rw [List.nil_append, Nat.zero_add, Nat.add_comm 1]

/-! ## Sizes -/

theorem traverseAndBuild_hashes (hash : Uint256 → Uint256 → Uint256)
    (counts : Counts nTransactions vTxid) (vMatch : List Bool)
    (height pos : Nat) (low : height ≤ treeHeight nTransactions)
    (inside : pos < calcTreeWidth nTransactions height) :
    (traverseAndBuild hash nTransactions vTxid vMatch height pos).2.length ≤
      (below height pos vTxid).length := by
  have single : 1 ≤ (below height pos vTxid).length := by
    have reach := (counts.inside_iff height pos low).mp inside
    have positive : 0 < 2 ^ height := Nat.two_pow_pos height
    rw [below, List.length_take, List.length_drop]
    omega
  induction height generalizing pos with
  | zero => exact single
  | succ height ih =>
      rw [traverseAndBuild]
      have first := counts.half height pos (by omega) inside
      have left_single : ∀ pos', pos' < calcTreeWidth nTransactions height →
          1 ≤ (below height pos' vTxid).length := by
        intro pos' reached
        have reach := (counts.inside_iff height pos' (by omega)).mp reached
        have positive : 0 < 2 ^ height := Nat.two_pow_pos height
        rw [below, List.length_take, List.length_drop]
        omega
      split_ifs with unmatched second
      · exact single
      · rw [below_succ, List.length_append, List.length_append]
        have left := ih (pos * 2) (by omega) first (left_single _ first)
        have right := ih (pos * 2 + 1) (by omega) second (left_single _ second)
        omega
      · rw [below_succ, List.length_append]
        have left := ih (pos * 2) (by omega) first (left_single _ first)
        exact Nat.le_add_right_of_le left

theorem traverseAndBuild_bits (hash : Uint256 → Uint256 → Uint256) (nTransactions : BitVec 32)
    (vTxid : List Uint256) (vMatch : List Bool) (height pos : Nat) :
    (traverseAndBuild hash nTransactions vTxid vMatch height pos).2.length ≤
        (traverseAndBuild hash nTransactions vTxid vMatch height pos).1.length ∧
      (traverseAndBuild hash nTransactions vTxid vMatch height pos).1.length < 2 ^ (height + 1) := by
  induction height generalizing pos with
  | zero => exact ⟨le_rfl, Nat.one_lt_two⟩
  | succ height ih =>
      have left := ih (pos * 2)
      have right := ih (pos * 2 + 1)
      have double : 2 ^ (height + 1 + 1) = 2 ^ (height + 1) + 2 ^ (height + 1) := by
        rw [Nat.pow_succ, Nat.mul_two]
      have positive : 0 < 2 ^ (height + 1) := Nat.two_pow_pos _
      rw [traverseAndBuild]
      split_ifs with unmatched second
      · simp only [List.length_cons, List.length_nil]
        omega
      · simp only [List.length_cons, List.length_append]
        omega
      · simp only [List.length_cons]
        omega

theorem Counts.below_top {α : Type} (counts : Counts nTransactions vTxid) (entries : List α)
    (size : entries.length = vTxid.length) :
    below (treeHeight nTransactions) 0 entries = entries := by
  have only := counts.height_le.2.1
  have reach : ¬ 1 * 2 ^ treeHeight nTransactions < vTxid.length := by
    rw [← counts.inside_iff _ _ le_rfl]
    omega
  rw [below, Nat.zero_mul, List.drop_zero, List.take_of_length_le (by omega)]

theorem Counts.top (counts : Counts nTransactions vTxid) :
    0 < calcTreeWidth nTransactions (treeHeight nTransactions) := by
  rw [counts.inside_iff _ _ le_rfl, Nat.zero_mul]
  exact counts.positive

theorem counts_ofNat (vTxid : List Uint256) (nonempty : vTxid ≠ [])
    (small : vTxid.length ≤ maxBlockSize / 60) :
    Counts (BitVec.ofNat 32 vTxid.length) vTxid := by
  have bound : maxBlockSize / 60 = 16666 := by decide
  refine ⟨?_, nonempty, small⟩
  rw [BitVec.toNat_ofNat, Nat.mod_eq_of_lt (by omega)]

/-- A traversal that uses up the bits and the hashes passes every check. -/
theorem extractMatches_passes (counts : Counts nTransactions vTxid) (tree : CPartialMerkleTree)
    (count : tree.nTransactions = nTransactions) (fresh : tree.fBad = false)
    (few : tree.vHash.length ≤ vTxid.length) (bits : tree.vHash.length ≤ tree.vBits.length)
    (root : Uint256) (state : Extraction)
    (run : traverseAndExtract hash tree (treeHeight nTransactions) 0 ⟨0, 0, [], false⟩ =
      (root, state)) (good : state.fBad = false)
    (used_bits : (state.nBitsUsed + 7) / 8 = (tree.vBits.length + 7) / 8)
    (used_hashes : state.nHashUsed = tree.vHash.length) :
    tree.extractMatches hash = (root, state) := by
  have some_transactions : tree.nTransactions ≠ 0 := by
    intro zero
    have number := counts.count
    rw [← count, zero] at number
    exact absurd number.symm (Nat.ne_of_gt counts.positive)
  have not_many : ¬ tree.nTransactions.toNat > maxBlockSize / 60 := by
    rw [count, counts.count]
    exact Nat.not_lt.mpr counts.small
  have not_long : ¬ tree.vHash.length > tree.nTransactions.toNat := by
    rw [count, counts.count]
    exact Nat.not_lt.mpr few
  rw [CPartialMerkleTree.extractMatches, if_neg some_transactions, if_neg not_many,
    if_neg not_long, if_neg (Nat.not_lt.mpr bits), fresh, count, run]
  dsimp only
  rw [good, if_neg Bool.false_ne_true, if_neg (not_not_intro used_bits),
    if_neg (not_not_intro used_hashes)]

/-- A tree built from a block, with its bits filled up, gives the root and the matches. -/
theorem extractMatches_built (nonempty : vTxid ≠ []) (small : vTxid.length ≤ maxBlockSize / 60)
    (distinct : vTxid.Nodup) (free : CollisionFree hash vTxid) (vMatch : List Bool)
    (mask : vMatch.length = vTxid.length) (padding : List Bool) (tree : CPartialMerkleTree)
    (built : tree = CPartialMerkleTree.build hash vTxid vMatch) (few : padding.length < 8)
    (whole : (tree.vBits.length + padding.length) % 8 = 0) :
    CPartialMerkleTree.extractMatches hash
        { tree with vBits := tree.vBits ++ padding, fBad := false } =
      ((buildMerkleTree hash vTxid.length vTxid).1,
        ⟨tree.vBits.length, tree.vHash.length, matchedTxids (vTxid.zip vMatch), false⟩) := by
  have counts := counts_ofNat vTxid nonempty small
  have zipped : (vTxid.zip vMatch).length = vTxid.length := by
    rw [List.length_zip]
    omega
  have hash_sizes := traverseAndBuild_hashes hash counts vMatch _ 0 le_rfl counts.top
  have bit_sizes := traverseAndBuild_bits hash (BitVec.ofNat 32 vTxid.length) vTxid vMatch
    (treeHeight (BitVec.ofNat 32 vTxid.length)) 0
  have run := traverseAndExtract_built counts distinct free vMatch mask
    { tree with vBits := tree.vBits ++ padding, fBad := false } (by rw [built]; rfl) _ 0 le_rfl counts.top
    ⟨0, 0, [], false⟩ (by rw [built]; exact List.prefix_append _ _)
    (by rw [built]; exact List.prefix_refl _)
  rw [counts.root, counts.below_top _ zipped] at run
  rw [counts.below_top vTxid rfl] at hash_sizes
  subst built
  apply extractMatches_passes counts _ rfl rfl hash_sizes
  · exact Nat.le_trans bit_sizes.1 (List.sublist_append_left _ padding).length_le
  · rw [run, Extraction.advance]
    simp only [Nat.zero_add, List.nil_append]
    rfl
  · rfl
  · rw [List.length_append]
    dsimp only
    omega
  · rfl

/-! ## What any tree yields -/

theorem nextBit_some (tree : CPartialMerkleTree) (state next : Extraction) (fParentOfMatch : Bool)
    (found : tree.nextBit state = some (fParentOfMatch, next)) : next = state.advance 1 0 [] := by
  rw [CPartialMerkleTree.nextBit, Option.map_eq_some_iff] at found
  obtain ⟨bit, _, equal⟩ := found
  rw [← (Prod.mk.inj equal).2, Extraction.advance, List.append_nil]
  rfl

theorem storedHash_cases (tree : CPartialMerkleTree) (fMatched : Bool) (state : Extraction) :
    tree.storedHash fMatched state = (0, state.bad) ∨
      ∃ stored, tree.storedHash fMatched state =
        (stored, state.advance 0 1 (if fMatched then [stored] else [])) := by
  rw [CPartialMerkleTree.storedHash]
  cases tree.vHash[state.nHashUsed]? with
  | none => exact .inl rfl
  | some stored =>
      right
      refine ⟨stored, ?_⟩
      cases fMatched <;> simp [Extraction.advance]

theorem storedHash_bad (tree : CPartialMerkleTree) (fMatched : Bool) (state : Extraction)
    (bad : state.fBad = true) : (tree.storedHash fMatched state).2.fBad = true := by
  rcases storedHash_cases tree fMatched state with overflow | ⟨stored, found⟩
  · rw [overflow]
    rfl
  · rw [found]
    exact bad

/-- A failure is never taken back. -/
theorem traverseAndExtract_bad (tree : CPartialMerkleTree) (height pos : Nat) (state : Extraction)
    (bad : state.fBad = true) : (traverseAndExtract hash tree height pos state).2.fBad = true := by
  induction height generalizing pos state with
  | zero =>
      rw [traverseAndExtract]
      cases found : tree.nextBit state with
      | none => rfl
      | some result =>
          obtain ⟨bit, next⟩ := result
          exact storedHash_bad tree bit next (nextBit_some tree state next bit found ▸ bad)
  | succ height ih =>
      rw [traverseAndExtract]
      cases found : tree.nextBit state with
      | none => rfl
      | some result =>
          obtain ⟨bit, next⟩ := result
          have next_bad : next.fBad = true := nextBit_some tree state next bit found ▸ bad
          cases bit with
          | false => exact storedHash_bad tree false next next_bad
          | true =>
              have left_bad := ih (pos * 2) next next_bad
              have right_bad := ih (pos * 2 + 1) _ left_bad
              dsimp only
              split_ifs with second equal
              · rfl
              · exact right_bad
              · exact left_bad

theorem Counts.children (counts : Counts nTransactions vTxid) (free : CollisionFree hash vTxid)
    (height pos : Nat) (low : height < treeHeight nTransactions)
    (first : pos * 2 < calcTreeWidth nTransactions height) (left right : Uint256)
    (same : hash left right = RoiCoin.calcHash hash nTransactions vTxid (height + 1) pos) :
    left = RoiCoin.calcHash hash nTransactions vTxid height (pos * 2) ∧
      (pos * 2 + 1 < calcTreeWidth nTransactions height →
        right = RoiCoin.calcHash hash nTransactions vTxid height (pos * 2 + 1)) := by
  have heights := counts.height_le.1
  have node := counts.calcHash hash height (pos * 2) (by omega) first
  have pair := Merkle.pairs_getElem? _ pos _ node
  have member := Merkle.pairs_above_hashed hash vTxid height
    (fun lower small => counts.long hash lower (by omega)) _ (List.mem_of_getElem? pair)
  rw [RoiCoin.calcHash] at same
  by_cases second : pos * 2 + 1 < calcTreeWidth nTransactions height
  · rw [counts.calcHash hash height (pos * 2 + 1) (by omega) second, Option.getD_some] at member
    rw [if_pos second] at same
    obtain ⟨equal_left, equal_right⟩ := Prod.mk.inj (free _ member left right same)
    exact ⟨equal_left, fun _ => equal_right⟩
  · rw [List.getElem?_eq_none, Option.getD_none] at member
    · rw [if_neg second] at same
      exact ⟨(Prod.mk.inj (free _ member left right same)).1, fun reached => absurd reached second⟩
    · rw [← counts.width hash height (by omega)]
      omega

/-- Where a traversal computes a node of the block's tree, its matches lie below that node. -/
theorem traverseAndExtract_sound (counts : Counts nTransactions vTxid)
    (free : CollisionFree hash vTxid) (tree : CPartialMerkleTree)
    (count : tree.nTransactions = nTransactions) (height pos : Nat)
    (low : height ≤ treeHeight nTransactions) (inside : pos < calcTreeWidth nTransactions height)
    (state : Extraction) (good : (traverseAndExtract hash tree height pos state).2.fBad = false)
    (same : (traverseAndExtract hash tree height pos state).1 =
      RoiCoin.calcHash hash nTransactions vTxid height pos) :
    ∃ matched : List Uint256, matched.Sublist (below height pos vTxid) ∧
      (traverseAndExtract hash tree height pos state).2.vMatch = state.vMatch ++ matched := by
  induction height generalizing pos state with
  | zero =>
      rw [traverseAndExtract] at good same ⊢
      cases found : tree.nextBit state with
      | none =>
          rw [found] at good
          cases good
      | some result =>
          obtain ⟨bit, next⟩ := result
          rw [found] at good same
          dsimp only at good same ⊢
          rcases storedHash_cases tree bit next with overflow | ⟨stored, read⟩
          · rw [overflow] at good
            cases good
          · rw [read] at same ⊢
            dsimp only at same
            rw [nextBit_some tree state next bit found, Extraction.advance_advance,
              below_leaf pos vTxid stored (same ▸ counts.calcHash hash 0 pos low inside)]
            cases bit with
            | true => exact ⟨[stored], List.Sublist.refl _, rfl⟩
            | false => exact ⟨[], List.nil_sublist _, rfl⟩
  | succ height ih =>
      rw [traverseAndExtract] at good same ⊢
      cases found : tree.nextBit state with
      | none =>
          rw [found] at good
          cases good
      | some result =>
          obtain ⟨bit, next⟩ := result
          have next_matches : next.vMatch = state.vMatch := by
            rw [nextBit_some tree state next bit found]
            exact List.append_nil _
          rw [found] at good same
          cases bit with
          | false =>
              dsimp only at good same ⊢
              rcases storedHash_cases tree false next with overflow | ⟨stored, read⟩
              · rw [overflow] at good
                cases good
              · rw [read]
                exact ⟨[], List.nil_sublist _, congrArg (· ++ []) next_matches⟩
          | true =>
              have first := counts.half height pos (by omega) inside
              dsimp only at good same ⊢
              rw [count] at good same ⊢
              rw [below_succ]
              split_ifs at good same ⊢ with second equal
              · cases good
              · have left_good :
                    (traverseAndExtract hash tree height (pos * 2) next).2.fBad = false := by
                  cases status : (traverseAndExtract hash tree height (pos * 2) next).2.fBad with
                  | false => rfl
                  | true => rw [traverseAndExtract_bad tree height _ _ status] at good; cases good
                have nodes := counts.children free height pos (by omega) first _ _ same
                obtain ⟨left, left_sub, left_matches⟩ :=
                  ih (pos * 2) (by omega) first next left_good nodes.1
                obtain ⟨right, right_sub, right_matches⟩ :=
                  ih (pos * 2 + 1) (by omega) second _ good (nodes.2 second)
                refine ⟨left ++ right, left_sub.append right_sub, ?_⟩
                rw [right_matches, left_matches, next_matches, List.append_assoc]
              · have nodes := counts.children free height pos (by omega) first _ _ same
                obtain ⟨left, left_sub, left_matches⟩ :=
                  ih (pos * 2) (by omega) first next good nodes.1
                refine ⟨left, left_sub.trans (List.sublist_append_left _ _), ?_⟩
                rw [left_matches, next_matches]

/-- A root other than zero is only returned by a traversal without failures. -/
theorem extractMatches_root (tree : CPartialMerkleTree)
    (succeeded : (tree.extractMatches hash).1 ≠ 0) :
    tree.nTransactions ≠ 0 ∧ tree.nTransactions.toNat ≤ maxBlockSize / 60 ∧
      tree.extractMatches hash = traverseAndExtract hash tree (treeHeight tree.nTransactions) 0
        ⟨0, 0, [], tree.fBad⟩ ∧
      (tree.extractMatches hash).2.fBad = false := by
  rw [CPartialMerkleTree.extractMatches] at succeeded ⊢
  generalize traverseAndExtract hash tree (treeHeight tree.nTransactions) 0
    ⟨0, 0, [], tree.fBad⟩ = result at succeeded ⊢
  obtain ⟨root, state⟩ := result
  dsimp only at succeeded ⊢
  split_ifs at succeeded ⊢ with none_there many long short bad bits hashes
  · exact absurd rfl succeeded
  · exact absurd rfl succeeded
  · exact absurd rfl succeeded
  · exact absurd rfl succeeded
  · exact absurd rfl succeeded
  · exact absurd rfl succeeded
  · exact absurd rfl succeeded
  · exact ⟨none_there, by omega, rfl, by simpa using bad⟩

theorem extractMatches_sound (free : CollisionFree hash vTxid) (tree : CPartialMerkleTree)
    (count : tree.nTransactions.toNat = vTxid.length)
    (same : (tree.extractMatches hash).1 = (buildMerkleTree hash vTxid.length vTxid).1)
    (nonzero : (buildMerkleTree hash vTxid.length vTxid).1 ≠ 0) :
    (tree.extractMatches hash).2.vMatch.Sublist vTxid := by
  obtain ⟨some_there, few, run, good⟩ := extractMatches_root tree (same ▸ nonzero)
  have nonempty : vTxid ≠ [] := by
    intro empty
    apply some_there
    apply BitVec.eq_of_toNat_eq
    rw [count, empty]
    rfl
  have counts : Counts tree.nTransactions vTxid := ⟨count, nonempty, count ▸ few⟩
  rw [run] at good same ⊢
  rw [← counts.root hash] at same
  obtain ⟨matched, sub, matches_are⟩ :=
    traverseAndExtract_sound counts free tree rfl _ 0 le_rfl counts.top _ good same
  rw [counts.below_top vTxid rfl] at sub
  rwa [matches_are]

end

/-- A tree that is built, written and read back gives the root and the matched ids in order;
any tree that gives the root of the block, unless that is the zero of a failure, only reports ids
of the block, in their order. -/
theorem partial_merkle_trees (hash : Uint256 → Uint256 → Uint256) (vTxid : List Uint256)
    (free : CollisionFree hash vTxid) :
    (∀ vMatch : List Bool, vTxid ≠ [] → vTxid.length ≤ maxBlockSize / 60 → vTxid.Nodup →
      vMatch.length = vTxid.length → ∀ rest, ∃ tree,
        readPartialMerkleTree.run
            (writePartialMerkleTree (CPartialMerkleTree.build hash vTxid vMatch) ++ rest) =
          some (tree, rest) ∧
        (tree.extractMatches hash).1 = (buildMerkleTree hash vTxid.length vTxid).1 ∧
        (tree.extractMatches hash).2.vMatch = matchedTxids (vTxid.zip vMatch)) ∧
    ∀ tree : CPartialMerkleTree, tree.nTransactions.toNat = vTxid.length →
      (buildMerkleTree hash vTxid.length vTxid).1 ≠ 0 →
      (tree.extractMatches hash).1 = (buildMerkleTree hash vTxid.length vTxid).1 →
        (tree.extractMatches hash).2.vMatch.Sublist vTxid := by
  constructor
  · intro vMatch nonempty small distinct mask rest
    have counts := counts_ofNat vTxid nonempty small
    have heights := counts.height_le.1
    have bound : maxBlockSize / 60 = 16666 := by decide
    have bit_sizes := traverseAndBuild_bits hash (BitVec.ofNat 32 vTxid.length) vTxid vMatch
      (treeHeight (BitVec.ofNat 32 vTxid.length)) 0
    have power : 2 ^ (treeHeight (BitVec.ofNat 32 vTxid.length) + 1) ≤ 2 ^ 16 :=
      Nat.pow_le_pow_right (by decide) (by omega)
    have limit : maxSize = 33554432 := rfl
    generalize built : CPartialMerkleTree.build hash vTxid vMatch = tree
    have bits : tree.vBits.length < 2 ^ 16 := by
      rw [← built]
      exact Nat.lt_of_lt_of_le bit_sizes.2 power
    have hashes : tree.vHash.length ≤ tree.vBits.length := by
      rw [← built]
      exact bit_sizes.1
    have read := reads_partialMerkleTree tree (by omega) (by omega)
    rw [unpack_packBits] at read
    refine ⟨_, read rest, ?_⟩
    have extracted := extractMatches_built nonempty small distinct free vMatch mask
      (List.replicate (8 * ((tree.vBits.length + 7) / 8) - tree.vBits.length) false) tree built.symm
      (by rw [List.length_replicate]; omega) (by rw [List.length_replicate]; omega)
    rw [extracted]
    exact ⟨rfl, rfl⟩
  · intro tree count nonzero same
    exact extractMatches_sound free tree count same nonzero

/-- A hash for which only the pair of the ids 1 and 2 gives 3. -/
def pairHash (a b : Uint256) : Uint256 := if (a, b) = (1, 2) then 3 else 0

theorem partial_merkle_trees_pair :
    (∃ tree, readPartialMerkleTree.run
        (writePartialMerkleTree (CPartialMerkleTree.build pairHash [1, 2] [false, true]) ++ []) =
          some (tree, []) ∧
      (tree.extractMatches pairHash).1 = (buildMerkleTree pairHash 2 [1, 2]).1 ∧
      (tree.extractMatches pairHash).2.vMatch = matchedTxids ([1, 2].zip [false, true])) ∧
    ((⟨2, [true, false, true], [1, 2], false⟩ : CPartialMerkleTree).extractMatches
      pairHash).2.vMatch.Sublist [1, 2] := by
  have free : CollisionFree pairHash [1, 2] := by
    intro pair member a b same
    rw [Merkle.hashed_level pairHash _ (by decide), Merkle.hashed_short pairHash _ (by decide),
      List.append_nil, Merkle.pairs, Merkle.pairs, List.mem_singleton] at member
    subst member
    by_contra other
    rw [pairHash, if_neg other] at same
    exact absurd same (by decide)
  constructor
  · exact (partial_merkle_trees pairHash [1, 2] free).1 [false, true] (List.cons_ne_nil _ _)
      (by decide) (by decide) rfl []
  · exact (partial_merkle_trees pairHash [1, 2] free).2 _ rfl (by decide +kernel)
      (by decide +kernel)

/-- One id of its own, with a bit more than the padding explains. -/
def forgedTree : CPartialMerkleTree :=
  ⟨1, [true, false, false, false, false, false, false, false, false], [7], false⟩

/-- With a hash that collides inside the tree the extraction fails, and a failed extraction gives
the root of a block whose only id is zero, after it has reported an id of its own. -/
theorem partial_merkle_trees_limits :
    ((readPartialMerkleTree.run (writePartialMerkleTree
        (CPartialMerkleTree.build (fun _ _ => 5) [1, 2, 3, 4] [true, false, false, false]))).map
          fun read => (read.1.extractMatches fun _ _ => 5).1) = some 0 ∧
      (buildMerkleTree (fun _ _ => 5) 4 [1, 2, 3, 4]).1 = 5 ∧
      CollisionFree pairHash [0] ∧
      (forgedTree.extractMatches pairHash).1 = (buildMerkleTree pairHash 1 [0]).1 ∧
      ¬ (forgedTree.extractMatches pairHash).2.vMatch.Sublist [0] := by
  refine ⟨by decide +kernel, by decide +kernel, ?_, by decide +kernel, by decide +kernel⟩
  intro pair member
  rw [Merkle.hashed_short pairHash _ (by decide)] at member
  cases member

end RoiCoin
