import RoiCoin.Mempool

/-! The indices and the size counter of the memory pool, after any sequence of its operations. -/

namespace RoiCoin

namespace CTxMemPool

variable (getHash : CTransaction → Uint256)

/-- Every input of every pool transaction has its entry, there is no other entry, and the counter
is the sum of the sizes. -/
structure Indexed (pool : CTxMemPool) : Prop where
  hashes : (pool.mapTx.map getHash).Nodup
  entered : ∀ tx ∈ pool.mapTx, ∀ i txin, tx.vin[i]? = some txin →
    pool.mapNextTx txin.prevout = some ⟨tx, i⟩
  owned : ∀ out inPoint, pool.mapNextTx out = some inPoint →
    inPoint.ptx ∈ pool.mapTx ∧ (inPoint.ptx.vin[inPoint.n]?).map CTxIn.prevout = some out
  total : pool.totalTxSize = (pool.mapTx.map CTransaction.serializeSize).sum

theorem indexed_empty : empty.Indexed getHash := by
  refine ⟨List.nodup_nil, fun _ member => absurd member List.not_mem_nil, ?_, rfl⟩
  intro out inPoint marked
  cases marked

theorem Indexed.same {pool : CTxMemPool} (indexed : pool.Indexed getHash)
    (first second : CTransaction) (member : first ∈ pool.mapTx) (member' : second ∈ pool.mapTx)
    (same : getHash first = getHash second) : first = second :=
  List.inj_on_of_nodup_map indexed.hashes member member' same

theorem Indexed.consistent {pool : CTxMemPool} (indexed : pool.Indexed getHash) :
    pool.Consistent getHash := by
  refine ⟨fun first member second member' same =>
    indexed.same getHash first second member member' same, ?_⟩
  intro tx member txin input
  obtain ⟨i, position⟩ := List.getElem?_of_mem input
  exact ⟨i, indexed.entered tx member i txin position⟩

/-- No two transactions of the pool spend the same outpoint. -/
theorem Indexed.single_spend {pool : CTxMemPool} (indexed : pool.Indexed getHash)
    (first second : CTransaction) (member : first ∈ pool.mapTx) (member' : second ∈ pool.mapTx)
    (a b : CTxIn) (input : a ∈ first.vin) (input' : b ∈ second.vin)
    (same : a.prevout = b.prevout) : first = second := by
  obtain ⟨i, position⟩ := List.getElem?_of_mem input
  obtain ⟨j, position'⟩ := List.getElem?_of_mem input'
  have one := indexed.entered first member i a position
  have other := indexed.entered second member' j b position'
  rw [same, other] at one
  exact (congrArg CInPoint.ptx (Option.some.inj one)).symm

/-! ## Adding -/

theorem markInputs_position (tx : CTransaction) (start : Nat) (vin : List CTxIn)
    (next : COutPoint → Option CInPoint) (distinct : (vin.map CTxIn.prevout).Nodup) (i : Nat)
    (txin : CTxIn) (position : vin[i]? = some txin) :
    markInputs tx start next vin txin.prevout = some ⟨tx, start + i⟩ := by
  induction vin generalizing start next i with
  | nil => cases position
  | cons first vin ih =>
      rw [List.map_cons, List.nodup_cons] at distinct
      rw [markInputs]
      cases i with
      | zero =>
          cases position
          rw [markInputs_other, Function.update_self, Nat.add_zero]
          intro other member same
          exact distinct.1 (List.mem_map.mpr ⟨other, member, same⟩)
      | succ i =>
          rw [ih (start + 1) _ distinct.2 i position, Nat.add_assoc, Nat.add_comm 1]

/-- An entry after the inputs were marked is one of them or was there before. -/
theorem markInputs_owned (tx : CTransaction) (start : Nat) (vin : List CTxIn)
    (next : COutPoint → Option CInPoint) (out : COutPoint) (inPoint : CInPoint)
    (marked : markInputs tx start next vin out = some inPoint) :
    (inPoint.ptx = tx ∧ ∃ i, inPoint.n = start + i ∧ (vin[i]?).map CTxIn.prevout = some out) ∨
      next out = some inPoint := by
  induction vin generalizing start next with
  | nil => exact .inr marked
  | cons first vin ih =>
      rw [markInputs] at marked
      rcases ih (start + 1) _ marked with ⟨own, i, number, position⟩ | before
      · left
        exact ⟨own, i + 1, by omega, position⟩
      · by_cases here : out = first.prevout
        · left
          rw [here, Function.update_self, Option.some.injEq] at before
          rw [← before, here]
          exact ⟨rfl, 0, rfl, rfl⟩
        · right
          rwa [Function.update_of_ne here] at before

/-- The test of `AcceptToMemoryPool` for conflicts, on a transaction whose inputs differ. -/
structure Admitted (pool : CTxMemPool) (tx : CTransaction) : Prop where
  new : pool.lookup getHash (getHash tx) = none
  free : ∀ txin ∈ tx.vin, pool.mapNextTx txin.prevout = none
  inputs : (tx.vin.map CTxIn.prevout).Nodup

theorem indexed_add (pool : CTxMemPool) (tx : CTransaction) (indexed : pool.Indexed getHash)
    (admitted : Admitted getHash pool tx) : (pool.addUnchecked getHash tx).Indexed getHash := by
  have others := (lookup_none getHash pool (getHash tx)).mp admitted.new
  have listed : (pool.addUnchecked getHash tx).mapTx = tx :: pool.mapTx := by
    rw [addUnchecked, List.filter_eq_self.mpr]
    intro other member
    exact bne_iff_ne.mpr (others other member)
  have marks : (pool.addUnchecked getHash tx).mapNextTx =
      markInputs tx 0 pool.mapNextTx tx.vin := rfl
  refine ⟨?_, ?_, ?_, ?_⟩
  · rw [listed, List.map_cons, List.nodup_cons]
    refine ⟨?_, indexed.hashes⟩
    intro member
    obtain ⟨other, there, same⟩ := List.mem_map.mp member
    exact others other there same
  · intro other member i txin position
    rw [listed, List.mem_cons] at member
    rcases member with rfl | before
    · rw [marks, markInputs_position other 0 other.vin _ admitted.inputs i txin position,
        Nat.zero_add]
    · have entry := indexed.entered other before i txin position
      rw [marks, markInputs_other, entry]
      intro own input same
      rw [← same, admitted.free own input] at entry
      cases entry
  · intro out inPoint marked
    rw [listed]
    rcases markInputs_owned tx 0 tx.vin pool.mapNextTx out inPoint marked with
      ⟨own, i, number, position⟩ | before
    · rw [own, number, Nat.zero_add]
      exact ⟨List.mem_cons_self, position⟩
    · have there := indexed.owned out inPoint before
      exact ⟨List.mem_cons_of_mem tx there.1, there.2⟩
  · rw [listed, List.map_cons, List.sum_cons, addUnchecked, indexed.total, Nat.add_comm]

/-! ## Removing -/

theorem clearInputs_self (vin : List CTxIn) (next : COutPoint → Option CInPoint) (out : COutPoint)
    (member : out ∈ vin.map CTxIn.prevout) : clearInputs next vin out = none := by
  induction vin generalizing next with
  | nil => cases member
  | cons first vin ih =>
      rw [clearInputs]
      by_cases later : out ∈ vin.map CTxIn.prevout
      · exact ih _ later
      · have here : out = first.prevout := (List.mem_cons.mp member).resolve_right later
        rw [clearInputs_other, here, Function.update_self]
        intro other input same
        exact later (List.mem_map.mpr ⟨other, input, same⟩)

/-- Erasing a hash from transactions with distinct hashes takes one size away. -/
theorem sum_erase (list : List CTransaction) (gone : CTransaction)
    (distinct : (list.map getHash).Nodup) (member : gone ∈ list) :
    gone.serializeSize +
        ((list.filter fun other => getHash other != getHash gone).map CTransaction.serializeSize).sum =
      (list.map CTransaction.serializeSize).sum := by
  induction list with
  | nil => cases member
  | cons tx list ih =>
      rw [List.map_cons, List.nodup_cons] at distinct
      rw [List.map_cons, List.sum_cons]
      rcases List.mem_cons.mp member with rfl | later
      · have kept : (list.filter fun other => getHash other != getHash gone) = list := by
          rw [List.filter_eq_self]
          intro other there
          rw [bne_iff_ne]
          intro same
          exact distinct.1 (List.mem_map.mpr ⟨other, there, same⟩)
        rw [List.filter_cons_of_neg (by simp), kept]
      · have different : (getHash tx != getHash gone) = true := by
          rw [bne_iff_ne]
          intro same
          exact distinct.1 (List.mem_map.mpr ⟨gone, later, same.symm⟩)
        rw [List.filter_cons, if_pos different, List.map_cons, List.sum_cons,
          ← ih distinct.2 later]
        omega

theorem indexed_erase (pool : CTxMemPool) (gone : CTransaction) (indexed : pool.Indexed getHash)
    (member : gone ∈ pool.mapTx) : (pool.erase getHash gone).Indexed getHash := by
  have marks : (pool.erase getHash gone).mapNextTx = clearInputs pool.mapNextTx gone.vin := rfl
  refine ⟨?_, ?_, ?_, ?_⟩
  · exact indexed.hashes.sublist (List.filter_sublist.map getHash)
  · intro tx remains i txin position
    rw [mem_erase] at remains
    have entry := indexed.entered tx remains.1 i txin position
    rw [marks, clearInputs_other, entry]
    intro own input same
    have equal := indexed.single_spend getHash gone tx member remains.1 own txin input
      (List.mem_of_getElem? position) same
    exact remains.2 (congrArg getHash equal.symm)
  · intro out inPoint marked
    rw [marks] at marked
    by_cases cleared : out ∈ gone.vin.map CTxIn.prevout
    · rw [clearInputs_self _ _ _ cleared] at marked
      cases marked
    · rw [clearInputs_other _ _ _ fun txin input same =>
        cleared (List.mem_map.mpr ⟨txin, input, same⟩)] at marked
      have there := indexed.owned out inPoint marked
      refine ⟨?_, there.2⟩
      rw [mem_erase]
      refine ⟨there.1, fun same => ?_⟩
      -- an entry of the erased transaction would be one of its inputs
      rw [indexed.same getHash inPoint.ptx gone there.1 member same,
        Option.map_eq_some_iff] at there
      obtain ⟨txin, position, own⟩ := there.2
      exact cleared (List.mem_map.mpr ⟨txin, List.mem_of_getElem? position, own⟩)
  · have sizes := sum_erase getHash pool.mapTx gone indexed.hashes member
    rw [erase, indexed.total, ← sizes]
    exact Nat.add_sub_cancel_left _ _

/-- The loop of `remove` keeps the pool indexed, whatever is on its queue. -/
theorem indexed_removeLoop (fRecursive : Bool) (fuel : Nat) (txToRemove : List Uint256)
    (pool : CTxMemPool) (indexed : pool.Indexed getHash) :
    (removeLoop getHash fRecursive fuel txToRemove pool).Indexed getHash := by
  induction fuel generalizing txToRemove pool with
  | zero => exact indexed
  | succ fuel ih =>
      cases txToRemove with
      | nil => exact indexed
      | cons hash txToRemove =>
          rw [removeLoop]
          cases found : pool.lookup getHash hash with
          | none => exact ih txToRemove pool indexed
          | some tx =>
              have member := (lookup_some getHash pool hash tx found).1
              exact ih _ _ (indexed_erase getHash pool tx indexed member)

theorem indexed_remove (pool : CTxMemPool) (origTx : CTransaction) (fRecursive : Bool)
    (indexed : pool.Indexed getHash) : (pool.remove getHash origTx fRecursive).Indexed getHash :=
  indexed_removeLoop getHash fRecursive _ _ pool indexed

theorem indexed_removeConflict (tx : CTransaction) (pool : CTxMemPool) (txin : CTxIn)
    (indexed : pool.Indexed getHash) : (removeConflict getHash tx pool txin).Indexed getHash := by
  rw [removeConflict]
  cases pool.mapNextTx txin.prevout with
  | none => exact indexed
  | some inPoint =>
      dsimp only
      split
      · exact indexed_remove getHash pool inPoint.ptx true indexed
      · exact indexed

/-- A fold of operations that each keep the pool indexed keeps it indexed. -/
theorem indexed_foldl {α : Type} (operation : CTxMemPool → α → CTxMemPool) (list : List α)
    (pool : CTxMemPool) (indexed : pool.Indexed getHash)
    (keeps : ∀ pool a, pool.Indexed getHash → (operation pool a).Indexed getHash) :
    (list.foldl operation pool).Indexed getHash := by
  induction list generalizing pool with
  | nil => exact indexed
  | cons a list ih => exact ih (operation pool a) (keeps pool a indexed)

theorem indexed_removeConflicts (pool : CTxMemPool) (tx : CTransaction)
    (indexed : pool.Indexed getHash) : (pool.removeConflicts getHash tx).Indexed getHash :=
  indexed_foldl getHash _ tx.vin pool indexed fun pool txin indexed =>
    indexed_removeConflict getHash tx pool txin indexed

theorem indexed_removeForBlock (pool : CTxMemPool) (vtx : List CTransaction)
    (indexed : pool.Indexed getHash) : (pool.removeForBlock getHash vtx).Indexed getHash := by
  apply indexed_foldl getHash _ vtx pool indexed
  intro pool tx indexed
  exact indexed_removeConflicts getHash _ tx (indexed_remove getHash pool tx false indexed)

theorem indexed_removeCoinbaseSpends (pcoins : FlatView) (nMemPoolHeight : Int) (pool : CTxMemPool)
    (indexed : pool.Indexed getHash) :
    (pool.removeCoinbaseSpends getHash pcoins nMemPoolHeight).Indexed getHash :=
  indexed_foldl getHash _ _ pool indexed fun pool tx indexed =>
    indexed_remove getHash pool tx true indexed

/-! ## Chains of spending transactions -/

/-- The transaction spends an output of `parent`. -/
def Spends (parent tx : CTransaction) : Prop :=
  ∃ txin ∈ tx.vin, txin.prevout.hash = getHash parent ∧ txin.prevout.n.toNat < parent.vout.length

/-- A pool transaction that spends from `parent` directly or through others of the pool. -/
inductive Descends (pool : CTxMemPool) (parent : CTransaction) : CTransaction → Prop
  | child (tx : CTransaction) (member : tx ∈ pool.mapTx) (spends : Spends getHash parent tx) :
      Descends pool parent tx
  | later (between tx : CTransaction) (earlier : Descends pool parent between)
      (member : tx ∈ pool.mapTx) (spends : Spends getHash between tx) : Descends pool parent tx

theorem descends_none (pool : CTxMemPool) (parent : CTransaction)
    (childless : ∀ tx ∈ pool.mapTx, Childless getHash parent tx) (tx : CTransaction) :
    ¬ Descends getHash pool parent tx := by
  intro descends
  induction descends with
  | child tx member spends =>
      obtain ⟨txin, input, hash, within⟩ := spends
      have beyond := childless tx member txin input hash
      omega
  | later between tx earlier member spends ih => exact ih

/-- The transactions that a recursive removal takes out: those it erases, and the one it is called
with when the pool does not have it. -/
def Removed (pool : CTxMemPool) (origTx gone : CTransaction) : Prop :=
  (gone ∈ pool.mapTx ∧ gone ∉ (pool.remove getHash origTx true).mapTx) ∨
    (gone = origTx ∧ pool.lookup getHash (getHash origTx) = none)

theorem remove_descendants (pool : CTxMemPool) (consistent : pool.Consistent getHash)
    (origTx gone tx : CTransaction) (removed : Removed getHash pool origTx gone) :
    ¬ Descends getHash (pool.remove getHash origTx true) gone tx := by
  obtain ⟨evicted, orphans⟩ := remove_recursive getHash pool consistent origTx
  apply descends_none
  rcases removed with ⟨member, absent⟩ | ⟨rfl, outside⟩
  · exact evicted.childless gone member absent fun impossible => impossible
  · exact orphans outside

/-! ## Sequences of operations -/

inductive Operation where
  | addUnchecked (tx : CTransaction)
  | remove (origTx : CTransaction) (fRecursive : Bool)
  | removeConflicts (tx : CTransaction)
  | removeForBlock (vtx : List CTransaction)
  | removeCoinbaseSpends (pcoins : FlatView) (nMemPoolHeight : Int)
  | clear

def run (pool : CTxMemPool) : Operation → CTxMemPool
  | .addUnchecked tx => pool.addUnchecked getHash tx
  | .remove origTx fRecursive => pool.remove getHash origTx fRecursive
  | .removeConflicts tx => pool.removeConflicts getHash tx
  | .removeForBlock vtx => pool.removeForBlock getHash vtx
  | .removeCoinbaseSpends pcoins nMemPoolHeight =>
      pool.removeCoinbaseSpends getHash pcoins nMemPoolHeight
  | .clear => pool.clear

/-- Only what `AcceptToMemoryPool` lets through is added. -/
def Allowed (pool : CTxMemPool) : Operation → Prop
  | .addUnchecked tx => Admitted getHash pool tx
  | _ => True

def EveryAllowed (pool : CTxMemPool) : List Operation → Prop
  | [] => True
  | operation :: operations =>
      Allowed getHash pool operation ∧ EveryAllowed (pool.run getHash operation) operations

theorem indexed_run (pool : CTxMemPool) (operation : Operation) (indexed : pool.Indexed getHash)
    (allowed : Allowed getHash pool operation) : (pool.run getHash operation).Indexed getHash := by
  cases operation with
  | addUnchecked tx => exact indexed_add getHash pool tx indexed allowed
  | remove origTx fRecursive => exact indexed_remove getHash pool origTx fRecursive indexed
  | removeConflicts tx => exact indexed_removeConflicts getHash pool tx indexed
  | removeForBlock vtx => exact indexed_removeForBlock getHash pool vtx indexed
  | removeCoinbaseSpends pcoins nMemPoolHeight =>
      exact indexed_removeCoinbaseSpends getHash pcoins nMemPoolHeight pool indexed
  | clear => exact indexed_empty getHash

theorem indexed_runs (operations : List Operation) (pool : CTxMemPool)
    (indexed : pool.Indexed getHash) (allowed : EveryAllowed getHash pool operations) :
    (operations.foldl (run getHash) pool).Indexed getHash := by
  induction operations generalizing pool with
  | nil => exact indexed
  | cons operation operations ih =>
      exact ih _ (indexed_run getHash pool operation indexed allowed.1) allowed.2

/-- A pool that a sequence of operations leads to. -/
def Reached (pool : CTxMemPool) : Prop :=
  ∃ operations, EveryAllowed getHash empty operations ∧
    operations.foldl (run getHash) empty = pool

theorem reached_indexed (pool : CTxMemPool) (reached : Reached getHash pool) :
    pool.Indexed getHash := by
  obtain ⟨operations, allowed, rfl⟩ := reached
  exact indexed_runs getHash operations empty (indexed_empty getHash) allowed

/-- In every pool that is reached the two indices agree, no outpoint is spent twice and the counter
is the sum of the sizes; a recursive removal from it leaves nothing that depends on what was
removed. -/
theorem mempool_structure (pool : CTxMemPool) (reached : Reached getHash pool) :
    ((∀ tx ∈ pool.mapTx, ∀ i txin, tx.vin[i]? = some txin →
        pool.mapNextTx txin.prevout = some ⟨tx, i⟩) ∧
      ∀ out inPoint, pool.mapNextTx out = some inPoint →
        inPoint.ptx ∈ pool.mapTx ∧ (inPoint.ptx.vin[inPoint.n]?).map CTxIn.prevout = some out) ∧
    ((pool.mapTx.map getHash).Nodup ∧
      ∀ first ∈ pool.mapTx, ∀ second ∈ pool.mapTx, ∀ a ∈ first.vin, ∀ b ∈ second.vin,
        a.prevout = b.prevout → first = second) ∧
    pool.totalTxSize = (pool.mapTx.map CTransaction.serializeSize).sum ∧
    ∀ origTx gone, Removed getHash pool origTx gone →
      ∀ tx, ¬ Descends getHash (pool.remove getHash origTx true) gone tx := by
  have indexed := reached_indexed getHash pool reached
  refine ⟨⟨indexed.entered, indexed.owned⟩, ⟨indexed.hashes, ?_⟩, indexed.total, ?_⟩
  · intro first member second member' a input b input' same
    exact indexed.single_spend getHash first second member member' a b input input' same
  · intro origTx gone removed tx
    exact remove_descendants getHash pool (indexed.consistent getHash) origTx gone tx removed

/-- A transaction that spends the first output of `parent`; the lock time tells samples apart. -/
def chainedTx (nLockTime : BitVec 32) (parent : Uint256) : CTransaction :=
  ⟨1, [⟨⟨parent, 0⟩, [], 0⟩], [⟨5, []⟩], nLockTime⟩

def lockTimeHash (tx : CTransaction) : Uint256 := tx.nLockTime.setWidth 256

def chainedPool : CTxMemPool :=
  (empty.addUnchecked lockTimeHash (chainedTx 1 90)).addUnchecked lockTimeHash (chainedTx 2 1)

theorem mempool_structure_chained :
    chainedPool.totalTxSize = (chainedPool.mapTx.map CTransaction.serializeSize).sum ∧
      ∀ tx, ¬ Descends lockTimeHash (chainedPool.remove lockTimeHash (chainedTx 1 90) true)
        (chainedTx 1 90) tx := by
  have reached : Reached lockTimeHash chainedPool := by
    refine ⟨[.addUnchecked (chainedTx 1 90), .addUnchecked (chainedTx 2 1)], ⟨?_, ?_, trivial⟩, rfl⟩
    · exact ⟨by decide +kernel, by decide +kernel, by decide +kernel⟩
    · exact ⟨by decide +kernel, by decide +kernel, by decide +kernel⟩
  have structured := mempool_structure lockTimeHash chainedPool reached
  have removed : Removed lockTimeHash chainedPool (chainedTx 1 90) (chainedTx 1 90) :=
    .inl ⟨by decide +kernel, by decide +kernel⟩
  exact ⟨structured.2.2.1, structured.2.2.2 (chainedTx 1 90) (chainedTx 1 90) removed⟩

end CTxMemPool

end RoiCoin
