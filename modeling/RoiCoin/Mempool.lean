import RoiCoin.FlatView
import RoiCoin.Undo

/-! The memory pool (`CTxMemPool` in `txmempool.h`).

`mapTx` is listed without its keys, which are the transaction hashes, and of an entry only the
transaction is kept, which gives its size. Update counters, fee estimates and the lists of removed
transactions handed to the wallets are left out, as is `CTxMemPool::check`, which does nothing
unless sanity checks are switched on. -/

namespace RoiCoin

open FlatView

/-- An input of a pool transaction; `ptx` points at the transaction in `mapTx`. -/
structure CInPoint where
  ptx : CTransaction
  n : Nat
  deriving DecidableEq, Repr

structure CTxMemPool where
  mapTx : List CTransaction
  mapNextTx : COutPoint → Option CInPoint
  totalTxSize : Nat

namespace CTxMemPool

/-- The constructor leaves `totalTxSize` alone, which is zero in the global pool of the node. -/
def empty : CTxMemPool := ⟨[], fun _ => none, 0⟩

def clear (_ : CTxMemPool) : CTxMemPool := ⟨[], fun _ => none, 0⟩

variable (getHash : CTransaction → Uint256)

def lookup (pool : CTxMemPool) (hash : Uint256) : Option CTransaction :=
  pool.mapTx.find? fun tx => getHash tx == hash

/-- The loop of `addUnchecked` over the inputs, from position `i` on. -/
def markInputs (tx : CTransaction) (i : Nat) (mapNextTx : COutPoint → Option CInPoint) :
    List CTxIn → COutPoint → Option CInPoint
  | [] => mapNextTx
  | txin :: vin =>
      markInputs tx (i + 1) (Function.update mapNextTx txin.prevout (some ⟨tx, i⟩)) vin

def clearInputs (mapNextTx : COutPoint → Option CInPoint) :
    List CTxIn → COutPoint → Option CInPoint
  | [] => mapNextTx
  | txin :: vin => clearInputs (Function.update mapNextTx txin.prevout none) vin

def addUnchecked (pool : CTxMemPool) (tx : CTransaction) : CTxMemPool where
  mapTx := tx :: pool.mapTx.filter fun other => getHash other != getHash tx
  mapNextTx := markInputs tx 0 pool.mapNextTx tx.vin
  totalTxSize := pool.totalTxSize + tx.serializeSize

/-- What a turn of the loop of `remove` does to a transaction of the pool. -/
def erase (pool : CTxMemPool) (tx : CTransaction) : CTxMemPool where
  mapTx := pool.mapTx.filter fun other => getHash other != getHash tx
  mapNextTx := clearInputs pool.mapNextTx tx.vin
  totalTxSize := pool.totalTxSize - tx.serializeSize

/-- The hashes of the pool transactions that spend the first outputs of `hash`. -/
def childHashes (pool : CTxMemPool) (hash : Uint256) (outputs : Nat) : List Uint256 :=
  (List.range outputs).filterMap fun i =>
    (pool.mapNextTx ⟨hash, BitVec.ofNat 32 i⟩).map fun inPoint => getHash inPoint.ptx

/-- The loop of `remove`. -/
def removeLoop (fRecursive : Bool) : Nat → List Uint256 → CTxMemPool → CTxMemPool
  | 0, _, pool => pool
  | _ + 1, [], pool => pool
  | fuel + 1, hash :: txToRemove, pool =>
      match pool.lookup getHash hash with
      | none => removeLoop fRecursive fuel txToRemove pool
      | some tx =>
          let children := if fRecursive then pool.childHashes getHash hash tx.vout.length else []
          removeLoop fRecursive fuel (txToRemove ++ children) (pool.erase getHash tx)

/-- Every turn takes a hash off the queue; only a removed transaction puts hashes on it, one for
each output at most. -/
def removeFuel (pool : CTxMemPool) (txToRemove : List Uint256) : Nat :=
  txToRemove.length + (pool.mapTx.map fun tx => tx.vout.length).sum

/-- What is removed first: also the children of a transaction that is not in the pool itself. -/
def removeQueue (pool : CTxMemPool) (origTx : CTransaction) (fRecursive : Bool) : List Uint256 :=
  getHash origTx ::
    if fRecursive ∧ pool.lookup getHash (getHash origTx) = none then
      pool.childHashes getHash (getHash origTx) origTx.vout.length
    else []

def remove (pool : CTxMemPool) (origTx : CTransaction) (fRecursive : Bool) : CTxMemPool :=
  let txToRemove := pool.removeQueue getHash origTx fRecursive
  removeLoop getHash fRecursive (pool.removeFuel txToRemove) txToRemove pool

def removeConflict (tx : CTransaction) (pool : CTxMemPool) (txin : CTxIn) : CTxMemPool :=
  match pool.mapNextTx txin.prevout with
  | none => pool
  | some inPoint =>
      if getHash inPoint.ptx ≠ getHash tx then pool.remove getHash inPoint.ptx true else pool

def removeConflicts (pool : CTxMemPool) (tx : CTransaction) : CTxMemPool :=
  tx.vin.foldl (removeConflict getHash tx) pool

def removeForBlock (pool : CTxMemPool) (vtx : List CTransaction) : CTxMemPool :=
  vtx.foldl (fun pool tx => (pool.remove getHash tx false).removeConflicts getHash tx) pool

/-- The test of `removeCoinbaseSpends`. -/
def spendsImmature (pcoins : FlatView) (nMemPoolHeight : Int) (pool : CTxMemPool)
    (tx : CTransaction) : Bool :=
  tx.vin.any fun txin =>
    (pool.lookup getHash txin.prevout.hash).isNone &&
      match pcoins.accessCoins txin.prevout.hash with
      | none => true
      | some coins =>
          coins.fCoinBase && decide (unsigned32 (nMemPoolHeight - coins.nHeight) < coinbaseMaturity)

def removeCoinbaseSpends (pcoins : FlatView) (nMemPoolHeight : Int) (pool : CTxMemPool) :
    CTxMemPool :=
  (pool.mapTx.filter (spendsImmature getHash pcoins nMemPoolHeight pool)).foldl
    (fun pool tx => pool.remove getHash tx true) pool

/-! ## The map of spent outpoints -/

theorem clearInputs_other (vin : List CTxIn) (next : COutPoint → Option CInPoint)
    (out : COutPoint) (other : ∀ txin ∈ vin, txin.prevout ≠ out) :
    clearInputs next vin out = next out := by
  induction vin generalizing next with
  | nil => rfl
  | cons txin vin ih =>
      rw [List.forall_mem_cons] at other
      rw [clearInputs, ih _ other.2, Function.update_of_ne (Ne.symm other.1)]

theorem markInputs_other (tx : CTransaction) (i : Nat) (vin : List CTxIn)
    (next : COutPoint → Option CInPoint) (out : COutPoint)
    (other : ∀ txin ∈ vin, txin.prevout ≠ out) : markInputs tx i next vin out = next out := by
  induction vin generalizing next i with
  | nil => rfl
  | cons txin vin ih =>
      rw [List.forall_mem_cons] at other
      rw [markInputs, ih _ _ other.2, Function.update_of_ne (Ne.symm other.1)]

theorem markInputs_self (tx : CTransaction) (i : Nat) (vin : List CTxIn)
    (next : COutPoint → Option CInPoint) (out : COutPoint) (member : out ∈ vin.map CTxIn.prevout) :
    ∃ n, markInputs tx i next vin out = some ⟨tx, n⟩ := by
  induction vin generalizing next i with
  | nil => cases member
  | cons txin vin ih =>
      rw [markInputs]
      by_cases later : out ∈ vin.map CTxIn.prevout
      · exact ih _ _ later
      · rw [List.map_cons, List.mem_cons] at member
        have here : out = txin.prevout := member.resolve_right later
        have others : ∀ other ∈ vin, other.prevout ≠ out := fun other among same =>
          later (List.mem_map.mpr ⟨other, among, same⟩)
        rw [markInputs_other _ _ _ _ _ others, here, Function.update_self]
        exact ⟨i, rfl⟩

/-! ## Consistency -/

/-- The pool has one transaction for each hash, and the inputs of each are marked with it. -/
structure Consistent (pool : CTxMemPool) : Prop where
  distinct : ∀ first ∈ pool.mapTx, ∀ second ∈ pool.mapTx,
    getHash first = getHash second → first = second
  marked : ∀ tx ∈ pool.mapTx, ∀ txin ∈ tx.vin, ∃ n, pool.mapNextTx txin.prevout = some ⟨tx, n⟩

theorem consistent_empty : empty.Consistent getHash := ⟨by simp [empty], by simp [empty]⟩

theorem lookup_some (pool : CTxMemPool) (hash : Uint256) (tx : CTransaction)
    (found : pool.lookup getHash hash = some tx) : tx ∈ pool.mapTx ∧ getHash tx = hash :=
  ⟨List.mem_of_find?_eq_some found, by simpa using List.find?_some found⟩

theorem lookup_none (pool : CTxMemPool) (hash : Uint256) :
    pool.lookup getHash hash = none ↔ ∀ tx ∈ pool.mapTx, getHash tx ≠ hash := by
  simp [lookup, List.find?_eq_none]

theorem mem_erase (pool : CTxMemPool) (gone tx : CTransaction) :
    tx ∈ (pool.erase getHash gone).mapTx ↔ tx ∈ pool.mapTx ∧ getHash tx ≠ getHash gone := by
  simp [erase, List.mem_filter]

theorem consistent_erase (pool : CTxMemPool) (gone : CTransaction)
    (consistent : pool.Consistent getHash) (member : gone ∈ pool.mapTx) :
    (pool.erase getHash gone).Consistent getHash := by
  constructor
  · intro first among second among'
    rw [mem_erase] at among among'
    exact consistent.distinct first among.1 second among'.1
  · intro tx remains txin input
    rw [mem_erase] at remains
    obtain ⟨n, marked⟩ := consistent.marked tx remains.1 txin input
    have untouched : (pool.erase getHash gone).mapNextTx txin.prevout =
        pool.mapNextTx txin.prevout := by
      apply clearInputs_other
      -- an outpoint of both transactions would be marked with both
      intro other among same
      obtain ⟨n', marked'⟩ := consistent.marked gone member other among
      rw [same, marked] at marked'
      have equal := congrArg CInPoint.ptx (Option.some.inj marked')
      exact remains.2 (congrArg getHash equal)
    exact ⟨n, untouched.trans marked⟩

theorem consistent_addUnchecked (pool : CTxMemPool) (tx : CTransaction)
    (consistent : pool.Consistent getHash)
    (free : ∀ txin ∈ tx.vin, pool.mapNextTx txin.prevout = none) :
    (pool.addUnchecked getHash tx).Consistent getHash := by
  constructor
  · intro first among second among' same
    rw [addUnchecked, List.mem_cons, List.mem_filter] at among among'
    rcases among with rfl | ⟨among, other⟩
    · rcases among' with rfl | ⟨among', other'⟩
      · rfl
      · exact absurd same.symm (by simpa using other')
    · rcases among' with rfl | ⟨among', other'⟩
      · exact absurd same (by simpa using other)
      · exact consistent.distinct first among second among' same
  · intro other among txin input
    rw [addUnchecked, List.mem_cons, List.mem_filter] at among
    rcases among with rfl | ⟨among, -⟩
    · exact markInputs_self other 0 other.vin _ _ (List.mem_map_of_mem input)
    · obtain ⟨n, marked⟩ := consistent.marked other among txin input
      have untouched : (pool.addUnchecked getHash tx).mapNextTx txin.prevout =
          pool.mapNextTx txin.prevout := by
        apply markInputs_other
        intro own among' same
        have unmarked := free own among'
        rw [same, marked] at unmarked
        cases unmarked
      exact ⟨n, untouched.trans marked⟩

/-- A pool transaction that spends one of the first outputs is among the children. -/
theorem mem_childHashes (pool : CTxMemPool) (consistent : pool.Consistent getHash) (hash : Uint256)
    (outputs : Nat) (tx : CTransaction) (member : tx ∈ pool.mapTx) (txin : CTxIn)
    (input : txin ∈ tx.vin) (spends : txin.prevout.hash = hash)
    (within : txin.prevout.n.toNat < outputs) :
    getHash tx ∈ pool.childHashes getHash hash outputs := by
  obtain ⟨n, marked⟩ := consistent.marked tx member txin input
  rw [childHashes, List.mem_filterMap]
  refine ⟨txin.prevout.n.toNat, List.mem_range.mpr within, ?_⟩
  have out : (⟨hash, BitVec.ofNat 32 txin.prevout.n.toNat⟩ : COutPoint) = txin.prevout := by
    rw [BitVec.ofNat_toNat, BitVec.setWidth_eq, ← spends]
  rw [out, marked]
  rfl

/-! ## Removing -/

/-- The transaction does not spend an output of `parent`. -/
def Childless (parent tx : CTransaction) : Prop :=
  ∀ txin ∈ tx.vin, txin.prevout.hash = getHash parent →
    parent.vout.length ≤ txin.prevout.n.toNat

/-- Transactions were removed; a transaction that spends from a removed one was removed as well,
unless the hash of the removed one is freed. -/
structure Evicted (freed : Uint256 → Prop) (pool pool' : CTxMemPool) : Prop where
  consistent : pool'.Consistent getHash
  kept : ∀ tx ∈ pool'.mapTx, tx ∈ pool.mapTx
  childless : ∀ gone ∈ pool.mapTx, gone ∉ pool'.mapTx → ¬ freed (getHash gone) →
    ∀ tx ∈ pool'.mapTx, Childless getHash gone tx

theorem evicted_refl (freed : Uint256 → Prop) (pool : CTxMemPool)
    (consistent : pool.Consistent getHash) : Evicted getHash freed pool pool :=
  ⟨consistent, fun _ member => member, fun _ member absent => absurd member absent⟩

theorem evicted_trans (freed : Uint256 → Prop) (first second third : CTxMemPool)
    (one : Evicted getHash freed first second) (other : Evicted getHash freed second third) :
    Evicted getHash freed first third := by
  refine ⟨other.consistent, fun tx member => one.kept tx (other.kept tx member), ?_⟩
  intro gone member absent owned tx remains
  by_cases between : gone ∈ second.mapTx
  · exact other.childless gone between absent owned tx remains
  · exact one.childless gone member between owned tx (other.kept tx remains)

theorem evicted_weaken (freed freed' : Uint256 → Prop) (pool pool' : CTxMemPool)
    (wider : ∀ hash, freed hash → freed' hash) (evicted : Evicted getHash freed pool pool') :
    Evicted getHash freed' pool pool' :=
  ⟨evicted.consistent, evicted.kept, fun gone member absent owned =>
    evicted.childless gone member absent fun is_freed => owned (wider _ is_freed)⟩

/-- The state of the loop of `remove`: what still spends from a removed transaction is queued.
`orphaned` is a transaction outside the pool whose children go as well. -/
structure Removing (orphaned : CTransaction → Prop) (start : CTxMemPool)
    (txToRemove : List Uint256) (pool : CTxMemPool) : Prop where
  consistent : pool.Consistent getHash
  kept : ∀ tx ∈ pool.mapTx, tx ∈ start.mapTx
  queued : ∀ gone, orphaned gone ∨ (gone ∈ start.mapTx ∧ gone ∉ pool.mapTx) →
    ∀ tx ∈ pool.mapTx, ∀ txin ∈ tx.vin, txin.prevout.hash = getHash gone →
      txin.prevout.n.toNat < gone.vout.length → getHash tx ∈ txToRemove

theorem removing_skip (orphaned : CTransaction → Prop) (start pool : CTxMemPool) (hash : Uint256)
    (txToRemove : List Uint256) (absent : pool.lookup getHash hash = none)
    (removing : Removing getHash orphaned start (hash :: txToRemove) pool) :
    Removing getHash orphaned start txToRemove pool := by
  refine ⟨removing.consistent, removing.kept, ?_⟩
  intro gone lost tx remains txin input spends within
  have queued := removing.queued gone lost tx remains txin input spends within
  rw [List.mem_cons] at queued
  exact queued.resolve_left ((lookup_none getHash pool hash).mp absent tx remains)

theorem removing_erase (orphaned : CTransaction → Prop) (start pool : CTxMemPool) (hash : Uint256)
    (txToRemove : List Uint256) (gone : CTransaction)
    (found : pool.lookup getHash hash = some gone)
    (removing : Removing getHash orphaned start (hash :: txToRemove) pool) :
    Removing getHash orphaned start
      (txToRemove ++ pool.childHashes getHash hash gone.vout.length) (pool.erase getHash gone) := by
  obtain ⟨member, own⟩ := lookup_some getHash pool hash gone found
  refine ⟨consistent_erase getHash pool gone removing.consistent member, ?_, ?_⟩
  · intro tx remains
    exact removing.kept tx ((mem_erase getHash pool gone tx).mp remains).1
  · intro parent lost tx remains txin input spends within
    obtain ⟨before, other⟩ := (mem_erase getHash pool gone tx).mp remains
    rw [List.mem_append]
    by_cases now : parent = gone
    · right
      rw [now] at spends within
      exact mem_childHashes getHash pool removing.consistent hash _ tx before txin input
        (spends.trans own) within
    · left
      have earlier : orphaned parent ∨ (parent ∈ start.mapTx ∧ parent ∉ pool.mapTx) := by
        rcases lost with orphan | ⟨started, absent⟩
        · exact .inl orphan
        · refine .inr ⟨started, fun there => absent ?_⟩
          rw [mem_erase]
          exact ⟨there, fun same => now (removing.consistent.distinct parent there gone member same)⟩
      have queued := removing.queued parent earlier tx before txin input spends within
      rw [List.mem_cons] at queued
      exact queued.resolve_left (own ▸ other)

theorem sum_filter_le (size : CTransaction → Nat) (keep : CTransaction → Bool)
    (list : List CTransaction) (gone : CTransaction) (member : gone ∈ list)
    (dropped : keep gone = false) :
    size gone + ((list.filter keep).map size).sum ≤ (list.map size).sum := by
  induction list with
  | nil => cases member
  | cons tx list ih =>
      rw [List.map_cons, List.sum_cons]
      rcases List.mem_cons.mp member with rfl | later
      · have rest : ((list.filter keep).map size).sum ≤ (list.map size).sum :=
          (List.filter_sublist.map size).sum_le_sum fun _ _ => Nat.zero_le _
        have skipped : (gone :: list).filter keep = list.filter keep :=
          List.filter_cons_of_neg (by rw [dropped]; exact Bool.false_ne_true)
        rw [skipped]
        omega
      · have rest := ih later
        rw [List.filter_cons]
        split
        · rw [List.map_cons, List.sum_cons]
          omega
        · omega

/-- Erasing a transaction pays for the hashes of its children. -/
theorem outputs_erase (pool : CTxMemPool) (gone : CTransaction) (member : gone ∈ pool.mapTx) :
    gone.vout.length + ((pool.erase getHash gone).mapTx.map fun tx => tx.vout.length).sum ≤
      (pool.mapTx.map fun tx => tx.vout.length).sum := by
  have dropped : (getHash gone != getHash gone) = false := bne_self_eq_false _
  exact sum_filter_le (fun tx => tx.vout.length) (fun other => getHash other != getHash gone)
    pool.mapTx gone member dropped

theorem childHashes_length (pool : CTxMemPool) (hash : Uint256) (outputs : Nat) :
    (pool.childHashes getHash hash outputs).length ≤ outputs := by
  have bound := List.length_filterMap_le (fun i =>
    (pool.mapNextTx ⟨hash, BitVec.ofNat 32 i⟩).map fun inPoint => getHash inPoint.ptx)
    (List.range outputs)
  rwa [List.length_range] at bound

theorem removeLoop_removing (orphaned : CTransaction → Prop) (start : CTxMemPool) (fuel : Nat)
    (txToRemove : List Uint256) (pool : CTxMemPool) (enough : pool.removeFuel txToRemove ≤ fuel)
    (removing : Removing getHash orphaned start txToRemove pool) :
    Removing getHash orphaned start [] (removeLoop getHash true fuel txToRemove pool) := by
  induction fuel generalizing txToRemove pool with
  | zero =>
      rw [removeFuel] at enough
      have done : txToRemove = [] := List.length_eq_zero_iff.mp (by omega)
      rw [done] at removing
      exact removing
  | succ fuel ih =>
      cases txToRemove with
      | nil => exact removing
      | cons hash txToRemove =>
          rw [removeFuel, List.length_cons] at enough
          rw [removeLoop]
          cases found : pool.lookup getHash hash with
          | none =>
              apply ih
              · rw [removeFuel]
                omega
              · exact removing_skip getHash orphaned start pool hash txToRemove found removing
          | some tx =>
              apply ih
              · have member := (lookup_some getHash pool hash tx found).1
                have paid := outputs_erase getHash pool tx member
                have pushed := childHashes_length getHash pool hash tx.vout.length
                rw [removeFuel, List.length_append, if_pos rfl]
                omega
              · exact removing_erase getHash orphaned start pool hash txToRemove tx found removing

theorem removing_start (pool : CTxMemPool) (consistent : pool.Consistent getHash)
    (origTx : CTransaction) :
    Removing getHash (fun gone => gone = origTx ∧ pool.lookup getHash (getHash origTx) = none) pool
      (pool.removeQueue getHash origTx true) pool := by
  refine ⟨consistent, fun _ member => member, ?_⟩
  intro gone lost tx member txin input spends within
  rcases lost with ⟨rfl, absent⟩ | ⟨started, gone_missing⟩
  · rw [removeQueue, if_pos ⟨rfl, absent⟩, List.mem_cons]
    right
    exact mem_childHashes getHash pool consistent _ _ tx member txin input spends within
  · exact absurd started gone_missing

/-- The first hash of the queue goes, whatever else does. -/
theorem removeLoop_kept (fRecursive : Bool) (fuel : Nat) (txToRemove : List Uint256)
    (pool : CTxMemPool) (tx : CTransaction)
    (remains : tx ∈ (removeLoop getHash fRecursive fuel txToRemove pool).mapTx) :
    tx ∈ pool.mapTx := by
  induction fuel generalizing txToRemove pool with
  | zero => exact remains
  | succ fuel ih =>
      cases txToRemove with
      | nil => exact remains
      | cons hash txToRemove =>
          rw [removeLoop] at remains
          cases found : pool.lookup getHash hash with
          | none =>
              rw [found] at remains
              exact ih txToRemove pool remains
          | some gone =>
              rw [found] at remains
              exact ((mem_erase getHash pool gone tx).mp (ih _ _ remains)).1

theorem remove_self (pool : CTxMemPool) (origTx tx : CTransaction) (fRecursive : Bool)
    (remains : tx ∈ (pool.remove getHash origTx fRecursive).mapTx) :
    tx ∈ pool.mapTx ∧ getHash tx ≠ getHash origTx := by
  rw [remove, removeFuel, removeQueue, List.length_cons, Nat.succ_add, removeLoop] at remains
  cases found : pool.lookup getHash (getHash origTx) with
  | none =>
      rw [found] at remains
      have member := removeLoop_kept getHash _ _ _ _ tx remains
      exact ⟨member, (lookup_none getHash pool _).mp found tx member⟩
  | some gone =>
      rw [found] at remains
      have member := removeLoop_kept getHash _ _ _ _ tx remains
      rw [mem_erase, (lookup_some getHash pool _ gone found).2] at member
      exact member

/-- What a recursive removal leaves. -/
theorem remove_recursive (pool : CTxMemPool) (consistent : pool.Consistent getHash)
    (origTx : CTransaction) :
    Evicted getHash (fun _ => False) pool (pool.remove getHash origTx true) ∧
      (pool.lookup getHash (getHash origTx) = none →
        ∀ tx ∈ (pool.remove getHash origTx true).mapTx, Childless getHash origTx tx) := by
  have finished := removeLoop_removing getHash _ pool _ _ pool (Nat.le_refl _)
    (removing_start getHash pool consistent origTx)
  constructor
  · refine ⟨finished.consistent, finished.kept, ?_⟩
    intro gone member absent _ tx remains txin input spends
    by_contra within
    have queued := finished.queued gone (.inr ⟨member, absent⟩) tx remains txin input spends
      (by omega)
    cases queued
  · intro outside tx remains txin input spends
    by_contra within
    have queued := finished.queued origTx (.inl ⟨rfl, outside⟩) tx remains txin input spends
      (by omega)
    cases queued

theorem removeLoop_nil (fRecursive : Bool) (fuel : Nat) (pool : CTxMemPool) :
    removeLoop getHash fRecursive fuel [] pool = pool := by
  cases fuel <;> rfl

/-- A removal that is not recursive erases one hash. -/
theorem remove_single (pool : CTxMemPool) (consistent : pool.Consistent getHash)
    (origTx : CTransaction) :
    Evicted getHash (fun hash => hash = getHash origTx) pool (pool.remove getHash origTx false) := by
  have queue : pool.removeQueue getHash origTx false = [getHash origTx] := by
    rw [removeQueue, if_neg (by simp)]
  rw [remove, queue, removeFuel, List.length_singleton, Nat.add_comm, removeLoop]
  cases found : pool.lookup getHash (getHash origTx) with
  | none =>
      dsimp only
      rw [removeLoop_nil]
      exact evicted_refl getHash _ pool consistent
  | some gone =>
      obtain ⟨member, own⟩ := lookup_some getHash pool _ gone found
      dsimp only
      rw [if_neg Bool.false_ne_true, List.append_nil, removeLoop_nil]
      refine ⟨consistent_erase getHash pool gone consistent member, ?_, ?_⟩
      · intro tx remains
        exact ((mem_erase getHash pool gone tx).mp remains).1
      · intro other started absent owned
        refine absurd ?_ absent
        rw [mem_erase]
        exact ⟨started, fun same => owned (same.trans own)⟩

/-! ## A connected block -/

/-- No remaining transaction spends what the block transaction spends. -/
theorem removeConflict_evicted (tx : CTransaction) (pool : CTxMemPool) (txin : CTxIn)
    (consistent : pool.Consistent getHash) (away : ∀ other ∈ pool.mapTx, getHash other ≠ getHash tx) :
    Evicted getHash (fun _ => False) pool (removeConflict getHash tx pool txin) ∧
      ∀ other ∈ (removeConflict getHash tx pool txin).mapTx, ∀ spender ∈ other.vin,
        spender.prevout ≠ txin.prevout := by
  rw [removeConflict]
  cases marked : pool.mapNextTx txin.prevout with
  | none =>
      refine ⟨evicted_refl getHash _ pool consistent, ?_⟩
      intro other member spender input same
      obtain ⟨n, own⟩ := consistent.marked other member spender input
      rw [same, marked] at own
      cases own
  | some inPoint =>
      dsimp only
      split
      · refine ⟨(remove_recursive getHash pool consistent inPoint.ptx).1, ?_⟩
        intro other remains spender input same
        obtain ⟨member, gone⟩ := remove_self getHash pool inPoint.ptx other true remains
        obtain ⟨n, own⟩ := consistent.marked other member spender input
        rw [same, marked] at own
        exact gone (congrArg (fun inPoint => getHash inPoint.ptx) (Option.some.inj own)).symm
      · rename_i itself
        refine ⟨evicted_refl getHash _ pool consistent, ?_⟩
        intro other member spender input same
        obtain ⟨n, own⟩ := consistent.marked other member spender input
        rw [same, marked] at own
        have equal := congrArg (fun inPoint => getHash inPoint.ptx) (Option.some.inj own)
        exact away other member (equal.symm.trans (not_not.mp itself))

theorem removeConflicts_evicted (tx : CTransaction) (vin : List CTxIn) (pool : CTxMemPool)
    (consistent : pool.Consistent getHash) (away : ∀ other ∈ pool.mapTx, getHash other ≠ getHash tx) :
    Evicted getHash (fun _ => False) pool (vin.foldl (removeConflict getHash tx) pool) ∧
      ∀ other ∈ (vin.foldl (removeConflict getHash tx) pool).mapTx, ∀ spender ∈ other.vin,
        ∀ txin ∈ vin, spender.prevout ≠ txin.prevout := by
  induction vin generalizing pool with
  | nil => exact ⟨evicted_refl getHash _ pool consistent, by simp⟩
  | cons txin vin ih =>
      obtain ⟨first, unspent⟩ := removeConflict_evicted getHash tx pool txin consistent away
      obtain ⟨others, rest⟩ := ih _ first.consistent fun other member =>
        away other (first.kept other member)
      refine ⟨evicted_trans getHash _ _ _ _ first others, ?_⟩
      intro other remains spender input
      rw [List.forall_mem_cons]
      exact ⟨unspent other (others.kept other remains) spender input,
        rest other remains spender input⟩

/-- What connecting a block leaves in the pool. -/
structure BlockRemoved (vtx : List CTransaction) (pool pool' : CTxMemPool) : Prop where
  evicted : Evicted getHash (fun hash => hash ∈ vtx.map getHash) pool pool'
  away : ∀ tx ∈ pool'.mapTx, getHash tx ∉ vtx.map getHash
  unspent : ∀ tx ∈ pool'.mapTx, ∀ spender ∈ tx.vin, ∀ connected ∈ vtx, ∀ txin ∈ connected.vin,
    spender.prevout ≠ txin.prevout

theorem removeForBlock_removed (vtx : List CTransaction) (pool : CTxMemPool)
    (consistent : pool.Consistent getHash) :
    BlockRemoved getHash vtx pool (pool.removeForBlock getHash vtx) := by
  induction vtx generalizing pool with
  | nil => exact ⟨evicted_refl getHash _ pool consistent, by simp, by simp⟩
  | cons tx vtx ih =>
      have single := remove_single getHash pool consistent tx
      have away : ∀ other ∈ (pool.remove getHash tx false).mapTx, getHash other ≠ getHash tx :=
        fun other remains => (remove_self getHash pool tx other false remains).2
      obtain ⟨conflicts, unspent⟩ :=
        removeConflicts_evicted getHash tx tx.vin _ single.consistent away
      have rest := ih ((pool.remove getHash tx false).removeConflicts getHash tx)
        conflicts.consistent
      have before : ∀ other ∈ (pool.removeForBlock getHash (tx :: vtx)).mapTx,
          other ∈ ((pool.remove getHash tx false).removeConflicts getHash tx).mapTx :=
        rest.evicted.kept
      refine ⟨?_, ?_, ?_⟩
      · have one : Evicted getHash (fun hash => hash ∈ (tx :: vtx).map getHash) pool
            (pool.remove getHash tx false) :=
          evicted_weaken getHash _ _ _ _ (fun hash same => by simp [same]) single
        have two : Evicted getHash (fun hash => hash ∈ (tx :: vtx).map getHash)
            (pool.remove getHash tx false)
            ((pool.remove getHash tx false).removeConflicts getHash tx) :=
          evicted_weaken getHash _ _ _ _ (fun hash impossible => impossible.elim) conflicts
        have three := evicted_weaken getHash _ (fun hash => hash ∈ (tx :: vtx).map getHash) _ _
          (fun hash member => List.mem_cons_of_mem _ member) rest.evicted
        exact evicted_trans getHash _ _ _ _ (evicted_trans getHash _ _ _ _ one two) three
      · intro other remains
        rw [List.map_cons, List.mem_cons, not_or]
        exact ⟨away other (conflicts.kept other (before other remains)),
          rest.away other remains⟩
      · intro other remains spender input
        rw [List.forall_mem_cons]
        exact ⟨unspent other (before other remains) spender input,
          rest.unspent other remains spender input⟩

theorem removeAll_evicted (txs : List CTransaction) (pool : CTxMemPool)
    (consistent : pool.Consistent getHash) :
    Evicted getHash (fun _ => False) pool
      (txs.foldl (fun pool tx => pool.remove getHash tx true) pool) := by
  induction txs generalizing pool with
  | nil => exact evicted_refl getHash _ pool consistent
  | cons tx txs ih =>
      have first := (remove_recursive getHash pool consistent tx).1
      exact evicted_trans getHash _ _ _ _ first (ih _ first.consistent)

theorem removeCoinbaseSpends_evicted (pcoins : FlatView) (nMemPoolHeight : Int) (pool : CTxMemPool)
    (consistent : pool.Consistent getHash) :
    Evicted getHash (fun _ => False) pool
      (pool.removeCoinbaseSpends getHash pcoins nMemPoolHeight) :=
  removeAll_evicted getHash _ pool consistent

end CTxMemPool

end RoiCoin
