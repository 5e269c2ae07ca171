import RoiCoin.Lib.InverseIndex
import RoiCoin.Wire

/-! Transactions whose inputs are not known yet (`mapOrphanTransactions`), and the index of the
transactions they wait for (`mapOrphanTransactionsByPrev`).

`none` is the use of an iterator that points at nothing, or a loop that has used up its fuel. -/

namespace RoiCoin

open Std InverseIndex

/-- `memcmp` of the bytes, the lowest one first. -/
def compareHash : Uint256 → Uint256 → Ordering := compareOn writeUint256

instance : TransCmp compareHash := inferInstanceAs (TransCmp (compareOn writeUint256))

theorem writeUint256_injective (a b : Uint256) (same : writeUint256 a = writeUint256 b) : a = b := by
  have bytes : (256 : Nat) ^ 32 = 2 ^ 256 := by norm_num
  have value := congrArg readLE same
  rw [writeUint256, writeUint256, readLE_writeLE, readLE_writeLE, bytes,
    Nat.mod_eq_of_lt a.isLt, Nat.mod_eq_of_lt b.isLt] at value
  exact BitVec.eq_of_toNat_eq value

instance : LawfulEqCmp compareHash where
  compare_self {hash} := (ReflCmp.compare_self : compareOn writeUint256 hash hash = .eq)
  eq_of_compare same := writeUint256_injective _ _ (LawfulEqCmp.eq_of_compare same)

structure COrphanTx where
  tx : CTransaction
  fromPeer : Int
  deriving DecidableEq, Repr

/-- The transactions that an orphan spends from, input by input. -/
def COrphanTx.prevHashes (orphan : COrphanTx) : List Uint256 :=
  orphan.tx.vin.map fun txin => txin.prevout.hash

structure OrphanPool where
  mapOrphanTransactions : TreeMap Uint256 COrphanTx compareHash
  mapOrphanTransactionsByPrev : Index Uint256 Uint256 compareHash compareHash

namespace OrphanPool

def empty : OrphanPool := ⟨∅, ∅⟩

section Operations

variable (getHash : CTransaction → Uint256)

def addOrphanTx (pool : OrphanPool) (tx : CTransaction) (peer : Int) : OrphanPool × Bool :=
  let hash := getHash tx
  if pool.mapOrphanTransactions.contains hash then (pool, false)
  else if (getSerializeSize tx.serializeSize).toNat > 5000 then (pool, false)
  else
    let orphan : COrphanTx := ⟨tx, peer⟩
    ({ mapOrphanTransactions := pool.mapOrphanTransactions.insert hash orphan
       mapOrphanTransactionsByPrev :=
        linkAll pool.mapOrphanTransactionsByPrev hash orphan.prevHashes }, true)

def eraseOrphanTx (pool : OrphanPool) (hash : Uint256) : OrphanPool :=
  match pool.mapOrphanTransactions[hash]? with
  | none => pool
  | some orphan =>
      { mapOrphanTransactions := pool.mapOrphanTransactions.erase hash
        mapOrphanTransactionsByPrev :=
          unlinkAll pool.mapOrphanTransactionsByPrev hash orphan.prevHashes }

/-- The traversal of `EraseOrphansFor` over the elements that there are at its start; the iterator
has moved on before an element is erased. -/
def eraseFrom (peer : Int) : List Uint256 → OrphanPool → Option OrphanPool
  | [], pool => some pool
  | maybeErase :: rest, pool =>
      match pool.mapOrphanTransactions[maybeErase]? with
      | none => none
      | some orphan =>
          if orphan.fromPeer = peer then
            eraseFrom peer rest (pool.eraseOrphanTx (getHash orphan.tx))
          else eraseFrom peer rest pool

def eraseOrphansFor (pool : OrphanPool) (peer : Int) : Option OrphanPool :=
  eraseFrom getHash peer pool.mapOrphanTransactions.keys pool

/-- `lower_bound(randomhash)`, or the first element. -/
def lowerBound (pool : OrphanPool) (randomhash : Uint256) : Option Uint256 :=
  (pool.mapOrphanTransactions.keys.find? fun hash => (compareHash hash randomhash).isGE).or
    pool.mapOrphanTransactions.keys.head?

/-- The loop of `LimitOrphanTxSize`; `random` gives the random hashes. -/
def limitFrom (nMaxOrphans : Nat) (random : Nat → Uint256) :
    Nat → Nat → OrphanPool → Option (OrphanPool × Nat)
  | 0, _, _ => none
  | fuel + 1, nEvicted, pool =>
      if pool.mapOrphanTransactions.size > nMaxOrphans then
        match pool.lowerBound (random nEvicted) with
        | none => none
        | some hash => limitFrom nMaxOrphans random fuel (nEvicted + 1) (pool.eraseOrphanTx hash)
      else some (pool, nEvicted)

def limitOrphanTxSize (pool : OrphanPool) (nMaxOrphans : Nat) (random : Nat → Uint256) :
    Option (OrphanPool × Nat) :=
  limitFrom nMaxOrphans random (pool.mapOrphanTransactions.size + 1) 0 pool

end Operations

inductive Step where
  | addOrphanTx (tx : CTransaction) (peer : Int)
  | eraseOrphanTx (hash : Uint256)
  | eraseOrphansFor (peer : Int)
  | limitOrphanTxSize (nMaxOrphans : Nat) (random : Nat → Uint256)

def Step.run (getHash : CTransaction → Uint256) (pool : OrphanPool) : Step → Option OrphanPool
  | addOrphanTx tx peer => some (pool.addOrphanTx getHash tx peer).1
  | eraseOrphanTx hash => some (pool.eraseOrphanTx hash)
  | eraseOrphansFor peer => pool.eraseOrphansFor getHash peer
  | limitOrphanTxSize nMaxOrphans random =>
      (pool.limitOrphanTxSize nMaxOrphans random).map Prod.fst

def runSteps (getHash : CTransaction → Uint256) (pool : OrphanPool) :
    List Step → Option OrphanPool
  | [] => some pool
  | step :: steps => (step.run getHash pool).bind fun pool => runSteps getHash pool steps

/-! ## The index -/

/-- A stored orphan with that hash has an input from the transaction `prev`. -/
def Spends (pool : OrphanPool) (hash prev : Uint256) : Prop :=
  ∃ orphan, pool.mapOrphanTransactions[hash]? = some orphan ∧ prev ∈ orphan.prevHashes

/-- Orphans lie under their hashes, and the index is the inverse of their inputs. -/
structure Exact (getHash : CTransaction → Uint256) (pool : OrphanPool) : Prop where
  keyed : ∀ (hash : Uint256) orphan, pool.mapOrphanTransactions[hash]? = some orphan →
    getHash orphan.tx = hash
  index : Inverse pool.mapOrphanTransactionsByPrev pool.Spends

theorem exact_empty (getHash : CTransaction → Uint256) : Exact getHash empty := by
  have nothing : ∀ hash : Uint256, empty.mapOrphanTransactions[hash]? = none :=
    fun _ => TreeMap.getElem?_emptyc
  constructor
  · intro hash orphan found
    rw [nothing] at found
    cases found
  · apply inverse_empty
    intro hash prev spends
    obtain ⟨orphan, found, -⟩ := spends
    rw [nothing] at found
    cases found

section Operations

variable (getHash : CTransaction → Uint256) (pool : OrphanPool)

theorem exact_add (tx : CTransaction) (peer : Int) (exact : Exact getHash pool) :
    Exact getHash (pool.addOrphanTx getHash tx peer).1 := by
  rw [addOrphanTx]
  dsimp only
  split_ifs with known large
  · exact exact
  · exact exact
  · have missing : pool.mapOrphanTransactions[getHash tx]? = none := by
      simpa using known
    have found : ∀ hash : Uint256,
        (pool.mapOrphanTransactions.insert (getHash tx) ⟨tx, peer⟩)[hash]? =
          if getHash tx = hash then some ⟨tx, peer⟩ else pool.mapOrphanTransactions[hash]? := by
      intro hash
      simp only [TreeMap.getElem?_insert, LawfulEqCmp.compare_eq_iff_eq]
    constructor
    · intro hash orphan stored
      dsimp only at stored
      rw [found] at stored
      split_ifs at stored with here
      · cases stored
        exact here
      · exact exact.keyed hash orphan stored
    · apply inverse_linkAll _ _ _ _ _ exact.index
      intro hash prev
      rw [Spends, Spends, found]
      by_cases here : getHash tx = hash
      · rw [if_pos here, ← here, missing]
        simp
      · rw [if_neg here]
        simp [Ne.symm here]

theorem erase_found (hash other : Uint256) :
    (pool.eraseOrphanTx hash).mapOrphanTransactions[other]? =
      if hash = other then none else pool.mapOrphanTransactions[other]? := by
  rw [eraseOrphanTx]
  cases found : pool.mapOrphanTransactions[hash]? with
  | none =>
      dsimp only
      split_ifs with here
      · rw [← here, found]
      · rfl
  | some orphan => simp only [TreeMap.getElem?_erase, LawfulEqCmp.compare_eq_iff_eq]

theorem exact_erase (hash : Uint256) (exact : Exact getHash pool) :
    Exact getHash (pool.eraseOrphanTx hash) := by
  have left := erase_found pool hash
  constructor
  · intro other orphan stored
    rw [left] at stored
    split_ifs at stored
    exact exact.keyed other orphan stored
  · have spends : ∀ other prev, (pool.eraseOrphanTx hash).Spends other prev ↔
        hash ≠ other ∧ pool.Spends other prev := by
      intro other prev
      rw [Spends, Spends, left]
      by_cases here : hash = other
      · simp [here]
      · simp [here]
    cases found : pool.mapOrphanTransactions[hash]? with
    | none =>
        have same : (pool.eraseOrphanTx hash).mapOrphanTransactionsByPrev =
            pool.mapOrphanTransactionsByPrev := by rw [eraseOrphanTx, found]
        rw [same]
        refine ⟨exact.index.filled, fun other prev => ?_⟩
        rw [exact.index.linked, spends]
        constructor
        · intro given
          refine ⟨fun here => ?_, given⟩
          obtain ⟨orphan, stored, -⟩ := given
          rw [← here, found] at stored
          cases stored
        · exact fun given => given.2
    | some orphan =>
        have index : (pool.eraseOrphanTx hash).mapOrphanTransactionsByPrev =
            unlinkAll pool.mapOrphanTransactionsByPrev hash orphan.prevHashes := by
          rw [eraseOrphanTx, found]
        rw [index]
        apply inverse_unlinkAll _ _ _ _ _ exact.index
        intro other prev
        rw [spends]
        by_cases here : hash = other
        · subst here
          rw [Spends, found]
          simp
        · simp [here, Ne.symm here]

/-! ## Loops -/

/-- Every element that the traversal has before it is still there. -/
theorem eraseFrom_exact (peer : Int) (rest : List Uint256) (exact : Exact getHash pool)
    (present : ∀ hash ∈ rest, hash ∈ pool.mapOrphanTransactions) (distinct : rest.Nodup) :
    ∃ pool', eraseFrom getHash peer rest pool = some pool' ∧ Exact getHash pool' ∧
      ∀ (hash : Uint256) orphan, pool'.mapOrphanTransactions[hash]? = some orphan ↔
        pool.mapOrphanTransactions[hash]? = some orphan ∧
          ¬ (hash ∈ rest ∧ orphan.fromPeer = peer) := by
  induction rest generalizing pool with
  | nil => exact ⟨pool, rfl, exact, fun hash orphan => by simp⟩
  | cons maybeErase rest ih =>
      rw [List.forall_mem_cons] at present
      obtain ⟨outside, others⟩ := List.nodup_cons.mp distinct
      obtain ⟨orphan, found⟩ : ∃ orphan, pool.mapOrphanTransactions[maybeErase]? = some orphan :=
        Option.isSome_iff_exists.mp (TreeMap.isSome_getElem?_eq_contains.trans present.1)
      rw [eraseFrom, found]
      dsimp only
      split_ifs with from_peer
      · rw [exact.keyed maybeErase orphan found]
        have left := erase_found pool maybeErase
        have stays : ∀ hash ∈ rest,
            hash ∈ (pool.eraseOrphanTx maybeErase).mapOrphanTransactions := by
          intro hash member
          have other : maybeErase ≠ hash := by
            intro here
            rw [here] at outside
            exact outside member
          rw [TreeMap.mem_iff_isSome_getElem?, left, if_neg other,
            ← TreeMap.mem_iff_isSome_getElem?]
          exact present.2 hash member
        obtain ⟨pool', ran, exact', rest'⟩ :=
          ih (pool.eraseOrphanTx maybeErase) (exact_erase getHash pool maybeErase exact) stays others
        refine ⟨pool', ran, exact', fun hash other => ?_⟩
        rw [rest', left, List.mem_cons]
        by_cases here : maybeErase = hash
        · subst here
          rw [if_pos rfl, found]
          constructor
          · intro given
            cases given.1
          · intro given
            cases given.1
            exact (given.2 ⟨.inl rfl, from_peer⟩).elim
        · rw [if_neg here]
          simp [Ne.symm here]
      · obtain ⟨pool', ran, exact', rest'⟩ := ih pool exact present.2 others
        refine ⟨pool', ran, exact', fun hash other => ?_⟩
        rw [rest', List.mem_cons]
        by_cases here : maybeErase = hash
        · subst here
          rw [found]
          constructor
          · intro given
            cases given.1
            exact ⟨rfl, fun both => from_peer both.2⟩
          · intro given
            exact ⟨given.1, fun both => outside both.1⟩
        · simp [Ne.symm here]

/-- `EraseOrphansFor` leaves exactly the orphans of other peers. -/
theorem eraseOrphansFor_exact (peer : Int) (exact : Exact getHash pool) :
    ∃ pool', pool.eraseOrphansFor getHash peer = some pool' ∧ Exact getHash pool' ∧
      ∀ (hash : Uint256) orphan, pool'.mapOrphanTransactions[hash]? = some orphan ↔
        pool.mapOrphanTransactions[hash]? = some orphan ∧ orphan.fromPeer ≠ peer := by
  obtain ⟨pool', ran, exact', left⟩ := eraseFrom_exact getHash pool peer
    pool.mapOrphanTransactions.keys exact (fun _ => TreeMap.mem_keys.mp) TreeMap.nodup_keys
  refine ⟨pool', ran, exact', fun hash orphan => ?_⟩
  rw [left]
  constructor
  · intro given
    refine ⟨given.1, fun same => given.2 ⟨?_, same⟩⟩
    rw [TreeMap.mem_keys, TreeMap.mem_iff_isSome_getElem?, given.1]
    rfl
  · exact fun given => ⟨given.1, fun both => given.2 both.2⟩

theorem lowerBound_mem (randomhash hash : Uint256) (found : pool.lowerBound randomhash = some hash) :
    hash ∈ pool.mapOrphanTransactions := by
  rw [lowerBound, Option.or_eq_some_iff] at found
  rw [← TreeMap.mem_keys]
  rcases found with later | first
  · exact List.mem_of_find?_eq_some later
  · exact List.mem_of_head? first.2

theorem lowerBound_some (randomhash : Uint256) (filled : 0 < pool.mapOrphanTransactions.size) :
    ∃ hash, pool.lowerBound randomhash = some hash := by
  rw [← TreeMap.length_keys] at filled
  rw [lowerBound]
  cases keys : pool.mapOrphanTransactions.keys with
  | nil =>
      rw [keys] at filled
      cases filled
  | cons hash rest =>
      rw [List.head?_cons, Option.or_some]
      exact ⟨_, rfl⟩

theorem erase_size (hash : Uint256) (member : hash ∈ pool.mapOrphanTransactions) :
    (pool.eraseOrphanTx hash).mapOrphanTransactions.size + 1 =
      pool.mapOrphanTransactions.size := by
  obtain ⟨orphan, found⟩ : ∃ orphan, pool.mapOrphanTransactions[hash]? = some orphan :=
    Option.isSome_iff_exists.mp (TreeMap.isSome_getElem?_eq_contains.trans member)
  have filled : 0 < pool.mapOrphanTransactions.size := by
    rw [← TreeMap.length_keys]
    exact List.length_pos_of_mem (TreeMap.mem_keys.mpr member)
  have erased : (pool.eraseOrphanTx hash).mapOrphanTransactions =
      pool.mapOrphanTransactions.erase hash := by rw [eraseOrphanTx, found]
  rw [erased, TreeMap.size_erase, if_pos (TreeMap.contains_iff_mem.mpr member)]
  omega

/-- Every turn takes one orphan, so the loop ends with few enough. -/
theorem limitFrom_exact (nMaxOrphans : Nat) (random : Nat → Uint256) (fuel nEvicted : Nat)
    (exact : Exact getHash pool) (enough : pool.mapOrphanTransactions.size < fuel) :
    ∃ pool' evicted, limitFrom nMaxOrphans random fuel nEvicted pool = some (pool', evicted) ∧
      Exact getHash pool' ∧ pool'.mapOrphanTransactions.size ≤ nMaxOrphans ∧
      pool'.mapOrphanTransactions.size + evicted =
        pool.mapOrphanTransactions.size + nEvicted := by
  induction fuel generalizing pool nEvicted with
  | zero => exact (Nat.not_lt_zero _ enough).elim
  | succ fuel ih =>
      rw [limitFrom]
      split_ifs with over_limit
      · obtain ⟨hash, found⟩ := lowerBound_some pool (random nEvicted) (by omega)
        have size := erase_size pool hash (lowerBound_mem pool _ hash found)
        rw [found]
        obtain ⟨pool', evicted, ran, exact', few, count⟩ := ih (pool.eraseOrphanTx hash)
          (nEvicted + 1) (exact_erase getHash pool hash exact) (by omega)
        exact ⟨pool', evicted, ran, exact', few, by omega⟩
      · exact ⟨pool, nEvicted, rfl, exact, by omega, rfl⟩

theorem limitOrphanTxSize_exact (nMaxOrphans : Nat) (random : Nat → Uint256)
    (exact : Exact getHash pool) :
    ∃ pool' nEvicted, pool.limitOrphanTxSize nMaxOrphans random = some (pool', nEvicted) ∧
      Exact getHash pool' ∧ pool'.mapOrphanTransactions.size ≤ nMaxOrphans ∧
      pool'.mapOrphanTransactions.size + nEvicted = pool.mapOrphanTransactions.size :=
  limitFrom_exact getHash pool nMaxOrphans random _ 0 exact (Nat.lt_succ_self _)

end Operations

theorem exact_step (getHash : CTransaction → Uint256) (pool : OrphanPool) (step : Step)
    (exact : Exact getHash pool) :
    ∃ pool', step.run getHash pool = some pool' ∧ Exact getHash pool' := by
  cases step with
  | addOrphanTx tx peer => exact ⟨_, rfl, exact_add getHash pool tx peer exact⟩
  | eraseOrphanTx hash => exact ⟨_, rfl, exact_erase getHash pool hash exact⟩
  | eraseOrphansFor peer =>
      obtain ⟨pool', ran, exact', -⟩ := eraseOrphansFor_exact getHash pool peer exact
      exact ⟨pool', ran, exact'⟩
  | limitOrphanTxSize nMaxOrphans random =>
      obtain ⟨pool', nEvicted, ran, exact', -⟩ :=
        limitOrphanTxSize_exact getHash pool nMaxOrphans random exact
      exact ⟨pool', by rw [Step.run, ran]; rfl, exact'⟩

theorem exact_run (getHash : CTransaction → Uint256) (pool : OrphanPool) (steps : List Step)
    (exact : Exact getHash pool) :
    ∃ pool', runSteps getHash pool steps = some pool' ∧ Exact getHash pool' := by
  induction steps generalizing pool with
  | nil => exact ⟨pool, rfl, exact⟩
  | cons step steps ih =>
      obtain ⟨middle, ran, exact'⟩ := exact_step getHash pool step exact
      rw [runSteps, ran]
      exact ih middle exact'

/-- After every sequence of operations the index has exactly the transactions that stored orphans
spend from, with exactly those orphans, and the pool can be cut down to any number of them. -/
theorem orphans_indexed (getHash : CTransaction → Uint256) (steps : List Step) :
    ∃ pool, runSteps getHash empty steps = some pool ∧
      (∀ prev : Uint256, pool.mapOrphanTransactionsByPrev.contains prev = true ↔
        ∃ hash, pool.Spends hash prev) ∧
      (∀ (prev : Uint256) owners, pool.mapOrphanTransactionsByPrev[prev]? = some owners →
        owners.isEmpty = false ∧ ∀ hash, hash ∈ owners ↔ pool.Spends hash prev) ∧
      ∀ nMaxOrphans random, ∃ pool' nEvicted,
        pool.limitOrphanTxSize nMaxOrphans random = some (pool', nEvicted) ∧
          pool'.mapOrphanTransactions.size ≤ nMaxOrphans := by
  obtain ⟨pool, ran, exact⟩ := exact_run getHash empty steps (exact_empty getHash)
  have sets : ∀ (prev : Uint256) owners, pool.mapOrphanTransactionsByPrev[prev]? = some owners →
      owners.isEmpty = false ∧ ∀ hash, hash ∈ owners ↔ pool.Spends hash prev := by
    intro prev owners found
    refine ⟨exact.index.filled prev owners found, fun hash => ?_⟩
    rw [← linked_some _ hash prev owners found, exact.index.linked]
  refine ⟨pool, ran, contains_iff _ _ exact.index, sets, ?_⟩
  intro nMaxOrphans random
  obtain ⟨pool', nEvicted, limited, -, few, -⟩ :=
    limitOrphanTxSize_exact getHash pool nMaxOrphans random exact
  exact ⟨pool', nEvicted, limited, few⟩

end OrphanPool

end RoiCoin
