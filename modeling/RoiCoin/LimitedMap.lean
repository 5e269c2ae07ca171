import Mathlib.Data.List.Nodup
import Mathlib.Order.Lattice.Nat
import RoiCoin.Lib.Multimap
import RoiCoin.Lib.Runs

/-! The map that keeps the elements of highest value (`limitedmap.h`).

An iterator into `map` is the key of its element. An operation gives nothing where an assertion
fails, or where `rmap.begin()` of an empty `rmap` or an iterator to no element is used. -/

namespace RoiCoin

structure LimitedMap (K V : Type) where
  map : List (K × V)
  rmap : List (V × K)
  nMaxSize : Nat
  deriving DecidableEq

namespace LimitedMap

variable {K V : Type} [DecidableEq K]

def new (nMaxSizeIn : Nat) : LimitedMap K V := ⟨[], [], nMaxSizeIn⟩

def size (m : LimitedMap K V) : Nat := m.map.length

def find (m : LimitedMap K V) (k : K) : Option (K × V) := m.map.find? fun entry => entry.1 = k

/-- `map.erase(it)` -/
def eraseKey (k : K) (map : List (K × V)) : List (K × V) := map.eraseP fun entry => entry.1 = k

theorem find_none (m : LimitedMap K V) (k : K) :
    m.find k = none ↔ k ∉ m.map.map Prod.fst := by
  simp only [find, List.find?_eq_none, decide_eq_true_eq, List.mem_map, not_exists, not_and]

theorem find_some (m : LimitedMap K V) (k : K) (entry : K × V) (found : m.find k = some entry) :
    entry ∈ m.map ∧ entry.1 = k := by
  have key := List.find?_some found
  exact ⟨List.mem_of_find?_eq_some found, of_decide_eq_true key⟩

/-- With one element for every key, erasing takes out the one of the key. -/
theorem eraseKey_perm (map : List (K × V)) (entry : K × V)
    (keys : (map.map Prod.fst).Nodup) (member : entry ∈ map) :
    map.Perm (entry :: eraseKey entry.1 map) := by
  obtain ⟨found, before, after, -, same, split, erased⟩ := List.exists_of_eraseP
    (p := fun other => decide (other.1 = entry.1)) member (by simp)
  have whole : found = entry := by
    apply List.inj_on_of_nodup_map keys _ member (of_decide_eq_true same)
    rw [split]
    exact List.mem_append_right before List.mem_cons_self
  rw [eraseKey, erased, split, whole]
  exact List.perm_middle

theorem eraseKey_keys (map : List (K × V)) (k : K) (keys : (map.map Prod.fst).Nodup) :
    ((eraseKey k map).map Prod.fst).Nodup :=
  keys.sublist (List.eraseP_sublist.map Prod.fst)

/-- The index without one entry is that of the map without the element. -/
theorem inverse_eraseKey (map : List (K × V)) (rmap rest : List (V × K)) (entry : K × V)
    (keys : (map.map Prod.fst).Nodup) (member : entry ∈ map)
    (inverse : rmap.Perm (map.map Prod.swap)) (split : rmap.Perm (entry.swap :: rest)) :
    rest.Perm ((eraseKey entry.1 map).map Prod.swap) := by
  have parts := (eraseKey_perm map entry keys member).map Prod.swap
  exact ((split.symm.trans inverse).trans parts).cons_inv

/-- The element with its new value is the only change of the map. -/
theorem assign_perm (map : List (K × V)) (entry : K × V) (v : V)
    (keys : (map.map Prod.fst).Nodup) (member : entry ∈ map) :
    (map.map fun other => if other.1 = entry.1 then (entry.1, v) else other).Perm
      ((entry.1, v) :: eraseKey entry.1 map) := by
  have parts := eraseKey_perm map entry keys member
  have apart := (parts.map Prod.fst).nodup_iff.mp keys
  have others : ∀ other ∈ eraseKey entry.1 map, ¬ other.1 = entry.1 := by
    intro other there same
    exact (List.nodup_cons.mp apart).1 (List.mem_map.mpr ⟨other, there, same⟩)
  have kept : (eraseKey entry.1 map).map
      (fun other => if other.1 = entry.1 then (entry.1, v) else other) = eraseKey entry.1 map := by
    rw [List.map_congr_left fun other there => if_neg (others other there), List.map_id']
  have mapped := parts.map fun other => if other.1 = entry.1 then (entry.1, v) else other
  rwa [List.map_cons, if_pos rfl, kept] at mapped

/-- `map.erase(rmap.begin()->second); rmap.erase(rmap.begin())` -/
def evict (m : LimitedMap K V) : Option (LimitedMap K V) :=
  match m.rmap with
  | [] => none
  | (_, k) :: rest =>
      if (m.find k).isSome then some { m with map := eraseKey k m.map, rmap := rest } else none

variable [LinearOrder V]

def insert (m : LimitedMap K V) (k : K) (v : V) : Option (LimitedMap K V) :=
  match m.find k with
  | some _ => some m
  | none => do
      let grown := { m with map := m.map ++ [(k, v)] }
      let m ← if grown.nMaxSize ≠ 0 ∧ grown.size = grown.nMaxSize then grown.evict else some grown
      some { m with rmap := Multimap.insert v k m.rmap }

/-- The loops of `erase` and `update` over the entries of a value: take the one of the element out. -/
def unlink (rmap : List (V × K)) (v : V) (k : K) : Option (List (V × K)) :=
  if (v, k) ∈ Multimap.equalRange v rmap then some (rmap.erase (v, k)) else none

def erase (m : LimitedMap K V) (k : K) : Option (LimitedMap K V) :=
  match m.find k with
  | none => some m
  | some itTarget => do
      let rmap ← unlink m.rmap itTarget.2 k
      some { m with rmap, map := eraseKey k m.map }

/-- `update(find(k), v)` -/
def update (m : LimitedMap K V) (k : K) (v : V) : Option (LimitedMap K V) :=
  match m.find k with
  | none => some m
  | some itTarget => do
      let rmap ← unlink m.rmap itTarget.2 k
      let map := m.map.map fun entry => if entry.1 = k then (k, v) else entry
      some { m with map, rmap := Multimap.insert v k rmap }

/-- `while (map.size() > s)`; the number bounds the rounds. -/
def shrink (s : Nat) : Nat → LimitedMap K V → Option (LimitedMap K V)
  | 0, m => if m.size > s then none else some m
  | rounds + 1, m => if m.size > s then m.evict >>= shrink s rounds else some m

/-- `max_size(s)` -/
def maxSize (m : LimitedMap K V) (s : Nat) : Option (LimitedMap K V) := do
  let m ← if s ≠ 0 then shrink s m.size m else some m
  some { m with nMaxSize := s }

/-! ## Operations -/

inductive Operation (K V : Type) where
  | insert (k : K) (v : V)
  | erase (k : K)
  | update (k : K) (v : V)
  | maxSize (s : Nat)

def step (m : LimitedMap K V) : Operation K V → Option (LimitedMap K V)
  | .insert k v => m.insert k v
  | .erase k => m.erase k
  | .update k v => m.update k v
  | .maxSize s => m.maxSize s

def run (m : LimitedMap K V) (operations : List (Operation K V)) : Option (LimitedMap K V) :=
  operations.foldlM step m

/-! ## The index of the values -/

/-- `rmap` has one entry for every element, under the value it has now. -/
structure Inverse (map : List (K × V)) (rmap : List (V × K)) : Prop where
  sorted : Multimap.Sorted rmap
  exact : rmap.Perm (map.map Prod.swap)

structure Exact (m : LimitedMap K V) : Prop where
  keys : (m.map.map Prod.fst).Nodup
  inverse : Inverse m.map m.rmap

/-! ## Eviction -/

/-- The element of the first entry of the index has the smallest value. What is in the map beyond
the index stays. -/
theorem evict_smallest (m : LimitedMap K V) (indexed others : List (K × V))
    (parts : m.map = indexed ++ others) (keys : (indexed.map Prod.fst).Nodup)
    (inverse : Inverse indexed m.rmap) (filled : indexed ≠ []) :
    ∃ entry rest, entry ∈ indexed ∧ (∀ other ∈ indexed, entry.2 ≤ other.2) ∧
      m.evict = some { m with map := eraseKey entry.1 indexed ++ others, rmap := rest } ∧
      Inverse (eraseKey entry.1 indexed) rest := by
  cases index : m.rmap with
  | nil =>
      have exact := inverse.exact
      rw [index] at exact
      exact absurd (List.map_eq_nil_iff.mp exact.nil_eq.symm) filled
  | cons first rest =>
      have exact := inverse.exact
      have sorted := inverse.sorted
      rw [index] at exact sorted
      have member : first.swap ∈ indexed := by
        have inside := exact.mem_iff.mp List.mem_cons_self
        obtain ⟨entry, there, same⟩ := List.mem_map.mp inside
        rwa [← same, Prod.swap_swap]
      have least : ∀ other ∈ indexed, first.1 ≤ other.2 := by
        intro other there
        exact Multimap.first_least first other.swap rest sorted
          (exact.mem_iff.mpr (List.mem_map_of_mem there))
      have found : (m.find first.2).isSome = true := by
        rw [Option.isSome_iff_ne_none, ne_eq, find_none, not_not, parts]
        exact List.mem_map.mpr ⟨first.swap, List.mem_append_left _ member, rfl⟩
      have erased : eraseKey first.2 m.map = eraseKey first.2 indexed ++ others := by
        rw [eraseKey, parts]
        exact List.eraseP_append_left (a := first.swap) (by simp) _ member
      refine ⟨first.swap, rest, member, least, ?_, List.Pairwise.of_cons sorted, ?_⟩
      · rw [evict, index]
        simp only [found, if_true, erased, Prod.fst_swap]
      · exact inverse_eraseKey indexed (first :: rest) rest first.swap keys member exact
          (List.Perm.refl _)

/-! ## Operations keep the index -/

/-- An element that is new goes into the index, after the eviction of one that was there if that
makes the map as large as its capacity. -/
theorem insert_new (m : LimitedMap K V) (k : K) (v : V) (exact : m.Exact) (large : 2 ≤ m.nMaxSize)
    (new : k ∉ m.map.map Prod.fst) :
    ∃ m', m.insert k v = some m' ∧ m'.Exact ∧ m'.nMaxSize = m.nMaxSize ∧
      if m.size + 1 = m.nMaxSize then
        ∃ entry ∈ m.map, (∀ other ∈ m.map, entry.2 ≤ other.2) ∧
          m'.map = eraseKey entry.1 m.map ++ [(k, v)]
      else m'.map = m.map ++ [(k, v)] := by
  have linked (map : List (K × V)) (rmap : List (V × K)) (inverse : Inverse map rmap) :
      Inverse (map ++ [(k, v)]) (Multimap.insert v k rmap) := by
    constructor
    · exact Multimap.sorted_insert v k rmap inverse.sorted
    · rw [List.map_append]
      exact ((Multimap.insert_perm v k rmap).trans (inverse.exact.cons _)).trans
        (List.perm_append_singleton _ _).symm
  have keyed (map : List (K × V)) (part : map.Sublist m.map) :
      ((map ++ [(k, v)]).map Prod.fst).Nodup := by
    rw [List.map_append, List.map_singleton, ← List.concat_eq_append, List.nodup_concat]
    exact ⟨fun member => new ((part.map Prod.fst).subset member), exact.keys.sublist (part.map _)⟩
  rw [insert, (find_none m k).mpr new]
  have grown : LimitedMap.size { m with map := m.map ++ [(k, v)] } = m.size + 1 := by
    simp [LimitedMap.size]
  simp only [grown]
  by_cases full : m.size + 1 = m.nMaxSize
  · have filled : m.map ≠ [] := by
      intro nothing
      rw [LimitedMap.size, nothing, List.length_nil] at full
      omega
    obtain ⟨entry, rest, member, least, evicted, inverse⟩ :=
      evict_smallest { m with map := m.map ++ [(k, v)] } m.map [(k, v)] rfl exact.keys exact.inverse
        filled
    rw [if_pos ⟨by omega, full⟩, evicted]
    refine ⟨_, rfl, ⟨keyed _ List.eraseP_sublist, linked _ rest inverse⟩, rfl, ?_⟩
    rw [if_pos full]
    exact ⟨entry, member, least, rfl⟩
  · rw [if_neg fun both => full both.2]
    refine ⟨_, rfl, ⟨keyed _ (List.Sublist.refl _), linked _ m.rmap exact.inverse⟩, rfl, ?_⟩
    rw [if_neg full]

/-- The entry of an element is found among those of its value. -/
theorem unlink_entry (map : List (K × V)) (rmap : List (V × K)) (entry : K × V)
    (keys : (map.map Prod.fst).Nodup) (inverse : Inverse map rmap) (member : entry ∈ map) :
    unlink rmap entry.2 entry.1 = some (rmap.erase entry.swap) ∧
      Inverse (eraseKey entry.1 map) (rmap.erase entry.swap) := by
  have inside : entry.swap ∈ rmap := inverse.exact.mem_iff.mpr (List.mem_map_of_mem member)
  have range : (entry.2, entry.1) ∈ Multimap.equalRange entry.2 rmap :=
    (Multimap.mem_equalRange _ _ _).mpr ⟨inside, rfl⟩
  constructor
  · rw [unlink, if_pos range]
    rfl
  · exact ⟨inverse.sorted.sublist List.erase_sublist,
      inverse_eraseKey map rmap _ entry keys member inverse.exact (List.perm_cons_erase inside)⟩

theorem erase_keeps (m : LimitedMap K V) (k : K) (exact : m.Exact) :
    ∃ m', m.erase k = some m' ∧ m'.Exact ∧ m'.size ≤ m.size ∧ m'.nMaxSize = m.nMaxSize := by
  rw [erase]
  cases found : m.find k with
  | none => exact ⟨m, rfl, exact, Nat.le_refl _, rfl⟩
  | some itTarget =>
      obtain ⟨member, key⟩ := find_some m k itTarget found
      obtain ⟨unlinked, inverse⟩ := unlink_entry m.map m.rmap itTarget exact.keys exact.inverse member
      rw [key] at unlinked inverse
      simp only [unlinked]
      exact ⟨_, rfl, ⟨eraseKey_keys _ _ exact.keys, inverse⟩, List.eraseP_sublist.length_le, rfl⟩

theorem update_keeps (m : LimitedMap K V) (k : K) (v : V) (exact : m.Exact) :
    ∃ m', m.update k v = some m' ∧ m'.Exact ∧ m'.size = m.size ∧ m'.nMaxSize = m.nMaxSize := by
  rw [update]
  cases found : m.find k with
  | none => exact ⟨m, rfl, exact, rfl, rfl⟩
  | some itTarget =>
      obtain ⟨member, key⟩ := find_some m k itTarget found
      obtain ⟨unlinked, inverse⟩ := unlink_entry m.map m.rmap itTarget exact.keys exact.inverse member
      have assigned := assign_perm m.map itTarget v exact.keys member
      rw [key] at unlinked inverse assigned
      have keys : (m.map.map fun entry => if entry.1 = k then (k, v) else entry).map Prod.fst =
          m.map.map Prod.fst := by
        rw [List.map_map]
        apply List.map_congr_left
        intro entry _
        by_cases here : entry.1 = k <;> simp [here]
      have added := (Multimap.insert_perm v k (m.rmap.erase itTarget.swap)).trans
        (inverse.exact.cons (v, k))
      simp only [unlinked]
      refine ⟨_, rfl, ⟨keys ▸ exact.keys, Multimap.sorted_insert v k _ inverse.sorted, ?_⟩,
        List.length_map _, rfl⟩
      exact added.trans (assigned.map Prod.swap).symm

/-- What was evicted is not above what is left. -/
def Smallest (map left : List (K × V)) : Prop :=
  ∀ entry ∈ map, entry ∉ left → ∀ other ∈ left, entry.2 ≤ other.2

theorem shrink_keeps (s rounds : Nat) (m : LimitedMap K V) (exact : m.Exact)
    (enough : m.size ≤ rounds) :
    ∃ m', shrink s rounds m = some m' ∧ m'.Exact ∧ m'.size ≤ s ∧ m'.map.Sublist m.map ∧
      Smallest m.map m'.map := by
  induction rounds generalizing m with
  | zero =>
      refine ⟨m, ?_, exact, by omega, List.Sublist.refl _, fun entry there gone => absurd there gone⟩
      rw [shrink, if_neg (by omega)]
  | succ rounds ih =>
      rw [shrink]
      split
      · rename_i more
        have filled : m.map ≠ [] := by
          intro nothing
          rw [size, nothing, List.length_nil] at more
          omega
        obtain ⟨entry, rest, member, least, evicted, inverse⟩ :=
          evict_smallest m m.map [] (List.append_nil _).symm exact.keys exact.inverse filled
        rw [List.append_nil] at evicted
        have parts := eraseKey_perm m.map entry exact.keys member
        have smaller : (eraseKey entry.1 m.map).length + 1 = m.size := parts.length_eq.symm
        obtain ⟨m', shrunk, exact', small, part, smallest⟩ :=
          ih { m with map := eraseKey entry.1 m.map, rmap := rest }
            ⟨eraseKey_keys _ _ exact.keys, inverse⟩
            (show (eraseKey entry.1 m.map).length ≤ rounds by omega)
        refine ⟨m', ?_, exact', small, part.trans List.eraseP_sublist, ?_⟩
        · rw [evicted]
          exact shrunk
        · intro old there gone other left
          rcases List.mem_cons.mp (parts.mem_iff.mp there) with same | later
          · rw [same]
            exact least other (List.eraseP_sublist.subset (part.subset left))
          · exact smallest old later gone other left
      · rename_i small
        exact ⟨m, rfl, exact, by omega, List.Sublist.refl _,
          fun entry there gone => absurd there gone⟩

/-! ## Runs -/

/-- An insert evicts an element of smallest value among those there before, or none. -/
def EvictsSmallest (m m' : LimitedMap K V) : Operation K V → Prop
  | .insert k v => k ∉ m.map.map Prod.fst → m'.map = m.map ++ [(k, v)] ∨
      ∃ entry ∈ m.map, (∀ other ∈ m.map, entry.2 ≤ other.2) ∧
        m'.map = eraseKey entry.1 m.map ++ [(k, v)]
  | .erase _ => True
  | .update _ _ => True
  | .maxSize _ => Smallest m.map m'.map

/-- No operation fails, and every state has an exact index and is within its capacity. -/
def Bounded (m : LimitedMap K V) : List (Operation K V) → Prop
  | [] => m.Exact ∧ m.size ≤ m.nMaxSize
  | operation :: rest => (m.Exact ∧ m.size ≤ m.nMaxSize) ∧
      ∃ m', m.step operation = some m' ∧ EvictsSmallest m m' operation ∧ m'.Bounded rest

/-- No new element comes while the map is exactly as large as its capacity. -/
def RoomFor (m : LimitedMap K V) : Operation K V → Prop
  | .insert k _ => k ∉ m.map.map Prod.fst → m.size ≠ m.nMaxSize
  | .erase _ => True
  | .update _ _ => True
  | .maxSize _ => True

instance (m : LimitedMap K V) (operation : Operation K V) : Decidable (m.RoomFor operation) :=
  match operation with
  | .insert k _ => inferInstanceAs (Decidable (k ∉ m.map.map Prod.fst → m.size ≠ m.nMaxSize))
  | .erase _ => isTrue trivial
  | .update _ _ => isTrue trivial
  | .maxSize _ => isTrue trivial

def Operation.Large : Operation K V → Prop
  | .maxSize s => 2 ≤ s
  | _ => True

def next (m : LimitedMap K V) (operation : Operation K V) : LimitedMap K V :=
  (m.step operation).getD m

/-- One operation: the index stays exact whatever the size, and the bound stays exactly if there is
room. -/
theorem step_keeps (m : LimitedMap K V) (operation : Operation K V) (exact : m.Exact)
    (large : 2 ≤ m.nMaxSize) (capacity : operation.Large) :
    ∃ m', m.step operation = some m' ∧ m'.Exact ∧ 2 ≤ m'.nMaxSize ∧
      EvictsSmallest m m' operation ∧
      (m.size ≤ m.nMaxSize → (m'.size ≤ m'.nMaxSize ↔ m.RoomFor operation)) := by
  cases operation with
  | insert k v =>
      by_cases new : k ∈ m.map.map Prod.fst
      · have found : ∃ entry, m.find k = some entry := by
          rw [← Option.isSome_iff_exists, Option.isSome_iff_ne_none, ne_eq, find_none, not_not]
          exact new
        obtain ⟨entry, there⟩ := found
        refine ⟨m, ?_, exact, large, fun absent => absurd new absent, fun inside => ?_⟩
        · rw [step, insert, there]
        · exact iff_of_true inside fun absent => absurd new absent
      · obtain ⟨m', inserted, exact', same, how⟩ := insert_new m k v exact large new
        refine ⟨m', inserted, exact', same ▸ large, fun _ => ?_, fun inside => ?_⟩
        · split at how
          · exact .inr how
          · exact .inl how
        · have room : m.RoomFor (.insert k v) ↔ m.size ≠ m.nMaxSize := by simp [RoomFor, new]
          rw [room, same]
          split at how
          · obtain ⟨entry, member, -, left⟩ := how
            have parts := (eraseKey_perm m.map entry exact.keys member).length_eq
            rw [size, size, left, List.length_append]
            rw [size] at *
            simp only [List.length_cons, List.length_nil] at *
            omega
          · rw [size, size, how, List.length_append, List.length_singleton]
            rw [size] at *
            omega
  | erase k =>
      obtain ⟨m', erased, exact', smaller, same⟩ := erase_keeps m k exact
      refine ⟨m', erased, exact', same ▸ large, trivial, fun inside => iff_of_true ?_ trivial⟩
      rw [same]
      exact Nat.le_trans smaller inside
  | update k v =>
      obtain ⟨m', updated, exact', sized, same⟩ := update_keeps m k v exact
      refine ⟨m', updated, exact', same ▸ large, trivial, fun inside => iff_of_true ?_ trivial⟩
      rw [same, sized]
      exact inside
  | maxSize s =>
      have positive : s ≠ 0 := by
        have two : 2 ≤ s := capacity
        omega
      obtain ⟨m', shrunk, exact', small, -, smallest⟩ :=
        shrink_keeps s m.size m exact (Nat.le_refl _)
      refine ⟨{ m' with nMaxSize := s }, ?_, ⟨exact'.keys, exact'.inverse⟩, capacity, smallest,
        fun _ => iff_of_true small trivial⟩
      rw [step, maxSize, if_pos positive, shrunk]
      rfl

theorem bounded_from (m : LimitedMap K V) (operations : List (Operation K V)) (exact : m.Exact)
    (large : 2 ≤ m.nMaxSize) (inside : m.size ≤ m.nMaxSize)
    (capacities : ∀ operation ∈ operations, operation.Large) :
    m.Bounded operations ↔ Runs.EachStep next RoomFor m operations := by
  induction operations generalizing m with
  | nil => exact iff_of_true ⟨exact, inside⟩ trivial
  | cons operation rest ih =>
      obtain ⟨m', stepped, exact', large', evicts, bound⟩ :=
        step_keeps m operation exact large (capacities operation List.mem_cons_self)
      have reached : m.next operation = m' := by rw [next, stepped, Option.getD_some]
      have later : m'.size ≤ m'.nMaxSize → (m'.Bounded rest ↔ Runs.EachStep next RoomFor m' rest) :=
        fun within => ih m' exact' large' within
          fun other member => capacities other (List.mem_cons_of_mem _ member)
      rw [Runs.EachStep, reached]
      constructor
      · intro bounded
        obtain ⟨-, next, went, -, after⟩ := bounded
        rw [stepped, Option.some.injEq] at went
        rw [← went] at after
        have within : m'.size ≤ m'.nMaxSize := by
          cases rest with
          | nil => exact after.2
          | cons => exact after.1.2
        exact ⟨(bound inside).mp within, (later within).mp after⟩
      · intro steps
        exact ⟨⟨exact, inside⟩, m', stepped, evicts,
          (later ((bound inside).mpr steps.1)).mpr steps.2⟩

/-- A run stays within its capacities, with an exact index and smallest evictions, exactly if no
insert of a new element meets a map that is as large as its capacity. -/
theorem bounded_iff (c : Nat) (operations : List (Operation K V)) (large : 2 ≤ c)
    (capacities : ∀ operation ∈ operations, operation.Large) :
    (new c : LimitedMap K V).Bounded operations ↔
      Runs.EachStep next RoomFor (new c) operations := by
  have exact : (new c : LimitedMap K V).Exact :=
    ⟨List.nodup_nil, List.Pairwise.nil, List.Perm.refl _⟩
  exact bounded_from (new c) operations exact large (Nat.zero_le _) capacities

theorem bounded_run (m : LimitedMap K V) (operations : List (Operation K V))
    (bounded : m.Bounded operations) :
    ∃ m', m.run operations = some m' ∧ m'.size ≤ m'.nMaxSize := by
  induction operations generalizing m with
  | nil => exact ⟨m, rfl, bounded.2⟩
  | cons operation rest ih =>
      obtain ⟨-, next, stepped, -, after⟩ := bounded
      obtain ⟨m', ran, inside⟩ := ih next after
      refine ⟨m', ?_, inside⟩
      rw [run, List.foldlM_cons, stepped]
      exact ran

/-- A capacity lowered to the number of elements. -/
def lowering : List (Operation Nat Nat) :=
  [.insert 1 10, .insert 2 20, .insert 3 30, .maxSize 3]

/-- The map passes its capacity, and then nothing is evicted any more. -/
theorem grows_past_capacity :
    (∀ operation ∈ lowering ++ [.insert 4 40, .insert 5 50], operation.Large) ∧
      ¬ (new 4 : LimitedMap Nat Nat).Bounded (lowering ++ [.insert 4 40, .insert 5 50]) ∧
      ((new 4).run (lowering ++ [.insert 4 40, .insert 5 50])).map
        (fun m => (m.size, m.nMaxSize)) = some (5, 3) := by
  have ran : (new 4).run (lowering ++ [.insert 4 40, .insert 5 50]) = some
      ⟨[(1, 10), (2, 20), (3, 30), (4, 40), (5, 50)],
        [(10, 1), (20, 2), (30, 3), (40, 4), (50, 5)], 3⟩ := by decide
  refine ⟨by simp [lowering, Operation.Large], fun bounded => ?_, by rw [ran]; rfl⟩
  obtain ⟨m, reached, inside⟩ := bounded_run _ _ bounded
  rw [ran, Option.some.injEq] at reached
  rw [← reached] at inside
  exact absurd inside (by decide)

/-- The same with an element erased before the next one comes. -/
theorem bounded_iff_erased :
    (2 ≤ 4 ∧ ∀ operation ∈ lowering ++ [.erase 2, .insert 4 5], operation.Large) ∧
      (new 4 : LimitedMap Nat Nat).Bounded (lowering ++ [.erase 2, .insert 4 5]) := by
  have capacities : ∀ operation ∈ lowering ++ [.erase 2, .insert 4 5], operation.Large := by
    simp [lowering, Operation.Large]
  have met : Runs.EachStep next RoomFor (new 4) (lowering ++ [.erase 2, .insert 4 5]) := by
    simp only [lowering, List.cons_append, List.nil_append, Runs.EachStep]
    decide
  exact ⟨⟨by decide, capacities⟩, (bounded_iff 4 _ (by decide) capacities).mpr met⟩

end LimitedMap

end RoiCoin
