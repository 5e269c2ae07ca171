import Mathlib.Data.List.Perm.Basic
import Mathlib.Order.Lattice

/-! Maps as lists of entries with increasing keys. -/

structure OrderedMap (K V : Type) [LinearOrder K] where
  entries : List (K × V)
  ordered : entries.Pairwise fun a b => a.1 < b.1

namespace OrderedMap

variable {K V W : Type} [LinearOrder K]

def empty : OrderedMap K V := ⟨[], List.Pairwise.nil⟩

/-- The entry at its place, instead of the one of its key. -/
def insertEntry (key : K) (value : V) : List (K × V) → List (K × V)
  | [] => [(key, value)]
  | entry :: rest =>
      if key < entry.1 then (key, value) :: entry :: rest
      else if key = entry.1 then (key, value) :: rest
      else entry :: insertEntry key value rest

def findEntry (key : K) (entries : List (K × V)) : Option V :=
  (entries.find? fun entry => entry.1 = key).map Prod.snd

theorem findEntry_cons (key : K) (entry : K × V) (rest : List (K × V)) :
    findEntry key (entry :: rest) = if entry.1 = key then some entry.2 else findEntry key rest := by
  by_cases same : entry.1 = key <;> simp [findEntry, same]

theorem mem_insertEntry (key : K) (value : V) (entries : List (K × V)) (entry : K × V)
    (member : entry ∈ insertEntry key value entries) : entry = (key, value) ∨ entry ∈ entries := by
  induction entries with
  | nil => exact .inl (List.mem_singleton.mp member)
  | cons first rest ih =>
      rw [insertEntry] at member
      split at member
      · exact List.mem_cons.mp member
      split at member
      · rcases List.mem_cons.mp member with new | old
        · exact .inl new
        · exact .inr (List.mem_cons_of_mem first old)
      · rcases List.mem_cons.mp member with old | later
        · exact .inr (old ▸ List.mem_cons_self)
        · exact (ih later).imp id (List.mem_cons_of_mem first)

theorem ordered_insertEntry (key : K) (value : V) (entries : List (K × V))
    (ordered : entries.Pairwise fun a b => a.1 < b.1) :
    (insertEntry key value entries).Pairwise fun a b => a.1 < b.1 := by
  induction entries with
  | nil => exact List.pairwise_singleton _ _
  | cons first rest ih =>
      have parts := List.pairwise_cons.mp ordered
      rw [insertEntry]
      split
      · rename_i before
        refine List.Pairwise.cons ?_ ordered
        intro other member
        rcases List.mem_cons.mp member with same | behind
        · rw [same]
          exact before
        · exact lt_trans before (parts.1 other behind)
      split
      · rename_i same
        refine List.Pairwise.cons ?_ parts.2
        intro other member
        have behind := parts.1 other member
        rwa [← same] at behind
      · rename_i after different
        refine List.Pairwise.cons ?_ (ih parts.2)
        intro other member
        rcases mem_insertEntry key value rest other member with new | old
        · rw [new]
          exact lt_of_le_of_ne (le_of_not_gt after) (Ne.symm different)
        · exact parts.1 other old

theorem findEntry_insertEntry (key other : K) (value : V) (entries : List (K × V)) :
    findEntry other (insertEntry key value entries) =
      if key = other then some value else findEntry other entries := by
  induction entries with
  | nil => rw [insertEntry, findEntry_cons]
  | cons first rest ih =>
      rw [insertEntry]
      split
      · rw [findEntry_cons]
      split
      · rename_i same
        rw [findEntry_cons, findEntry_cons, ← same]
        by_cases here : key = other <;> simp [here]
      · rename_i different
        rw [findEntry_cons, findEntry_cons, ih]
        by_cases here : key = other
        · have apart : first.1 ≠ other := fun same => different (here.trans same.symm)
          simp [here, apart]
        · simp [here]

theorem findEntry_mem (key : K) (value : V) (entries : List (K × V))
    (ordered : entries.Pairwise fun a b => a.1 < b.1) :
    findEntry key entries = some value ↔ (key, value) ∈ entries := by
  induction entries with
  | nil => simp [findEntry]
  | cons first rest ih =>
      have parts := List.pairwise_cons.mp ordered
      rw [findEntry_cons, List.mem_cons, ← ih parts.2]
      by_cases same : first.1 = key
      · have once : findEntry key rest ≠ some value := by
          intro later
          have behind := parts.1 (key, value) ((ih parts.2).mp later)
          exact ne_of_lt behind same
        simp [same, once, Prod.ext_iff, eq_comm]
      · have apart : (key, value) ≠ first := fun whole => same (by rw [← whole])
        simp [same, apart]

def insert (key : K) (value : V) (map : OrderedMap K V) : OrderedMap K V :=
  ⟨insertEntry key value map.entries, ordered_insertEntry key value map.entries map.ordered⟩

def find (key : K) (map : OrderedMap K V) : Option V := findEntry key map.entries

theorem find_empty (key : K) : (empty : OrderedMap K V).find key = none := rfl

theorem find_insert (key other : K) (value : V) (map : OrderedMap K V) :
    (map.insert key value).find other = if key = other then some value else map.find other :=
  findEntry_insertEntry key other value map.entries

theorem find_mem (key : K) (value : V) (map : OrderedMap K V) :
    map.find key = some value ↔ (key, value) ∈ map.entries :=
  findEntry_mem key value map.entries map.ordered

theorem mem_insert (key : K) (value : V) (map : OrderedMap K V) (entry : K × V)
    (member : entry ∈ (map.insert key value).entries) :
    entry = (key, value) ∨ entry ∈ map.entries :=
  mem_insertEntry key value map.entries entry member

end OrderedMap
