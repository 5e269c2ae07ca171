import Mathlib.Data.List.Perm.Basic
import Mathlib.Order.Lattice

/-! Multimaps as lists of entries ordered by key; entries of one key are in the order of insertion. -/

namespace Multimap

variable {K V : Type} [LinearOrder K]

/-- The entry goes behind those of its key. -/
def insert (key : K) (value : V) : List (K × V) → List (K × V)
  | [] => [(key, value)]
  | entry :: rest =>
      if key < entry.1 then (key, value) :: entry :: rest else entry :: insert key value rest

def equalRange (key : K) (entries : List (K × V)) : List (K × V) :=
  entries.filter fun entry => entry.1 = key

def Sorted (entries : List (K × V)) : Prop := entries.Pairwise fun a b => a.1 ≤ b.1

theorem insert_perm (key : K) (value : V) (entries : List (K × V)) :
    (insert key value entries).Perm ((key, value) :: entries) := by
  induction entries with
  | nil => exact List.Perm.refl _
  | cons entry rest ih =>
      rw [insert]
      split
      · exact List.Perm.refl _
      · exact (ih.cons entry).trans (List.Perm.swap _ _ _)

theorem sorted_insert (key : K) (value : V) (entries : List (K × V)) (sorted : Sorted entries) :
    Sorted (insert key value entries) := by
  induction entries with
  | nil => exact List.pairwise_singleton _ _
  | cons entry rest ih =>
      have later : ∀ other ∈ rest, entry.1 ≤ other.1 :=
        fun other member => List.rel_of_pairwise_cons sorted member
      rw [insert]
      split
      · rename_i before
        refine List.Pairwise.cons ?_ sorted
        intro other member
        rcases List.mem_cons.mp member with same | behind
        · rw [same]
          exact le_of_lt before
        · exact le_trans (le_of_lt before) (later other behind)
      · rename_i behind
        refine List.Pairwise.cons ?_ (ih (List.Pairwise.of_cons sorted))
        intro other member
        rcases List.mem_cons.mp ((insert_perm key value rest).mem_iff.mp member) with same | old
        · rw [same]
          exact le_of_not_gt behind
        · exact later other old

theorem mem_equalRange (key : K) (entry : K × V) (entries : List (K × V)) :
    entry ∈ equalRange key entries ↔ entry ∈ entries ∧ entry.1 = key := by
  simp [equalRange]

/-- No key is smaller than that of the first entry. -/
theorem first_least (entry other : K × V) (rest : List (K × V)) (sorted : Sorted (entry :: rest))
    (member : other ∈ entry :: rest) : entry.1 ≤ other.1 := by
  rcases List.mem_cons.mp member with same | behind
  · rw [same]
  · exact List.rel_of_pairwise_cons sorted behind

end Multimap
