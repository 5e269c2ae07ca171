import Mathlib.Data.List.Sort

/-! Elements of a list by their rank.

The element at a position of the sorted list is compared with a bound by counting the elements
below the bound, so that lists that share most of their elements can be compared. -/

namespace OrderStatistics

variable {α : Type} [LinearOrder α]

/-- The element of rank `i`, from the least one up. -/
def ranked (values : List α) (i : Nat) (fallback : α) : α :=
  (values.insertionSort (· ≤ ·)).getD i fallback

theorem none_less {bound : α} {values : List α} (least : ∀ value ∈ values, bound ≤ value) :
    values.countP (· < bound) = 0 := by
  rw [List.countP_eq_zero]
  intro value member
  simpa using least value member

theorem le_getElem_iff {values : List α} (sorted : values.Pairwise (· ≤ ·)) (i : Nat)
    (inside : i < values.length) (bound : α) :
    bound ≤ values[i] ↔ values.countP (· < bound) ≤ i := by
  induction values generalizing i with
  | nil => simp at inside
  | cons head tail ih =>
      have least : ∀ value ∈ tail, head ≤ value := (List.pairwise_cons.mp sorted).1
      by_cases low : head < bound
      · cases i with
        | zero => simp [low]
        | succ i =>
            have rest := ih sorted.of_cons i (by simpa using inside)
            simpa [low] using rest
      · have all : ∀ value ∈ head :: tail, bound ≤ value := by
          intro value member
          rcases List.mem_cons.mp member with same | member
          · simpa [same] using low
          · exact (not_lt.mp low).trans (least value member)
        simp [none_less all, all _ (List.getElem_mem inside)]

theorem le_ranked_iff (values : List α) (i : Nat) (inside : i < values.length)
    (fallback bound : α) :
    bound ≤ ranked values i fallback ↔ values.countP (· < bound) ≤ i := by
  have within : i < (values.insertionSort (· ≤ ·)).length := by simpa using inside
  have count := (List.perm_insertionSort (· ≤ ·) values).countP_eq (· < bound)
  have here : ranked values i fallback = (values.insertionSort (· ≤ ·))[i] := by
    simp [ranked, List.getD, List.getElem?_eq_getElem within]
  rw [here, le_getElem_iff (List.pairwise_insertionSort (· ≤ ·) values) i within, count]

/-- Dropping elements and adding one that is not below the element of a rank does not lower it, at
the same rank or a higher one. -/
theorem ranked_le_ranked (values kept : List α) (added fallback : α) (i j : Nat)
    (part : kept.Sublist values) (inside : i < values.length)
    (later : ranked values i fallback ≤ added) (higher : i ≤ j) (within : j < (added :: kept).length) :
    ranked values i fallback ≤ ranked (added :: kept) j fallback := by
  have few := (le_ranked_iff values i inside fallback _).mp (le_refl _)
  rw [le_ranked_iff _ j within]
  calc (added :: kept).countP (· < ranked values i fallback)
      = kept.countP (· < ranked values i fallback) := by simp [later]
    _ ≤ values.countP (· < ranked values i fallback) := part.countP_le
    _ ≤ j := few.trans higher

end OrderStatistics
