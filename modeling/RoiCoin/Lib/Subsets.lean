import Mathlib.Algebra.BigOperators.Group.List.Basic
import Mathlib.Algebra.Order.BigOperators.Group.List

/-! Parts of a list picked by a list of flags, and their sums. -/

namespace Subsets

universe u v

variable {α : Type u} {M : Type v}

/-- The elements whose flags are set. -/
def chosen : List Bool → List α → List α
  | true :: flags, a :: list => a :: chosen flags list
  | false :: flags, _ :: list => chosen flags list
  | _, _ => []

theorem chosen_sublist (flags : List Bool) (list : List α) : (chosen flags list).Sublist list := by
  induction list generalizing flags with
  | nil => cases flags with
    | nil => exact .slnil
    | cons flag flags => cases flag <;> exact .slnil
  | cons a list ih =>
      cases flags with
      | nil => exact List.nil_sublist _
      | cons flag flags =>
          cases flag with
          | true => exact (ih flags).cons_cons a
          | false => exact (ih flags).cons a

@[simp] theorem chosen_all (list : List α) :
    chosen (List.replicate list.length true) list = list := by
  induction list with
  | nil => rfl
  | cons a list ih => simpa [chosen, List.replicate_succ] using ih

section Sums

variable [AddCommMonoid M]

/-- The sum of the values whose flags are set. -/
def picked (flags : List Bool) (values : List M) : M := (chosen flags values).sum

theorem picked_map (f : α → M) (flags : List Bool) (list : List α) :
    picked flags (list.map f) = ((chosen flags list).map f).sum := by
  induction list generalizing flags with
  | nil => cases flags with
    | nil => rfl
    | cons flag flags => cases flag <;> rfl
  | cons a list ih =>
      cases flags with
      | nil => rfl
      | cons flag flags =>
          have rest := ih flags
          rw [picked] at rest ⊢
          cases flag with
          | true => simp [chosen, rest]
          | false => simp [chosen, rest]

@[simp] theorem picked_none (n : Nat) (values : List M) :
    picked (List.replicate n false) values = 0 := by
  rw [picked]
  induction values generalizing n with
  | nil => cases n <;> rfl
  | cons value values ih =>
      cases n with
      | zero => rfl
      | succ n => exact ih n

@[simp] theorem picked_all (values : List M) :
    picked (List.replicate values.length true) values = values.sum := by
  rw [picked, chosen_all]

/-- Setting a flag adds its value. -/
theorem picked_set (flags : List Bool) (values : List M) (i : Nat) (value : M)
    (unset : flags[i]? = some false) (here : values[i]? = some value) :
    picked (flags.set i true) values = picked flags values + value := by
  induction i generalizing flags values with
  | zero =>
      cases flags with
      | nil => cases unset
      | cons flag flags =>
          cases values with
          | nil => cases here
          | cons first values =>
              cases unset
              cases here
              simp [picked, chosen, add_comm]
  | succ i ih =>
      cases flags with
      | nil => cases unset
      | cons flag flags =>
          cases values with
          | nil => cases here
          | cons first values =>
              have rest := ih flags values (by simpa using unset) (by simpa using here)
              rw [picked, picked] at rest
              cases flag with
              | true => simp [picked, chosen, rest, add_assoc]
              | false => simp [picked, chosen, rest]

end Sums

/-- Values that are not negative have no part larger than the whole. -/
theorem picked_le [AddCommMonoid M] [PartialOrder M] [IsOrderedAddMonoid M] (flags : List Bool)
    (values : List M) (nonneg : ∀ value ∈ values, 0 ≤ value) :
    picked flags values ≤ values.sum :=
  (chosen_sublist flags values).sum_le_sum nonneg

end Subsets
