import Mathlib.Algebra.Order.BigOperators.Group.List
import Mathlib.Algebra.Order.Ring.Int
import Mathlib.Algebra.Order.Ring.Nat

/-! Weights summed over a list whose elements are replaced one by one. -/

universe u

namespace Weights

variable {α : Type u} (weight : α → Nat)

def weigh (places : List α) : Nat := (places.map weight).sum

theorem weigh_replicate (count : Nat) (a : α) :
    weigh weight (List.replicate count a) = count * weight a := by
  rw [weigh, List.map_replicate, List.sum_replicate_nat]

theorem weigh_set (places : List α) (i : Nat) (old new : α) (here : places[i]? = some old) :
    weigh weight (places.set i new) + weight old = weigh weight places + weight new := by
  induction places generalizing i with
  | nil => simp at here
  | cons first rest ih =>
      cases i with
      | zero =>
          rw [List.getElem?_cons_zero, Option.some.injEq] at here
          subst here
          simp only [weigh, List.set_cons_zero, List.map_cons, List.sum_cons]
          omega
      | succ i =>
          have later := ih i here
          simp only [weigh, List.set_cons_succ, List.map_cons, List.sum_cons] at later ⊢
          omega

/-- Elements that are each exchanged for one of the same weight. -/
theorem weigh_exchange (places others : List α) (related : α → α → Prop)
    (keeps : ∀ a b, related a b → weight b = weight a) (all : List.Forall₂ related places others) :
    weigh weight others = weigh weight places := by
  induction all with
  | nil => rfl
  | cons first _ ih =>
      simp only [weigh, List.map_cons, List.sum_cons] at ih ⊢
      rw [ih, keeps _ _ first]

theorem exchange_modify (places : List α) (i : Nat) (change : α → α) :
    List.Forall₂ (fun a b => b = a ∨ b = change a) places (places.modify i change) := by
  induction places generalizing i with
  | nil => cases i <;> exact .nil
  | cons first rest ih =>
      cases i with
      | zero => exact .cons (.inr rfl) (List.forall₂_same.mpr fun _ _ => .inl rfl)
      | succ i => exact .cons (.inl rfl) (ih i)

theorem exchange_map (places : List α) (change : α → α) :
    List.Forall₂ (fun a b => b = a ∨ b = change a) places (places.map change) := by
  rw [List.forall₂_map_right_iff]
  exact List.forall₂_same.mpr fun _ _ => .inr rfl

theorem exchange_refl (places : List α) (change : α → α) :
    List.Forall₂ (fun a b => b = a ∨ b = change a) places places :=
  List.forall₂_same.mpr fun _ _ => .inl rfl

theorem weight_le (places : List α) (i : Nat) (a : α) (here : places[i]? = some a) :
    weight a ≤ weigh weight places :=
  List.single_le_sum (fun _ _ => Nat.zero_le _) _
    (List.mem_map.mpr ⟨a, List.mem_of_getElem? here, rfl⟩)

theorem exists_weight (places : List α) (positive : 0 < weigh weight places) :
    ∃ (i : Nat) (a : α), places[i]? = some a ∧ 0 < weight a := by
  induction places with
  | nil => cases positive
  | cons first rest ih =>
      by_cases own : 0 < weight first
      · exact ⟨0, first, rfl, own⟩
      · simp only [weigh, List.map_cons, List.sum_cons] at positive ih
        obtain ⟨i, a, here, heavy⟩ := ih (by omega)
        exact ⟨i + 1, a, here, heavy⟩

end Weights
