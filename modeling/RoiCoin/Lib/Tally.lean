import Mathlib.Algebra.BigOperators.Group.Finset.Piecewise
import Mathlib.Data.List.AList
import Mathlib.Algebra.Order.BigOperators.Group.List
import Mathlib.Algebra.Order.Ring.Int

/-! Sums over the values of a keyed map, when one value changes. -/

namespace Tally

universe u v

variable {κ : Type u} {α : Type v} (weight : α → Nat)

def total (map : AList fun _ : κ => α) : Nat := (map.entries.map fun entry => weight entry.2).sum

@[simp] theorem total_empty : total weight (∅ : AList fun _ : κ => α) = 0 := rfl

variable [DecidableEq κ]

/-- The value of a key and those of the other keys. -/
theorem perm_kerase (key : κ) (value : α) (entries : List (Sigma fun _ : κ => α))
    (here : entries.dlookup key = some value) :
    (entries.map Sigma.snd).Perm (value :: (entries.kerase key).map Sigma.snd) := by
  induction entries with
  | nil => cases here
  | cons entry entries ih =>
      obtain ⟨other, first⟩ := entry
      by_cases same : key = other
      · subst same
        have value_first : first = value := by
          simpa only [List.dlookup_cons_eq, Option.some.injEq] using here
        have rest : List.kerase key (⟨key, first⟩ :: entries) = entries := List.kerase_cons_eq rfl
        rw [rest, List.map_cons, value_first]
      · have later : List.dlookup key (⟨other, first⟩ :: entries) = entries.dlookup key :=
          List.dlookup_cons_ne entries ⟨other, first⟩ same
        have rest : List.kerase key (⟨other, first⟩ :: entries) =
            ⟨other, first⟩ :: entries.kerase key := List.kerase_cons_ne same
        rw [later] at here
        rw [rest, List.map_cons, List.map_cons]
        exact ((ih here).cons first).trans (List.Perm.swap value first _)

theorem total_erase (map : AList fun _ : κ => α) (key : κ) (value : α)
    (here : map.lookup key = some value) :
    total weight map = weight value + total weight (map.erase key) := by
  have parts := ((perm_kerase key value map.entries here).map weight).sum_eq
  rwa [List.map_map, List.map_cons, List.sum_cons, List.map_map] at parts

theorem total_insert (map : AList fun _ : κ => α) (key : κ) (value : α) :
    total weight (map.insert key value) = weight value + total weight (map.erase key) := rfl

/-- A new key adds its weight. -/
theorem total_insert_new (map : AList fun _ : κ => α) (key : κ) (value : α)
    (absent : map.lookup key = none) :
    total weight (map.insert key value) = weight value + total weight map := by
  have outside : key ∉ map.keys := by
    rwa [AList.lookup_eq_none] at absent
  have same : (map.erase key).entries = map.entries := List.kerase_of_notMem_keys outside
  rw [total_insert, total, same, total]

/-- A key that is there exchanges its weight. -/
theorem total_replace (map : AList fun _ : κ => α) (key : κ) (old value : α)
    (here : map.lookup key = some old) :
    total weight (map.insert key value) + weight old = total weight map + weight value := by
  rw [total_insert, total_erase weight map key old here]
  omega

/-! ## The values themselves -/

def values (map : AList fun _ : κ => α) : List α := map.entries.map Sigma.snd

theorem values_insert (map : AList fun _ : κ => α) (key : κ) (value : α) :
    values (map.insert key value) = value :: values (map.erase key) := rfl

theorem values_absent (map : AList fun _ : κ => α) (key : κ) (absent : map.lookup key = none) :
    values (map.erase key) = values map := by
  have outside : key ∉ map.keys := by
    rwa [AList.lookup_eq_none] at absent
  have same : (map.erase key).entries = map.entries := List.kerase_of_notMem_keys outside
  rw [values, values, same]

theorem values_erase (map : AList fun _ : κ => α) (key : κ) (value : α)
    (here : map.lookup key = some value) :
    (values map).Perm (value :: values (map.erase key)) :=
  perm_kerase key value map.entries here

/-- A list counted by what its members are sorted into. -/
theorem countP_sorted (holds : α → Bool) (slot : α → Nat) (size : Nat) (l : List α)
    (inside : ∀ a ∈ l, slot a < size) :
    ∑ i ∈ Finset.range size, l.countP (fun a => holds a && slot a == i) = l.countP holds := by
  induction l with
  | nil => simp
  | cons a l ih =>
      have first := inside a List.mem_cons_self
      have rest := ih fun b member => inside b (List.mem_cons_of_mem a member)
      simp only [List.countP_cons, Finset.sum_add_distrib, rest]
      cases here : holds a with
      | false => simp
      | true => simp [Finset.sum_ite_eq, first]

/-- What holds one thing, and what holds another without it. -/
theorem countP_or (holds first second : α → Bool) (l : List α) :
    l.countP (fun a => holds a && first a) + l.countP (fun a => (holds a && !first a) && second a) =
      l.countP fun a => holds a && (first a || second a) := by
  induction l with
  | nil => rfl
  | cons a l ih =>
      simp only [List.countP_cons]
      cases holds a <;> cases first a <;> cases second a <;> simp <;> omega

/-- The number of members with a property, when one member changes. -/
theorem card_filter_change {ι : Type u} [DecidableEq ι] (members : Finset ι)
    (holds holds' : ι → Bool) (i : ι) (member : i ∈ members)
    (others : ∀ j ∈ members, j ≠ i → holds' j = holds j) :
    (members.filter fun j => holds' j = true).card + (holds i).toNat =
      (members.filter fun j => holds j = true).card + (holds' i).toNat := by
  have one : ∀ property : ι → Bool, (members.filter fun j => property j = true).card =
      ((members.erase i).filter fun j => property j = true).card + (property i).toNat := by
    intro property
    have absent : i ∉ (members.erase i).filter fun j => property j = true := by simp
    conv_lhs => rw [← Finset.insert_erase member, Finset.filter_insert]
    cases here : property i with
    | true => rw [if_pos rfl, Finset.card_insert_of_notMem absent]; rfl
    | false => rw [if_neg Bool.false_ne_true]; rfl
  have rest : ((members.erase i).filter fun j => holds' j = true) =
      (members.erase i).filter fun j => holds j = true := by
    apply Finset.filter_congr
    intro j remains
    rw [others j (Finset.mem_of_mem_erase remains) (Finset.ne_of_mem_erase remains)]
  rw [one holds', one holds, rest]
  omega

end Tally
