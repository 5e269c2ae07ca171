import RoiCoin.Lib.Checked
import Mathlib.Algebra.Order.BigOperators.Group.List
import Mathlib.Algebra.Order.Ring.Int
import Mathlib.Data.List.Forall2
import Mathlib.Data.List.ReduceOption

/-! Functions that can fail on every entry of a list, and the totals of what they return. -/

namespace Totals

open Checked

variable {ε α β : Type}

theorem mapM_ok (f : α → Except ε β) (l : List α) (results : List β) :
    l.mapM f = .ok results ↔ List.Forall₂ (fun a b => f a = .ok b) l results := by
  induction l generalizing results with
  | nil => cases results <;> simp
  | cons a l ih =>
      simp only [List.mapM_cons, bind_ok, pure_ok, ih, List.forall₂_cons_left_iff]
      constructor
      · intro given
        obtain ⟨b, first, rest, others, same⟩ := given
        exact ⟨b, rest, first, others, same.symm⟩
      · intro given
        obtain ⟨b, rest, first, others, same⟩ := given
        exact ⟨b, first, rest, others, same.symm⟩

theorem mapM_returns (f : α → Except ε β) (l : List α) :
    (∃ results, l.mapM f = .ok results) ↔ ∀ a ∈ l, ∃ b, f a = .ok b := by
  induction l with
  | nil => simp
  | cons a l ih =>
      rw [List.forall_mem_cons, ← ih]
      simp only [List.mapM_cons, bind_ok, pure_ok]
      constructor
      · intro given
        obtain ⟨-, b, first, rest, others, -⟩ := given
        exact ⟨⟨b, first⟩, rest, others⟩
      · intro given
        obtain ⟨⟨b, first⟩, rest, others⟩ := given
        exact ⟨_, b, first, rest, others, rfl⟩

theorem mapM_mem {f : α → Except ε β} {l : List α} {results : List β}
    (returned : l.mapM f = .ok results) (b : β) (member : b ∈ results) : ∃ a ∈ l, f a = .ok b := by
  rw [mapM_ok] at returned
  induction returned with
  | nil => cases member
  | cons first others ih =>
      cases member with
      | head => exact ⟨_, List.mem_cons_self, first⟩
      | tail _ later =>
          obtain ⟨a, inside, found⟩ := ih later
          exact ⟨a, List.mem_cons_of_mem _ inside, found⟩

theorem mem_mapM {f : α → Except ε β} {l : List α} {results : List β}
    (returned : l.mapM f = .ok results) (a : α) (member : a ∈ l) : ∃ b ∈ results, f a = .ok b := by
  rw [mapM_ok] at returned
  induction returned with
  | nil => cases member
  | cons first others ih =>
      cases member with
      | head => exact ⟨_, List.mem_cons_self, first⟩
      | tail _ later =>
          obtain ⟨b, inside, found⟩ := ih later
          exact ⟨b, List.mem_cons_of_mem _ inside, found⟩

/-- Of entries that give nothing or one result, the results keep the order. -/
theorem results_sublist {γ : Type} {f : α → Except ε (Option β)} (g : β → γ) (h : α → γ)
    {l : List α} {results : List (Option β)} (returned : l.mapM f = .ok results)
    (each : ∀ a b, f a = .ok (some b) → g b = h a) :
    (results.reduceOption.map g).Sublist (l.map h) := by
  rw [mapM_ok] at returned
  induction returned with
  | nil => exact List.Sublist.refl _
  | cons first others ih =>
      rename_i a result _ _
      cases result with
      | none => exact ih.cons _
      | some b =>
          rw [List.reduceOption_cons_of_some, List.map_cons, List.map_cons, each a b first]
          exact ih.cons_cons _

/-- The same for entries that give lists of results. -/
theorem flatten_sublist {γ : Type} {f : α → Except ε (List β)} (g : β → γ) (h : α → List γ)
    {l : List α} {lists : List (List β)} (returned : l.mapM f = .ok lists)
    (each : ∀ a ∈ l, ∀ b, f a = .ok b → (b.map g).Sublist (h a)) :
    (lists.flatten.map g).Sublist (l.flatMap h) := by
  rw [mapM_ok] at returned
  induction returned with
  | nil => exact List.Sublist.refl _
  | cons first others ih =>
      rw [List.flatten_cons, List.map_append, List.flatMap_cons]
      exact (each _ List.mem_cons_self _ first).append
        (ih fun a member => each a (List.mem_cons_of_mem _ member))

/-- The total of the results, by what each entry is worth. -/
theorem total_results (relates : α → β → Prop) (g : β → Int) (worth : α → Int) {l : List α}
    {results : List β} (related : List.Forall₂ relates l results)
    (each : ∀ a ∈ l, ∀ b, relates a b → g b = worth a) :
    (results.map g).sum = (l.map worth).sum := by
  induction related with
  | nil => rfl
  | cons first others ih =>
      rw [List.map_cons, List.map_cons, List.sum_cons, List.sum_cons,
        each _ List.mem_cons_self _ first, ih fun a member => each a (List.mem_cons_of_mem _ member)]

theorem total_reduceOption (g : β → Int) (results : List (Option β)) :
    (results.reduceOption.map g).sum = (results.map fun result => result.elim 0 g).sum := by
  induction results with
  | nil => rfl
  | cons result results ih =>
      cases result with
      | none => simpa using ih
      | some b => simpa using ih

/-- Totals of which one is at most the other, entry by entry, are equal when all entries are. -/
theorem total_eq_iff (f g : α → Int) (l : List α) (most : ∀ a ∈ l, f a ≤ g a) :
    (l.map f).sum = (l.map g).sum ↔ ∀ a ∈ l, f a = g a := by
  constructor
  · intro same a member
    by_contra different
    have less := List.sum_lt_sum f g most ⟨a, member, lt_of_le_of_ne (most a member) different⟩
    omega
  · intro same
    rw [List.map_congr_left same]

theorem total_le (f g : α → Int) (l : List α) (most : ∀ a ∈ l, f a ≤ g a) :
    (l.map f).sum ≤ (l.map g).sum := List.sum_le_sum most

theorem total_nonneg (f : α → Int) (l : List α) (nonneg : ∀ a ∈ l, 0 ≤ f a) :
    0 ≤ (l.map f).sum := by
  apply List.sum_nonneg
  intro value member
  obtain ⟨a, inside, rfl⟩ := List.mem_map.mp member
  exact nonneg a inside

/-- A running total that fails outside its bound: the bound on the result is enough where nothing
is negative. -/
theorem foldlM_total (add : Int → α → Except ε Int) (reads : α → Prop) (worth : α → Int)
    (most : Int) (l : List α)
    (each : ∀ a ∈ l, ∀ n result, 0 ≤ n → n ≤ most →
      (add n a = .ok result ↔ reads a ∧ result = n + worth a ∧ result ≤ most))
    (nonneg : ∀ a ∈ l, 0 ≤ worth a) (n result : Int) (least : 0 ≤ n) (inside : n ≤ most) :
    l.foldlM add n = .ok result ↔
      (∀ a ∈ l, reads a) ∧ result = n + (l.map worth).sum ∧ result ≤ most := by
  induction l generalizing n with
  | nil =>
      simp only [List.foldlM_nil, pure_ok, List.not_mem_nil, false_implies, implies_true, true_and,
        List.map_nil, List.sum_nil, Int.add_zero]
      constructor
      · intro same
        exact ⟨same.symm, same ▸ inside⟩
      · intro given
        exact given.1.symm
  | cons a l ih =>
      rw [List.forall_mem_cons] at each nonneg
      have rest := ih each.2 nonneg.2
      have later := total_nonneg worth l nonneg.2
      have here := nonneg.1
      simp only [List.foldlM_cons, bind_ok, each.1 n _ least inside, List.forall_mem_cons,
        List.map_cons, List.sum_cons]
      constructor
      · intro given
        obtain ⟨middle, ⟨read, rfl, within⟩, others⟩ := given
        obtain ⟨all, sum, bounded⟩ := (rest _ (by omega) within).mp others
        exact ⟨⟨read, all⟩, by omega, bounded⟩
      · intro given
        obtain ⟨⟨read, all⟩, sum, bounded⟩ := given
        exact ⟨_, ⟨read, rfl, by omega⟩,
          (rest _ (by omega) (by omega)).mpr ⟨all, by omega, bounded⟩⟩

end Totals
