import RoiCoin.Lib.Checked

/-! Two computations that go the same way, each with its own results and failures. -/

namespace Simulation

open Checked

universe u v

variable {ε ε' : Type u} {α β γ δ : Type v}

/-- Both return related results or both fail with related failures. -/
def Matches (failures : ε → ε' → Prop) (results : α → β → Prop) :
    Except ε α → Except ε' β → Prop
  | .ok a, .ok b => results a b
  | .error e, .error e' => failures e e'
  | _, _ => False

variable (failures : ε → ε' → Prop)

@[simp] theorem matches_ok (results : α → β → Prop) (a : α) (b : β) :
    Matches failures results (.ok a) (.ok b) ↔ results a b := Iff.rfl

@[simp] theorem matches_pure (results : α → β → Prop) (a : α) (b : β) :
    Matches failures results (pure a) (pure b) ↔ results a b := Iff.rfl

@[simp] theorem matches_error (results : α → β → Prop) (e : ε) (e' : ε') :
    Matches failures results (.error e) (.error e') ↔ failures e e' := Iff.rfl

/-- Related first parts, and rests that are related on related results. -/
theorem matches_bind (first : α → β → Prop) (last : γ → δ → Prop) (x : Except ε α)
    (y : Except ε' β) (f : α → Except ε γ) (g : β → Except ε' δ)
    (head : Matches failures first x y)
    (tail : ∀ a b, first a b → Matches failures last (f a) (g b)) :
    Matches failures last (x >>= f) (y >>= g) := by
  cases x with
  | ok a =>
      cases y with
      | ok b => exact tail a b head
      | error e' => exact head.elim
  | error e =>
      cases y with
      | ok b => exact head.elim
      | error e' => exact head

theorem matches_map (first : α → β → Prop) (last : γ → δ → Prop) (x : Except ε α)
    (y : Except ε' β) (f : α → γ) (g : β → δ) (head : Matches failures first x y)
    (tail : ∀ a b, first a b → last (f a) (g b)) :
    Matches failures last (f <$> x) (g <$> y) := by
  cases x with
  | ok a =>
      cases y with
      | ok b => exact tail a b head
      | error e' => exact head.elim
  | error e =>
      cases y with
      | ok b => exact head.elim
      | error e' => exact head

/-- The same requirement on both sides. -/
theorem matches_require (asked kept : Prop) [Decidable asked] [Decidable kept] (e : ε) (e' : ε')
    (same : asked ↔ kept) (stops : failures e e') :
    Matches failures (fun _ _ => kept) (require asked e) (require kept e') := by
  by_cases met : kept
  · rw [require_of asked e (same.mpr met), require_of kept e' met]
    exact met
  · rw [require, require, if_neg met, if_neg (mt same.mp met)]
    exact stops

theorem matches_ite (results : α → β → Prop) (asked kept : Prop) [Decidable asked]
    [Decidable kept] (x z : Except ε α) (y w : Except ε' β) (same : asked ↔ kept)
    (positive : kept → Matches failures results x y)
    (negative : ¬ kept → Matches failures results z w) :
    Matches failures results (if asked then x else z) (if kept then y else w) := by
  by_cases met : kept
  · rw [if_pos (same.mpr met), if_pos met]
    exact positive met
  · rw [if_neg (mt same.mp met), if_neg met]
    exact negative met

theorem matches_returns (results : α → β → Prop) (x : Except ε α) (y : Except ε' β) (a : α)
    (related : Matches failures results x y) (returned : x = .ok a) :
    ∃ b, y = .ok b ∧ results a b := by
  subst returned
  cases y with
  | ok b => exact ⟨b, rfl, related⟩
  | error e' => exact related.elim

theorem matches_fails (results : α → β → Prop) (x : Except ε α) (y : Except ε' β) (e : ε)
    (related : Matches failures results x y) (failed : x = .error e) :
    ∃ e', y = .error e' ∧ failures e e' := by
  subst failed
  cases y with
  | ok b => exact related.elim
  | error e' => exact ⟨e', rfl, related⟩

end Simulation
