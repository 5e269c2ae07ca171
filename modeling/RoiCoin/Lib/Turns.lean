import Mathlib.Logic.Basic

/-! A loop without a bound of its own, whose turns end it, fail or go on from another state. -/

namespace Turns

universe u v w

variable {ε : Type u} {σ : Type v} {α : Type w}

/-- The result of the loop, or none when it takes more turns than the fuel. -/
def run (turn : Nat → σ → Except ε (α ⊕ σ)) : (fuel : Nat) → Nat → σ → Option (Except ε α)
  | 0, _, _ => none
  | fuel + 1, k, s =>
      match turn k s with
      | .error failure => some (.error failure)
      | .ok (.inl result) => some (.ok result)
      | .ok (.inr s) => run turn fuel (k + 1) s

/-- A measure that every turn lowers bounds the turns. -/
theorem run_ends (turn : Nat → σ → Except ε (α ⊕ σ)) (left : σ → Nat)
    (next : ∀ k s s', turn k s = .ok (.inr s') → left s' < left s)
    (fuel k : Nat) (s : σ) (enough : left s < fuel) : run turn fuel k s ≠ none := by
  induction fuel generalizing k s with
  | zero => omega
  | succ fuel ih =>
      rw [run]
      cases taken : turn k s with
      | error failure => simp
      | ok outcome =>
          cases outcome with
          | inl result => simp
          | inr s' =>
              have less := next k s s' taken
              exact ih (k + 1) s' (by omega)

/-- A result is that of some turn. -/
theorem run_returned (turn : Nat → σ → Except ε (α ⊕ σ)) (fuel k : Nat) (s : σ) (result : α)
    (returned : run turn fuel k s = some (.ok result)) :
    ∃ k s, turn k s = .ok (.inl result) := by
  induction fuel generalizing k s with
  | zero => cases returned
  | succ fuel ih =>
      rw [run] at returned
      cases taken : turn k s with
      | error failure =>
          rw [taken] at returned
          cases returned
      | ok outcome =>
          rw [taken] at returned
          cases outcome with
          | inl last =>
              cases returned
              exact ⟨k, s, taken⟩
          | inr s' => exact ih (k + 1) s' returned

end Turns
