import RoiCoin.Lib.Checked

/-! Computations that may stop, with the intermediate values they pass on the way. -/

universe u v w

structure Logged (ε : Type u) (ν : Type v) (α : Type w) where
  log : List ν
  result : Except ε α

namespace Logged

open Checked

variable {ε : Type u} {ν : Type v} {α β : Type w}

/-- The values logged before a stop stay. -/
def bind (first : Logged ε ν α) (rest : α → Logged ε ν β) : Logged ε ν β :=
  match first.result with
  | .error failure => ⟨first.log, .error failure⟩
  | .ok a => ⟨first.log ++ (rest a).log, (rest a).result⟩

instance : Monad (Logged ε ν) where
  pure a := ⟨[], .ok a⟩
  bind := bind

/-- A computation that logs nothing. -/
def silent (result : Except ε α) : Logged ε ν α := ⟨[], result⟩

/-- All values on the way are good. -/
def All (good : ν → Prop) (computation : Logged ε ν α) : Prop := ∀ n ∈ computation.log, good n

@[simp] theorem result_pure (a : α) : (pure a : Logged ε ν α).result = .ok a := rfl

@[simp] theorem result_silent (result : Except ε α) :
    (silent result : Logged ε ν α).result = result := rfl

/-- Erasing the log is a homomorphism. -/
@[simp] theorem result_bind (first : Logged ε ν α) (rest : α → Logged ε ν β) :
    (first >>= rest).result = first.result >>= fun a => (rest a).result := by
  show (bind first rest).result = _
  rw [bind]
  cases first.result with
  | error failure => rfl
  | ok a => rfl

/-- A computation that logs one value. -/
def emit (value : ν) (result : Except ε α) : Logged ε ν α := ⟨[value], result⟩

@[simp] theorem result_emit (value : ν) (result : Except ε α) :
    (emit value result : Logged ε ν α).result = result := rfl

theorem all_pure (good : ν → Prop) (a : α) : (pure a : Logged ε ν α).All good :=
  List.forall_mem_nil _

theorem all_silent (good : ν → Prop) (result : Except ε α) :
    (silent result : Logged ε ν α).All good := List.forall_mem_nil _

theorem all_bind (good : ν → Prop) (first : Logged ε ν α) (rest : α → Logged ε ν β) :
    (first >>= rest).All good ↔
      first.All good ∧ ∀ a, first.result = .ok a → (rest a).All good := by
  have whole : (first >>= rest) = bind first rest := rfl
  rw [whole, bind]
  cases stopped : first.result with
  | error failure => simp [All]
  | ok a => simp [All, or_imp, forall_and]

theorem all_silent_bind (good : ν → Prop) (first : Except ε α) (rest : α → Logged ε ν β) :
    (silent first >>= rest).All good ↔ ∀ a, first = .ok a → (rest a).All good := by
  rw [all_bind]
  exact and_iff_right (all_silent good first)

/-! ## How many values are logged -/

/-- At most so many values are logged, also by a computation that stops. -/
def Within (limit : Nat) (computation : Logged ε ν α) : Prop := computation.log.length ≤ limit

theorem within_pure (limit : Nat) (a : α) : (pure a : Logged ε ν α).Within limit := Nat.zero_le _

theorem within_silent (limit : Nat) (result : Except ε α) :
    (silent result : Logged ε ν α).Within limit := Nat.zero_le _

theorem within_emit (value : ν) (result : Except ε α) :
    (emit value result : Logged ε ν α).Within 1 := Nat.le_refl _

theorem within_more {few many : Nat} (more : few ≤ many) (computation : Logged ε ν α)
    (within : computation.Within few) : computation.Within many := Nat.le_trans within more

/-- What a sequence logs is what its parts log together. -/
theorem within_bind {first_limit rest_limit : Nat} (first : Logged ε ν α)
    (rest : α → Logged ε ν β) (head : first.Within first_limit)
    (tail : ∀ a, first.result = .ok a → (rest a).Within rest_limit) :
    (first >>= rest).Within (first_limit + rest_limit) := by
  show (bind first rest).log.length ≤ first_limit + rest_limit
  rw [bind]
  cases stopped : first.result with
  | error failure => exact Nat.le_add_right_of_le head
  | ok a =>
      rw [List.length_append]
      exact Nat.add_le_add head (tail a stopped)

theorem within_silent_bind {limit : Nat} (first : Except ε α) (rest : α → Logged ε ν β)
    (tail : ∀ a, first = .ok a → (rest a).Within limit) :
    (silent first >>= rest).Within limit := by
  have whole := within_bind (silent first) rest (within_silent 0 first) tail
  rwa [Nat.zero_add] at whole

end Logged
