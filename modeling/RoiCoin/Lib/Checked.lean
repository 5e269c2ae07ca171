import Mathlib.Logic.Basic

/-! Computations that stop at the first requirement that does not hold. -/

namespace Checked

universe u v w

variable {ε : Type u} {α : Type v} {β : Type v}

def require (holds : Prop) [Decidable holds] (failure : ε) : Except ε Unit :=
  if holds then .ok () else .error failure

@[simp] theorem require_ok (holds : Prop) [Decidable holds] (failure : ε) (done : Unit) :
    require holds failure = .ok done ↔ holds := by
  rw [require]
  split <;> simp_all

theorem require_of (holds : Prop) [Decidable holds] (failure : ε) (met : holds) :
    require holds failure = .ok () := by
  rw [require, if_pos met]

/-- A sequence returns when its first part returns and the rest returns on that result. -/
@[simp] theorem bind_ok (first : Except ε α) (rest : α → Except ε β) (result : β) :
    (first >>= rest) = .ok result ↔ ∃ a, first = .ok a ∧ rest a = .ok result := by
  cases first with
  | error failure => simp [bind, Except.bind]
  | ok a => simp [bind, Except.bind]

theorem ok_then (a : α) (rest : α → Except ε β) : ((.ok a : Except ε α) >>= rest) = rest a := rfl

/-- The case of a first part that only checks. -/
@[simp high] theorem then_ok {γ : Type} (first : Except ε Unit) (rest : Unit → Except ε γ)
    (result : γ) : (first >>= rest) = .ok result ↔ first = .ok () ∧ rest () = .ok result := by
  cases first with
  | error failure => simp [bind, Except.bind]
  | ok done => simp [bind, Except.bind]

/-- Check the elements of a list in order. -/
def each {γ : Type w} (check : γ → Except ε Unit) : List γ → Except ε Unit
  | [] => .ok ()
  | a :: rest => do
      check a
      each check rest

@[simp] theorem each_ok {γ : Type w} (check : γ → Except ε Unit) (list : List γ) :
    each check list = .ok () ↔ ∀ a ∈ list, check a = .ok () := by
  induction list with
  | nil => simp [each]
  | cons a rest ih => simp only [each, then_ok, ih, List.forall_mem_cons]

@[simp] theorem pure_ok (a result : α) : (pure a : Except ε α) = .ok result ↔ a = result := by
  simp [pure, Except.pure]

@[simp] theorem map_ok (f : α → β) (first : Except ε α) (result : β) :
    f <$> first = .ok result ↔ ∃ a, first = .ok a ∧ f a = result := by
  cases first with
  | error failure => simp [Functor.map, Except.map]
  | ok a => simp [Functor.map, Except.map]

theorem exists_ok (first : Except ε α) (succeeds : first.toBool = true) : ∃ a, first = .ok a := by
  cases first with
  | error failure => cases succeeds
  | ok a => exact ⟨a, rfl⟩

/-! ## Failures that cannot happen -/

def Avoids (bad : ε) (result : Except ε α) : Prop := result ≠ .error bad

@[simp] theorem avoids_ok (bad : ε) (a : α) : Avoids bad (.ok a : Except ε α) := by
  rw [Avoids]
  simp

@[simp] theorem avoids_pure (bad : ε) (a : α) : Avoids bad (pure a : Except ε α) :=
  avoids_ok bad a

@[simp] theorem avoids_error (bad failure : ε) :
    Avoids bad (.error failure : Except ε α) ↔ failure ≠ bad := by
  rw [Avoids, ne_eq, Except.error.injEq]

theorem avoids_require (bad : ε) (holds : Prop) [Decidable holds] (failure : ε)
    (other : failure ≠ bad) : Avoids bad (require holds failure) := by
  rw [require]
  split
  · exact avoids_ok bad ()
  · exact (avoids_error bad failure).mpr other

theorem avoids_bind (bad : ε) (first : Except ε α) (rest : α → Except ε β)
    (head : Avoids bad first) (tail : ∀ a, first = .ok a → Avoids bad (rest a)) :
    Avoids bad (first >>= rest) := by
  cases first with
  | error failure => exact fun same => head (congrArg Except.error (Except.error.inj same))
  | ok a => exact tail a rfl

theorem avoids_map (bad : ε) (f : α → β) (first : Except ε α) (head : Avoids bad first) :
    Avoids bad (f <$> first) := by
  cases first with
  | error failure => exact fun same => head (congrArg Except.error (Except.error.inj same))
  | ok a => exact avoids_ok bad (f a)

theorem avoids_each {γ : Type w} (bad : ε) (check : γ → Except ε Unit) (list : List γ)
    (single : ∀ a ∈ list, Avoids bad (check a)) : Avoids bad (each check list) := by
  induction list with
  | nil => exact avoids_ok bad ()
  | cons a rest ih =>
      rw [List.forall_mem_cons] at single
      exact avoids_bind bad _ _ single.1 fun _ _ => ih single.2

theorem avoids_mapM {γ : Type w} {δ : Type v} (bad : ε) (f : γ → Except ε δ) (list : List γ)
    (single : ∀ a ∈ list, Avoids bad (f a)) : Avoids bad (list.mapM f) := by
  induction list with
  | nil => exact avoids_ok bad []
  | cons a rest ih =>
      rw [List.forall_mem_cons] at single
      rw [List.mapM_cons]
      apply avoids_bind bad _ _ single.1
      intro b _
      apply avoids_bind bad _ _ (ih single.2)
      exact fun bs _ => avoids_pure bad (b :: bs)

/-! ## Computations that refuse more -/

/-- What the first returns, the second returns too. -/
def Stricter (strict lax : Except ε α) : Prop := ∀ a, strict = .ok a → lax = .ok a

theorem stricter_refl (result : Except ε α) : Stricter result result := fun _ returned => returned

theorem stricter_require (asked kept : Prop) [Decidable asked] [Decidable kept] (failure : ε)
    (weaker : asked → kept) : Stricter (require asked failure) (require kept failure) := by
  intro done passed
  rw [require_ok] at passed ⊢
  exact weaker passed

/-- A check left out. -/
theorem stricter_skip (check : Except ε Unit) : Stricter check (.ok ()) := fun _ _ => rfl

theorem stricter_bind (strict lax : Except ε α) (strictRest laxRest : α → Except ε β)
    (head : Stricter strict lax) (tail : ∀ a, Stricter (strictRest a) (laxRest a)) :
    Stricter (strict >>= strictRest) (lax >>= laxRest) := by
  intro b returned
  obtain ⟨a, first, rest⟩ := (bind_ok _ _ _).mp returned
  exact (bind_ok _ _ _).mpr ⟨a, head a first, tail a b rest⟩

theorem stricter_map (f : α → β) (strict lax : Except ε α) (head : Stricter strict lax) :
    Stricter (f <$> strict) (f <$> lax) := by
  intro b returned
  obtain ⟨a, first, same⟩ := (map_ok _ _ _).mp returned
  exact (map_ok _ _ _).mpr ⟨a, head a first, same⟩

theorem stricter_ite (taken : Prop) [Decidable taken] (strictThen laxThen strictElse laxElse :
    Except ε α) (positive : taken → Stricter strictThen laxThen)
    (negative : ¬ taken → Stricter strictElse laxElse) :
    Stricter (if taken then strictThen else strictElse) (if taken then laxThen else laxElse) := by
  by_cases met : taken
  · rw [if_pos met, if_pos met]
    exact positive met
  · rw [if_neg met, if_neg met]
    exact negative met

end Checked
