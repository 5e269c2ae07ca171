import Mathlib.Data.List.Induction

/-! Runs of a step function, and what holds in every state or at every step of a run. -/

universe u v w

namespace Runs

variable {S : Type u} {A : Type v} (step : S → A → S)

def run (s : S) : List A → S
  | [] => s
  | a :: rest => run (step s a) rest

/-- Every state of the run, the first one included. -/
def Always (holds : S → Prop) (s : S) : List A → Prop
  | [] => holds s
  | a :: rest => holds s ∧ Always holds (step s a) rest

instance decidableAlways (holds : S → Prop) [DecidablePred holds] :
    (s : S) → (steps : List A) → Decidable (Always step holds s steps)
  | s, [] => inferInstanceAs (Decidable (holds s))
  | s, a :: rest =>
      have := decidableAlways holds (step s a) rest
      inferInstanceAs (Decidable (holds s ∧ Always step holds (step s a) rest))

/-- Every step of the run in the state before it. -/
def EachStep (meets : S → A → Prop) (s : S) : List A → Prop
  | [] => True
  | a :: rest => meets s a ∧ EachStep meets (step s a) rest

theorem always_start (holds : S → Prop) (s : S) (steps : List A)
    (always : Always step holds s steps) : holds s := by
  cases steps with
  | nil => exact always
  | cons a rest => exact always.1

theorem always_run (holds : S → Prop) (s : S) (steps : List A)
    (always : Always step holds s steps) : holds (run step s steps) := by
  induction steps generalizing s with
  | nil => exact always
  | cons a rest ih => exact ih (step s a) always.2

/-- What the steps keep in states where the property holds. -/
theorem run_invariant (holds invariant : S → Prop)
    (keeps : ∀ s a, invariant s → holds s → invariant (step s a)) (s : S) (steps : List A)
    (start : invariant s) (always : Always step holds s steps) : invariant (run step s steps) := by
  induction steps generalizing s with
  | nil => exact start
  | cons a rest ih => exact ih (step s a) (keeps s a start always.1) always.2

/-- What every step keeps. -/
theorem run_keeps (invariant : S → Prop) (keeps : ∀ s a, invariant s → invariant (step s a))
    (s : S) (steps : List A) (start : invariant s) : invariant (run step s steps) := by
  induction steps generalizing s with
  | nil => exact start
  | cons a rest ih => exact ih (step s a) (keeps s a start)

/-- An invariant that steps of one kind keep, and that implies a property which every other step
breaks: the property always holds exactly if all steps are of that kind. -/
theorem always_iff (holds invariant : S → Prop) (meets : S → A → Prop)
    (implies : ∀ s, invariant s → holds s)
    (keeps : ∀ s a, invariant s → meets s a → invariant (step s a))
    (breaks : ∀ s a, invariant s → ¬ meets s a → ¬ holds (step s a))
    (s : S) (steps : List A) (start : invariant s) :
    Always step holds s steps ↔ EachStep step meets s steps := by
  induction steps generalizing s with
  | nil => exact ⟨fun _ => trivial, fun _ => implies s start⟩
  | cons a rest ih =>
      constructor
      · intro always
        have met : meets s a := by
          apply Classical.byContradiction
          intro unmet
          exact breaks s a start unmet (always_start step holds _ rest always.2)
        exact ⟨met, (ih (step s a) (keeps s a start met)).mp always.2⟩
      · intro each
        exact ⟨implies s start, (ih (step s a) (keeps s a start each.1)).mpr each.2⟩

/-- An invariant that steps of one kind keep, and that implies a property: a run of such steps always
has the property. -/
theorem always_of_each (holds invariant : S → Prop) (meets : S → A → Prop)
    (implies : ∀ s, invariant s → holds s)
    (keeps : ∀ s a, invariant s → meets s a → invariant (step s a))
    (s : S) (steps : List A) (start : invariant s) (each : EachStep step meets s steps) :
    Always step holds s steps := by
  induction steps generalizing s with
  | nil => exact implies s start
  | cons a rest ih => exact ⟨implies s start, ih (step s a) (keeps s a start each.1) each.2⟩

/-- A condition on the steps alone. -/
theorem eachStep_iff (meets : A → Prop) (s : S) (steps : List A) :
    EachStep step (fun _ a => meets a) s steps ↔ ∀ a ∈ steps, meets a := by
  induction steps generalizing s with
  | nil => simp [EachStep]
  | cons a rest ih => simp [EachStep, ih]

/-- Two properties of histories that start alike, and that the next step cannot tell apart where both
held before, hold of the same histories throughout. -/
theorem histories_iff (first second : List A → Prop) (start : first [] ↔ second [])
    (steps : List A)
    (next : ∀ before a, before ++ [a] <+: steps → first before → second before →
      (first (before ++ [a]) ↔ second (before ++ [a]))) :
    (∀ before, before <+: steps → first before) ↔ ∀ before, before <+: steps → second before := by
  induction steps using List.reverseRecOn with
  | nil => simp [start]
  | append_singleton steps a ih =>
      have split (holds : List A → Prop) : (∀ before, before <+: steps ++ [a] → holds before) ↔
          (∀ before, before <+: steps → holds before) ∧ holds (steps ++ [a]) := by
        simp only [List.prefix_concat_iff]
        constructor
        · intro all
          exact ⟨fun before part => all before (.inr part), all _ (.inl rfl)⟩
        · intro both before part
          rcases part with whole | part
          · rw [whole]
            exact both.2
          · exact both.1 before part
      have earlier := ih fun before a part => next before a (part.trans (List.prefix_append _ _))
      rw [split, split, earlier, and_congr_right_iff]
      intro held
      exact next steps a (List.prefix_refl _) (earlier.mpr held steps (List.prefix_refl _))
        (held steps (List.prefix_refl _))

/-- How many steps of the run count. -/
def countSteps (counts : S → A → Bool) (s : S) : List A → Nat
  | [] => 0
  | a :: rest => (if counts s a then 1 else 0) + countSteps counts (step s a) rest

/-- Where every counting step inside lowers the effort and no other step raises it, a run that
stays inside has no more counting steps than effort. -/
theorem countSteps_le (counts : S → A → Bool) (inside invariant : S → Prop) (effort : S → Nat)
    (keeps : ∀ s a, invariant s → inside s → invariant (step s a))
    (lowers : ∀ s a, invariant s → inside s → inside (step s a) →
      effort (step s a) + (if counts s a then 1 else 0) ≤ effort s)
    (s : S) (steps : List A) (start : invariant s) (always : Always step inside s steps) :
    countSteps step counts s steps ≤ effort s := by
  induction steps generalizing s with
  | nil => exact Nat.zero_le _
  | cons a rest ih =>
      have lower := lowers s a start always.1 (always_start step inside _ rest always.2)
      have later := ih (step s a) (keeps s a start always.1) always.2
      rw [countSteps]
      omega

/-- A fold that can fail: every step succeeds where the invariant of what is done holds. -/
theorem foldlM_reaches {m : Type u → Type w} [Monad m] [LawfulMonad m] {B : Type u}
    (step : B → A → m B) (invariant : List A → B → Prop) (l : List A) (b : B)
    (start : invariant [] b)
    (each : ∀ done a rest b, done ++ a :: rest = l → invariant done b →
      ∃ b', step b a = pure b' ∧ invariant (done ++ [a]) b') :
    ∃ b', l.foldlM step b = pure b' ∧ invariant l b' := by
  suffices after : ∀ rest done b, done ++ rest = l → invariant done b →
      ∃ b', rest.foldlM step b = pure b' ∧ invariant l b' from after l [] b rfl start
  intro rest
  induction rest with
  | nil =>
      intro done b all holds
      rw [List.append_nil] at all
      subst all
      exact ⟨b, List.foldlM_nil, holds⟩
  | cons a rest ih =>
      intro done b all holds
      obtain ⟨b', stepped, holds'⟩ := each done a rest b all holds
      obtain ⟨last, ran, reached⟩ := ih (done ++ [a]) b' (by rw [List.append_assoc]; exact all) holds'
      refine ⟨last, ?_, reached⟩
      rw [List.foldlM_cons, stepped, pure_bind]
      exact ran

end Runs
