import Mathlib.Data.List.Perm.Basic

/-! Loops that judge the elements of a list one after the other and may return in the middle. -/

namespace EarlyExit

universe u v

variable {α : Type u} {ε : Type v}

/-- One turn of such a loop. -/
inductive Turn where
  | exits (answer : Bool)
  | continues
  deriving DecidableEq, Repr

/-- The loop returns true where it comes to its end. -/
def run (judge : α → Except ε Turn) : List α → Except ε Bool
  | [] => .ok true
  | a :: rest =>
      match judge a with
      | .error e => .error e
      | .ok (.exits answer) => .ok answer
      | .ok .continues => run judge rest

/-- The element taken alone makes the loop return true. -/
def Passes (judge : α → Except ε Turn) (a : α) : Prop :=
  judge a = .ok .continues ∨ judge a = .ok (.exits true)

/-- The element ends the loop with true, whatever comes after it. -/
def Cuts (judge : α → Except ε Turn) (a : α) : Prop := judge a = .ok (.exits true)

section Loop

variable (judge : α → Except ε Turn)

theorem run_cons (a : α) (rest : List α) :
    run judge (a :: rest) = .ok true ↔
      Cuts judge a ∨ judge a = .ok .continues ∧ run judge rest = .ok true := by
  rw [Cuts, run]
  cases judge a with
  | error e => simp
  | ok turn => cases turn <;> simp

theorem run_of_passes (elements : List α) (all : ∀ a ∈ elements, Passes judge a) :
    run judge elements = .ok true := by
  induction elements with
  | nil => rfl
  | cons a rest ih =>
      rw [run_cons]
      rcases all a List.mem_cons_self with continues | cuts
      · exact .inr ⟨continues, ih fun b member => all b (List.mem_cons_of_mem _ member)⟩
      · exact .inl cuts

/-- Without an element that cuts the loop short every element is judged. -/
theorem run_of_uncut (elements : List α) (uncut : ∀ a ∈ elements, ¬ Cuts judge a)
    (passed : run judge elements = .ok true) : ∀ a ∈ elements, Passes judge a := by
  induction elements with
  | nil => simp
  | cons a rest ih =>
      rw [run_cons] at passed
      rcases passed with cuts | ⟨continues, later⟩
      · exact absurd cuts (uncut a List.mem_cons_self)
      · intro b member
        rcases List.mem_cons.mp member with rfl | member
        · exact .inl continues
        · exact ih (fun c inside => uncut c (List.mem_cons_of_mem _ inside)) later b member

/-- The loop judges all elements, and judges them alike in every order. -/
def JudgesAll (elements : List α) : Prop :=
  (run judge elements = .ok true ↔ ∀ a ∈ elements, Passes judge a) ∧
    ∀ others, others.Perm elements → (run judge others = .ok true ↔ run judge elements = .ok true)

theorem judgesAll_iff (elements : List α) :
    JudgesAll judge elements ↔
      (∀ a ∈ elements, Passes judge a) ∨ ∀ a ∈ elements, ¬ Cuts judge a := by
  constructor
  · rintro ⟨judged, alike⟩
    by_contra neither
    rw [not_or] at neither
    obtain ⟨failing, cut⟩ := neither
    apply cut
    intro a member cuts
    -- in front of the others the element that cuts hides whatever fails
    obtain ⟨front, back, rfl⟩ := List.append_of_mem member
    have moved := alike (a :: (front ++ back)) List.perm_middle.symm
    exact failing (judged.mp (moved.mp ((run_cons judge a _).mpr (.inl cuts))))
  · rintro (all | uncut)
    · refine ⟨⟨fun _ => all, run_of_passes judge elements⟩, ?_⟩
      intro others same
      constructor
      · exact fun _ => run_of_passes judge elements all
      · exact fun _ => run_of_passes judge others fun a member => all a (same.subset member)
    · have exactly : ∀ others : List α, others.Perm elements →
          (run judge others = .ok true ↔ ∀ a ∈ elements, Passes judge a) := by
        intro others same
        constructor
        · intro passed a member
          exact run_of_uncut judge others (fun b inside => uncut b (same.subset inside)) passed a
            (same.symm.subset member)
        · intro all
          exact run_of_passes judge others fun a member => all a (same.subset member)
      refine ⟨exactly elements (List.Perm.refl _), ?_⟩
      intro others same
      rw [exactly others same, exactly elements (List.Perm.refl _)]

end Loop

end EarlyExit
