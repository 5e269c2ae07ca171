import Mathlib.Data.Finset.Union
import Mathlib.Logic.Relation

/-! Sets merged where they overlap: what comes out are the classes of elements linked by chains of the
sets that went in. -/

namespace Components

variable {α : Type}

def Joined (sets : List (Finset α)) (a b : α) : Prop := ∃ s ∈ sets, a ∈ s ∧ b ∈ s

def Linked (sets : List (Finset α)) : α → α → Prop := Relation.ReflTransGen (Joined sets)

def Meets (s t : Finset α) : Prop := ∃ a, a ∈ s ∧ a ∈ t

structure Classes (sets : List (Finset α)) (classes : Set (Finset α)) : Prop where
  apart : ∀ A ∈ classes, ∀ B ∈ classes, Meets A B → A = B
  covers : ∀ s ∈ sets, ∃ A ∈ classes, s ⊆ A
  within : ∀ A ∈ classes, ∀ a ∈ A, ∃ s ∈ sets, a ∈ s
  linked : ∀ A ∈ classes, ∀ a ∈ A, ∀ b ∈ A, Linked sets a b

theorem linked_symm (sets : List (Finset α)) (a b : α) (linked : Linked sets a b) :
    Linked sets b a := by
  induction linked with
  | refl => exact Relation.ReflTransGen.refl
  | tail _ joined ih =>
      obtain ⟨s, member, first, second⟩ := joined
      exact ih.head ⟨s, member, second, first⟩

theorem linked_mono (sets others : List (Finset α)) (more : sets ⊆ others) (a b : α)
    (linked : Linked sets a b) : Linked others a b := by
  have wider : ∀ c d, Joined sets c d → Joined others c d := by
    intro c d joined
    obtain ⟨s, member, both⟩ := joined
    exact ⟨s, more member, both⟩
  exact Relation.ReflTransGen.mono wider a b linked

theorem classes_nil : Classes ([] : List (Finset α)) ∅ where
  apart A member := absurd member (Set.notMem_empty A)
  covers s member := by cases member
  within A member := absurd member (Set.notMem_empty A)
  linked A member := absurd member (Set.notMem_empty A)

/-- Elements of one class are those linked to each other. -/
theorem same_class_iff (sets : List (Finset α)) (classes : Set (Finset α))
    (partition : Classes sets classes) (a b : α) :
    (∃ A ∈ classes, a ∈ A ∧ b ∈ A) ↔ (∃ s ∈ sets, a ∈ s) ∧ Linked sets a b := by
  constructor
  · intro same
    obtain ⟨A, member, first, second⟩ := same
    exact ⟨partition.within A member a first, partition.linked A member a first b second⟩
  · intro both
    obtain ⟨⟨s, member, first⟩, linked⟩ := both
    obtain ⟨A, there, inside⟩ := partition.covers s member
    refine ⟨A, there, inside first, ?_⟩
    induction linked with
    | refl => exact inside first
    | tail _ joined ih =>
        obtain ⟨t, other, left, right⟩ := joined
        obtain ⟨B, here, within⟩ := partition.covers t other
        have same := partition.apart A there B here ⟨_, ih, within left⟩
        rw [same]
        exact within right

/-- A new set takes in the classes that it meets. -/
theorem classes_merge (sets : List (Finset α)) (classes : Set (Finset α))
    (partition : Classes sets classes) (s merged : Finset α)
    (taken : ∀ a, a ∈ merged ↔ a ∈ s ∨ ∃ A ∈ classes, Meets A s ∧ a ∈ A) :
    Classes (sets ++ [s]) {B | B = merged ∨ B ∈ classes ∧ ¬ Meets B s} := by
  have new : s ∈ sets ++ [s] := List.mem_append_right sets List.mem_cons_self
  have more : sets ⊆ sets ++ [s] := List.subset_append_left sets [s]
  -- A class that is left has nothing of the merged one.
  have left : ∀ B ∈ classes, ¬ Meets B s → ¬ Meets B merged := by
    intro B member free met
    obtain ⟨a, inB, inMerged⟩ := met
    rcases (taken a).mp inMerged with fresh | ⟨A, other, hit, inA⟩
    · exact free ⟨a, inB, fresh⟩
    · exact free (partition.apart B member A other ⟨a, inB, inA⟩ ▸ hit)
  -- Whatever was merged is linked to the new set.
  have reaches : ∀ a ∈ merged, ∃ b ∈ s, Linked (sets ++ [s]) a b := by
    intro a member
    rcases (taken a).mp member with fresh | ⟨A, other, ⟨b, inA, inS⟩, here⟩
    · exact ⟨a, fresh, Relation.ReflTransGen.refl⟩
    · exact ⟨b, inS, linked_mono sets _ more a b (partition.linked A other a here b inA)⟩
  constructor
  case apart =>
    intro A memberA B memberB met
    rcases memberA with mergedA | ⟨oldA, freeA⟩
    · rcases memberB with mergedB | ⟨oldB, freeB⟩
      · rw [mergedA, mergedB]
      · obtain ⟨a, inA, inB⟩ := met
        exact absurd ⟨a, inB, mergedA ▸ inA⟩ (left B oldB freeB)
    · rcases memberB with mergedB | ⟨oldB, freeB⟩
      · exact absurd (mergedB ▸ met) (left A oldA freeA)
      · exact partition.apart A oldA B oldB met
  case covers =>
    intro t member
    rcases List.mem_append.mp member with old | last
    · obtain ⟨A, there, inside⟩ := partition.covers t old
      by_cases hit : Meets A s
      · exact ⟨merged, .inl rfl, fun a here => (taken a).mpr (.inr ⟨A, there, hit, inside here⟩)⟩
      · exact ⟨A, .inr ⟨there, hit⟩, inside⟩
    · rw [List.mem_singleton.mp last]
      exact ⟨merged, .inl rfl, fun a here => (taken a).mpr (.inl here)⟩
  case within =>
    intro A member a here
    rcases member with same | ⟨old, -⟩
    · rw [same] at here
      rcases (taken a).mp here with fresh | ⟨B, other, -, inB⟩
      · exact ⟨s, new, fresh⟩
      · obtain ⟨t, there, inside⟩ := partition.within B other a inB
        exact ⟨t, more there, inside⟩
    · obtain ⟨t, there, inside⟩ := partition.within A old a here
      exact ⟨t, more there, inside⟩
  case linked =>
    intro A member a first b second
    rcases member with same | ⟨old, -⟩
    · rw [same] at first second
      obtain ⟨c, inC, toC⟩ := reaches a first
      obtain ⟨d, inD, toD⟩ := reaches b second
      have across : Linked (sets ++ [s]) c d := Relation.ReflTransGen.single ⟨s, new, inC, inD⟩
      exact (toC.trans across).trans (linked_symm _ _ _ toD)
    · exact linked_mono sets _ more a b (partition.linked A old a first b second)

end Components
