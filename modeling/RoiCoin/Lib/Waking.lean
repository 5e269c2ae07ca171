import Mathlib.Data.List.Basic

/-! Items that wait for facts. A fact that becomes known is put into a queue, and when it is taken
from the queue the items that need it are looked at again. -/

namespace Waking

universe u v

variable {ι : Type u} {κ : Type v} (needs : ι → κ → Prop)

/-- Every item that is left lacks a fact, needs one that is still in the queue, or is still to be
looked at. -/
def Covered (left : ι → Prop) (known : κ → Prop) (queue : List κ) (again : List ι) : Prop :=
  ∀ item, left item → (∃ fact, needs item fact ∧ ¬ known fact) ∨
    (∃ fact ∈ queue, needs item fact) ∨ item ∈ again

variable (left left' : ι → Prop) (known known' : κ → Prop) (queue : List κ) (again : List ι)

/-- New facts are queued where every item lacks one. -/
theorem covered_start (lacks : ∀ item, left item → ∃ fact, needs item fact ∧ ¬ known fact)
    (learnt : ∀ fact, known' fact → known fact ∨ fact ∈ queue) :
    Covered needs left known' queue [] := by
  intro item waits
  obtain ⟨fact, needed, unknown⟩ := lacks item waits
  by_cases now : known' fact
  · have queued := (learnt fact now).resolve_left unknown
    exact .inr (.inl ⟨fact, queued, needed⟩)
  · exact .inl ⟨fact, needed, now⟩

/-- Take a fact, with every item that needs it. -/
theorem covered_take (fact : κ) (covered : Covered needs left known (fact :: queue) [])
    (woken : ∀ item, left item → needs item fact → item ∈ again) :
    Covered needs left known queue again := by
  intro item waits
  rcases covered item waits with lacks | ⟨other, member, needed⟩ | nothing
  · exact .inl lacks
  · rcases List.mem_cons.mp member with rfl | queued
    · exact .inr (.inr (woken item waits needed))
    · exact .inr (.inl ⟨other, queued, needed⟩)
  · cases nothing

/-- Look at an item, which goes or lacks a fact. Facts that become known are queued. -/
theorem covered_look (item : ι) (added : List κ)
    (covered : Covered needs left known queue (item :: again))
    (fewer : ∀ other, left' other → left other)
    (looked : left' item → ∃ fact, needs item fact ∧ ¬ known' fact)
    (learnt : ∀ fact, known' fact → known fact ∨ fact ∈ added) :
    Covered needs left' known' (queue ++ added) again := by
  intro other waits
  rcases covered other (fewer other waits) with ⟨fact, needed, unknown⟩ | ⟨fact, queued, needed⟩ |
    member
  · by_cases now : known' fact
    · have queued := (learnt fact now).resolve_left unknown
      exact .inr (.inl ⟨fact, List.mem_append_right queue queued, needed⟩)
    · exact .inl ⟨fact, needed, now⟩
  · exact .inr (.inl ⟨fact, List.mem_append_left added queued, needed⟩)
  · rcases List.mem_cons.mp member with rfl | later
    · exact .inl (looked waits)
    · exact .inr (.inr later)

/-- When the queue is empty, every item that is left lacks a fact. -/
theorem covered_end (covered : Covered needs left known [] []) (item : ι) (waits : left item) :
    ∃ fact, needs item fact ∧ ¬ known fact := by
  rcases covered item waits with lacks | ⟨fact, nothing, -⟩ | nothing
  · exact lacks
  · cases nothing
  · cases nothing

/-! ## How often facts become known -/

/-- Fewer items are unsolved when one more is solved. -/
theorem countP_fewer (unsolved unsolved' : ι → Bool) (items : List ι) (item : ι)
    (member : item ∈ items) (fewer : ∀ other, unsolved' other = true → unsolved other = true)
    (before : unsolved item = true) (after : unsolved' item = false) :
    items.countP unsolved' + 1 ≤ items.countP unsolved := by
  induction items with
  | nil => cases member
  | cons head items ih =>
      rw [List.countP_cons, List.countP_cons]
      have others : items.countP unsolved' ≤ items.countP unsolved :=
        List.countP_mono_left fun other _ => fewer other
      rcases List.mem_cons.mp member with rfl | later
      · rw [before, after]
        simpa using others
      · have less := ih later
        by_cases kept : unsolved' head = true
        · rw [if_pos kept, if_pos (fewer head kept)]
          omega
        · rw [if_neg kept]
          omega

end Waking
