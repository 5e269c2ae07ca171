import Mathlib.Data.List.MinMax

/-! Sets of candidates that cover what may be chosen.

Whatever is eligible is a candidate, or a candidate that stays good has a larger key. The candidate
with the largest key is then the best choice, and candidates below a chosen one may be dropped. -/

namespace Candidates

universe u v

variable {ι : Type u} {κ : Type v} [LinearOrder κ]

/-- Some good candidate is at least as high as `a`. -/
def Reached (key : ι → κ) (good : ι → Prop) (cands : List ι) (a : ι) : Prop :=
  ∃ g ∈ cands, good g ∧ key a ≤ key g

/-- What is eligible and no candidate lies below a good candidate. -/
def Covered (key : ι → κ) (eligible good : ι → Prop) (cands : List ι) : Prop :=
  ∀ a, eligible a → a ∉ cands → ∃ g ∈ cands, good g ∧ key a < key g

section Rules

variable (key : ι → κ) (eligible eligible' good good' : ι → Prop) (cands cands' : List ι)

/-- A good element is reached, whether or not it is a candidate. -/
theorem reached_good (covered : Covered key eligible good cands) (a : ι) (fit : eligible a)
    (fine : good a) : Reached key good cands a := by
  by_cases member : a ∈ cands
  · exact ⟨a, member, fine, le_rfl⟩
  · obtain ⟨g, among, better, larger⟩ := covered a fit member
    exact ⟨g, among, better, larger.le⟩

/-- Candidates may go when they are no longer eligible. -/
theorem covered_drop (covered : Covered key eligible good cands)
    (fewer : ∀ a, eligible' a → eligible a)
    (dropped : ∀ a ∈ cands, eligible' a → a ∈ cands')
    (kept : ∀ g ∈ cands, good g → g ∈ cands' ∧ good' g) :
    Covered key eligible' good' cands' := by
  intro a fit missing
  have before : a ∉ cands := fun member => missing (dropped a member fit)
  obtain ⟨g, among, better, larger⟩ := covered a (fewer a fit) before
  have still := kept g among better
  exact ⟨g, still.1, still.2, larger⟩

/-- Candidates below one that is reached may go. -/
theorem covered_prune (covered : Covered key eligible good cands) (bound : ι)
    (reached : Reached key good cands bound)
    (kept : ∀ g ∈ cands, key bound ≤ key g → g ∈ cands') : Covered key eligible good cands' := by
  intro a fit missing
  obtain ⟨top, among, better, larger⟩ := reached
  have stays := kept top among larger
  by_cases low : key a < key top
  · exact ⟨top, stays, better, low⟩
  · have high : key bound ≤ key a := larger.trans (not_lt.mp low)
    have before : a ∉ cands := fun member => missing (kept a member high)
    obtain ⟨g, amongToo, betterToo, above⟩ := covered a fit before
    exact ⟨g, kept g amongToo (high.trans above.le), betterToo, above⟩

/-- Nothing eligible is above every candidate. -/
theorem covered_bound (covered : Covered key eligible good cands) (bound : κ)
    (largest : ∀ g ∈ cands, key g ≤ bound) (a : ι) (fit : eligible a) : key a ≤ bound := by
  by_cases member : a ∈ cands
  · exact largest a member
  · obtain ⟨g, among, _, larger⟩ := covered a fit member
    exact larger.le.trans (largest g among)

end Rules

end Candidates
