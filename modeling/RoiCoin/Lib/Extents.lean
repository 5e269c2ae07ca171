import Mathlib.Data.List.Basic
import Mathlib.Data.List.Infix

/-! Files as sequences that are written at positions, and the extents that a write leaves alone. -/

universe u

namespace Extents

variable {α : Type u}

/-- Writing at a position. A gap between the end of the file and the position is filled; writing
nothing changes nothing. -/
def overwrite (fill : α) (file : List α) (pos : Nat) (data : List α) : List α :=
  if data.isEmpty then file
  else
    file.take pos ++ List.replicate (pos - file.length) fill ++ data ++
      file.drop (pos + data.length)

def extend (fill : α) (file : List α) (length : Nat) : List α :=
  file ++ List.replicate (length - file.length) fill

/-- The file has these data at the position. -/
def Holds (file : List α) (pos : Nat) (data : List α) : Prop := data <+: file.drop pos

instance [DecidableEq α] (file : List α) (pos : Nat) (data : List α) :
    Decidable (Holds file pos data) := inferInstanceAs (Decidable (_ <+: _))

/-- Whatever lies below `bound` stays. -/
def KeepsBelow (bound : Nat) (file file' : List α) : Prop :=
  ∀ pos data, pos + data.length ≤ bound → Holds file pos data → Holds file' pos data

theorem keepsBelow_refl (bound : Nat) (file : List α) : KeepsBelow bound file file :=
  fun _ _ _ held => held

theorem keepsBelow_trans (bound : Nat) (file₁ file₂ file₃ : List α)
    (first : KeepsBelow bound file₁ file₂) (second : KeepsBelow bound file₂ file₃) :
    KeepsBelow bound file₁ file₃ :=
  fun pos data below held => second pos data below (first pos data below held)

theorem holds_iff (file : List α) (pos : Nat) (data : List α) :
    Holds file pos data ↔ ∃ rest, file.drop pos = data ++ rest := by
  rw [Holds, List.IsPrefix]
  exact exists_congr fun rest => eq_comm

/-- What is held lies in the file. -/
theorem holds_length (file : List α) (pos : Nat) (data : List α) (held : Holds file pos data) :
    data.length ≤ file.length - pos := by
  have shorter := held.length_le
  rwa [List.length_drop] at shorter

theorem holds_nil (file : List α) (pos : Nat) : Holds file pos [] := List.nil_prefix

/-- Two files that agree up to a length hold the same there. -/
theorem holds_take (file file' : List α) (bound pos : Nat) (data : List α)
    (same : file.take bound = file'.take bound) (below : pos + data.length ≤ bound)
    (held : Holds file pos data) : Holds file' pos data := by
  have inside : data <+: (file.drop pos).take (bound - pos) := by
    rw [List.prefix_take_iff]
    exact ⟨held, by omega⟩
  rw [← List.drop_take, same, List.drop_take] at inside
  exact inside.trans (List.take_prefix _ _)

/-- An empty file has nothing to keep. -/
theorem keepsBelow_nil (bound : Nat) (file : List α) : KeepsBelow bound [] file := by
  intro pos data _ held
  rw [Holds, List.drop_nil, List.prefix_nil] at held
  rw [held]
  exact holds_nil _ _

theorem overwrite_take (fill : α) (file : List α) (pos : Nat) (data : List α)
    (bound : Nat) (below : bound ≤ pos) (within : bound ≤ file.length) :
    (overwrite fill file pos data).take bound = file.take bound := by
  rw [overwrite]
  split
  · rfl
  · rw [List.append_assoc, List.append_assoc, List.take_append_of_le_length (by simp; omega),
      List.take_take, Nat.min_eq_left below]

theorem overwrite_keeps (fill : α) (file : List α) (pos : Nat) (data : List α) :
    KeepsBelow pos file (overwrite fill file pos data) := by
  intro at' old below held
  cases old with
  | nil => exact holds_nil _ _
  | cons head tail =>
      have inside := holds_length file at' (head :: tail) held
      rw [List.length_cons] at inside below
      apply holds_take file _ (at' + (tail.length + 1)) at' (head :: tail) ?_ le_rfl held
      exact (overwrite_take fill file pos data _ below (by omega)).symm

theorem holds_overwrite (fill : α) (file : List α) (pos : Nat) (data : List α) :
    Holds (overwrite fill file pos data) pos data := by
  rw [overwrite]
  split
  · rename_i empty
    rw [List.isEmpty_iff.mp empty]
    exact holds_nil _ _
  · have front : (file.take pos ++ List.replicate (pos - file.length) fill).length = pos := by
      simp only [List.length_append, List.length_take, List.length_replicate]
      omega
    rw [Holds, List.append_assoc, List.drop_left' front]
    exact List.prefix_append _ _

/-- A part of what is held is held further on. -/
theorem holds_after (file : List α) (pos : Nat) (front back : List α)
    (held : Holds file pos (front ++ back)) : Holds file (pos + front.length) back := by
  rw [holds_iff] at held ⊢
  obtain ⟨rest, whole⟩ := held
  refine ⟨rest, ?_⟩
  rw [← List.drop_drop, whole, List.append_assoc, List.drop_left]

theorem extend_keeps (fill : α) (file : List α) (length bound : Nat) :
    KeepsBelow bound file (extend fill file length) := by
  intro pos data _ held
  rw [Holds, extend]
  by_cases inside : pos ≤ file.length
  · rw [List.drop_append_of_le_length inside]
    exact held.trans (List.prefix_append _ _)
  · rw [Holds, List.drop_eq_nil_of_le (by omega), List.prefix_nil] at held
    rw [held]
    exact List.nil_prefix

end Extents
