import Mathlib.Data.List.Basic
import Mathlib.Algebra.Order.Ring.Int

/-! A window of the last insertions kept in two collections that are cleared in turn.

Each collection is cleared once in twice the size of the window, the second half way between the
clearings of the first, so the one cleared longer ago has the whole window. -/

universe u

namespace RollingWindow

variable {α : Type u}

/-- Histories and collections have their newest element first. -/
structure Generations (α : Type u) where
  count : Nat
  first : List α
  second : List α

def start : Generations α := ⟨0, [], []⟩

/-- One insertion, for a window of the given size. -/
def insert (size : Nat) (generations : Generations α) (a : α) : Generations α where
  count := if generations.count + 1 = 2 * size then 0 else generations.count + 1
  first := a :: (if generations.count = 0 then [] else generations.first)
  second :=
    a :: (if generations.count ≠ 0 ∧ generations.count = size then [] else generations.second)

/-- The collection that answers questions. -/
def current (size : Nat) (generations : Generations α) : List α :=
  if generations.count < size then generations.second else generations.first

/-- How much of the history the second collection has. -/
def kept (size count : Nat) : Nat := if count ≤ size then size + count else count - size

/-- The collections as the newest part of the history. -/
structure Tracks (size : Nat) (history : List α) (generations : Generations α) : Prop where
  bounded : generations.count < 2 * size
  first : 0 < generations.count → generations.first = history.take generations.count
  second : generations.second = history.take (kept size generations.count)

theorem tracks_start (size : Nat) (positive : 0 < size) :
    Tracks size [] (start : Generations α) := by
  constructor
  · simp only [start]
    omega
  · simp [start]
  · simp [start]

theorem tracks_insert (size : Nat) (history : List α) (generations : Generations α) (a : α)
    (tracks : Tracks size history generations) :
    Tracks size (a :: history) (insert size generations a) := by
  have bounded := tracks.bounded
  constructor
  · simp only [insert]
    split <;> omega
  · intro counted
    have stays : generations.count + 1 ≠ 2 * size := by
      intro wraps
      simp [insert, wraps] at counted
    simp only [insert, if_neg stays]
    by_cases none : generations.count = 0
    · simp [none]
    · rw [if_neg none, tracks.first (by omega), List.take_succ_cons]
  · have second := tracks.second
    simp only [insert]
    by_cases cleared : generations.count ≠ 0 ∧ generations.count = size
    · have one : kept size
          (if generations.count + 1 = 2 * size then 0 else generations.count + 1) = 1 := by
        rw [kept]
        split_ifs <;> omega
      rw [if_pos cleared, one, List.take_succ_cons, List.take_zero]
    · have more : kept size
          (if generations.count + 1 = 2 * size then 0 else generations.count + 1) =
            kept size generations.count + 1 := by
        rw [kept, kept]
        split_ifs <;> omega
      rw [if_neg cleared, second, more, List.take_succ_cons]

/-- The current collection has the whole window. -/
theorem window_current (size : Nat) (history : List α) (generations : Generations α)
    (tracks : Tracks size history generations) (a : α) (recent : a ∈ history.take size) :
    a ∈ current size generations := by
  have bounded := tracks.bounded
  rw [current]
  split
  · rename_i early
    rw [tracks.second, kept, if_pos (by omega)]
    exact (List.take_subset_take_left history (by omega)) recent
  · rename_i late
    rw [tracks.first (by omega)]
    exact (List.take_subset_take_left history (by omega)) recent

end RollingWindow
