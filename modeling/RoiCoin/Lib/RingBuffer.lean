import Mathlib.Data.Nat.ModEq

/-! Ring buffers that keep the last elements of a stream, each at its position modulo the size. -/

universe u

namespace RingBuffer

variable {α : Type u}

/-- Copy a chunk into a buffer. -/
def write (buffer : List α) (pos : Nat) (chunk : List α) : List α :=
  buffer.take pos ++ chunk ++ buffer.drop (pos + chunk.length)

/-- The buffer has what the stream has in the positions before `top` that it has room for. -/
def Holds (stream buffer : List α) (top : Nat) : Prop :=
  ∀ x, x < top → top ≤ x + buffer.length → buffer[x % buffer.length]? = stream[x]?

theorem length_write (buffer : List α) (pos : Nat) (chunk : List α)
    (fits : pos + chunk.length ≤ buffer.length) :
    (write buffer pos chunk).length = buffer.length := by
  simp only [write, List.length_append, List.length_take, List.length_drop]
  omega

theorem write_inside (buffer : List α) (pos i : Nat) (chunk : List α)
    (fits : pos + chunk.length ≤ buffer.length) (inside : i < chunk.length) :
    (write buffer pos chunk)[pos + i]? = chunk[i]? := by
  have front : (buffer.take pos).length = pos := by
    rw [List.length_take]
    omega
  rw [write, List.append_assoc, List.getElem?_append_right (by omega), front,
    Nat.add_sub_cancel_left, List.getElem?_append_left inside]

theorem write_outside (buffer : List α) (pos i : Nat) (chunk : List α)
    (fits : pos + chunk.length ≤ buffer.length) (outside : i < pos ∨ pos + chunk.length ≤ i) :
    (write buffer pos chunk)[i]? = buffer[i]? := by
  have front : (buffer.take pos).length = pos := by
    rw [List.length_take]
    omega
  rw [write]
  rcases outside with before | after
  · rw [List.append_assoc, List.getElem?_append_left (by omega), List.getElem?_take_of_lt before]
  · rw [List.getElem?_append_right (by rw [List.length_append]; omega), List.length_append, front,
      List.getElem?_drop]
    congr 1
    omega

/-- Positions less than the size apart have indices that far apart, once around the end. -/
theorem index_after (x y size : Nat) (near : y < size) :
    (x + y) % size =
      if x % size + y < size then x % size + y else x % size + y - size := by
  have lower : x % size < size := Nat.mod_lt _ (by omega)
  rw [Nat.add_mod, Nat.mod_eq_of_lt near]
  split
  · rename_i inside
    exact Nat.mod_eq_of_lt inside
  · rw [Nat.mod_eq_sub_mod (by omega), Nat.mod_eq_of_lt (by omega)]

/-- The next elements of the stream overwrite the oldest ones. -/
theorem holds_write (stream buffer chunk : List α) (top : Nat)
    (holds : Holds stream buffer top) (next : ∀ i < chunk.length, chunk[i]? = stream[top + i]?)
    (fits : top % buffer.length + chunk.length ≤ buffer.length) :
    Holds stream (write buffer (top % buffer.length) chunk) (top + chunk.length) := by
  intro x before recent
  rw [length_write _ _ _ fits] at recent ⊢
  by_cases new : top ≤ x
  · obtain ⟨i, rfl⟩ := Nat.exists_eq_add_of_le new
    have inside : i < chunk.length := by omega
    rw [index_after top i _ (by omega), if_pos (by omega), write_inside _ _ _ _ fits inside,
      next i inside]
  · have turned : (x + buffer.length - top + top) % buffer.length = x % buffer.length := by
      rw [Nat.sub_add_cancel (by omega), Nat.add_mod_right]
    have place := index_after top (x + buffer.length - top) buffer.length (by omega)
    rw [Nat.add_comm, turned] at place
    rw [write_outside _ _ _ _ fits, holds x (by omega) (by omega)]
    split at place <;> omega

/-- One more element of the stream takes the place of the oldest one. -/
theorem holds_push (stream buffer : List α) (a : α) (room : 0 < buffer.length)
    (holds : Holds stream buffer stream.length) :
    Holds (stream ++ [a]) (buffer.set (stream.length % buffer.length) a) (stream.length + 1) := by
  have inside : stream.length % buffer.length < buffer.length := Nat.mod_lt _ room
  have one : buffer.set (stream.length % buffer.length) a =
      write buffer (stream.length % buffer.length) [a] := by
    rw [List.set_eq_take_append_cons_drop, if_pos inside]
    simp [write]
  have longer : Holds (stream ++ [a]) buffer stream.length := by
    intro x before recent
    rw [List.getElem?_append_left before]
    exact holds x before recent
  rw [one]
  apply holds_write (stream ++ [a]) buffer [a] stream.length longer
  · intro i first
    have start : i = 0 := by simpa using first
    simp [start]
  · rw [List.length_singleton]
    omega

/-- What is read without going around the end is the stream. -/
theorem holds_read (stream buffer : List α) (top x n : Nat) (holds : Holds stream buffer top)
    (recent : top ≤ x + buffer.length) (inside : x + n ≤ top)
    (fits : x % buffer.length + n ≤ buffer.length) :
    (buffer.drop (x % buffer.length)).take n = (stream.drop x).take n := by
  apply List.ext_getElem?
  intro i
  by_cases among : i < n
  · have place := index_after x i buffer.length (by omega)
    rw [if_pos (by omega)] at place
    rw [List.getElem?_take_of_lt among, List.getElem?_take_of_lt among, List.getElem?_drop,
      List.getElem?_drop, ← place, holds (x + i) (by omega) (by omega)]
  · rw [List.getElem?_eq_none, List.getElem?_eq_none]
    · rw [List.length_take]
      omega
    · rw [List.length_take]
      omega

end RingBuffer
