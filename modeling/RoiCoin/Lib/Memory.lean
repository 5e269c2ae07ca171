import Mathlib.Data.List.Basic
import Mathlib.Algebra.Order.Ring.Int

/-! Memories that are filled by writes in any order, and slices of lists read word by word. -/

namespace Memory

universe u

variable {α : Type u}

/-- `count` cells from `offset` on. -/
def read (memory : Nat → α) (offset count : Nat) : List α :=
  (List.range count).map fun i => memory (offset + i)

@[simp] theorem read_length (memory : Nat → α) (offset count : Nat) :
    (read memory offset count).length = count := by
  rw [read, List.length_map, List.length_range]

theorem read_getElem (memory : Nat → α) (offset count i : Nat)
    (inside : i < (read memory offset count).length) :
    (read memory offset count)[i] = memory (offset + i) := by
  simp only [read, List.getElem_map, List.getElem_range]

def write (memory : Nat → α) (offset : Nat) (cells : List α) : Nat → α := fun address =>
  if offset ≤ address then (cells[address - offset]?).getD (memory address) else memory address

def fill (memory : Nat → α) (writes : List (Nat × List α)) : Nat → α :=
  writes.foldl (fun memory entry => write memory entry.1 entry.2) memory

/-- The write puts the cells of `target` where it writes. -/
def Agrees (target : Nat → α) (entry : Nat × List α) : Prop :=
  ∀ i cell, entry.2[i]? = some cell → cell = target (entry.1 + i)

def Covers (entry : Nat × List α) (address : Nat) : Prop :=
  entry.1 ≤ address ∧ address < entry.1 + entry.2.length

theorem write_covered (target memory : Nat → α) (entry : Nat × List α) (address : Nat)
    (agrees : Agrees target entry) (covered : Covers entry address) :
    write memory entry.1 entry.2 address = target address := by
  obtain ⟨least, most⟩ := covered
  have inside : address - entry.1 < entry.2.length := by omega
  rw [write, if_pos least, List.getElem?_eq_getElem inside, Option.getD_some,
    agrees _ _ (List.getElem?_eq_getElem inside)]
  congr 1
  omega

/-- A write that agrees with `target` keeps a cell that does. -/
theorem write_kept (target memory : Nat → α) (entry : Nat × List α) (address : Nat)
    (agrees : Agrees target entry) (already : memory address = target address) :
    write memory entry.1 entry.2 address = target address := by
  rw [write]
  split_ifs with least
  · cases here : entry.2[address - entry.1]? with
    | none => exact already
    | some cell =>
        have value := agrees _ _ here
        rw [Option.getD_some, value]
        congr 1
        omega
  · exact already

/-- Whatever the order of writes that agree with `target`, the cells they cover are its cells. -/
theorem fill_covered (target memory : Nat → α) (writes : List (Nat × List α)) (address : Nat)
    (agree : ∀ entry ∈ writes, Agrees target entry)
    (covered : memory address = target address ∨ ∃ entry ∈ writes, Covers entry address) :
    fill memory writes address = target address := by
  induction writes generalizing memory with
  | nil =>
      rcases covered with already | ⟨entry, member, _⟩
      · exact already
      · cases member
  | cons first writes ih =>
      rw [List.forall_mem_cons] at agree
      apply ih _ agree.2
      rcases covered with already | ⟨entry, member, covers⟩
      · exact .inl (write_kept target memory first address agree.1 already)
      · rcases List.mem_cons.mp member with rfl | later
        · exact .inl (write_covered target memory entry address agree.1 covers)
        · exact .inr ⟨entry, later, covers⟩

/-! ## Words -/

/-- The cells of one word. -/
def word (width : Nat) (cells : List α) (i : Nat) : List α := (cells.drop (width * i)).take width

/-- A slice is its words in a row. -/
theorem flatMap_read (memory : Nat → α) (offset width count : Nat) :
    ((List.range count).flatMap fun i => read memory (offset + width * i) width) =
      read memory offset (width * count) := by
  induction count with
  | zero => rfl
  | succ count ih =>
      rw [List.range_succ, List.flatMap_append, ih, List.flatMap_singleton, Nat.mul_succ]
      rw [read, read, read, List.range_add, List.map_append, List.map_map]
      congr 1
      apply List.map_congr_left
      intro i _
      exact congrArg memory (Nat.add_assoc _ _ _)

/-- Combining two lists word by word combines them cell by cell. -/
theorem flatMap_word (combine : α → α → α) (width count : Nat) (left right : List α)
    (left_size : left.length = width * count) (right_size : right.length = width * count) :
    ((List.range count).flatMap fun i =>
        List.zipWith combine (word width left i) (word width right i)) =
      List.zipWith combine left right := by
  have front : ∀ n ≤ count, ((List.range n).flatMap fun i =>
      List.zipWith combine (word width left i) (word width right i)) =
        List.zipWith combine (left.take (width * n)) (right.take (width * n)) := by
    intro n within
    induction n with
    | zero => simp
    | succ n ih =>
        have fits : width * n ≤ width * count := Nat.mul_le_mul_left width (by omega)
        rw [List.range_succ, List.flatMap_append, ih (by omega), List.flatMap_singleton,
          Nat.mul_succ, List.take_add, List.take_add, List.zipWith_append]
        · rfl
        · rw [List.length_take, List.length_take]
          omega
  rw [front count le_rfl, List.take_of_length_le (by omega), List.take_of_length_le (by omega)]

theorem word_read (memory : Nat → α) (offset width count i : Nat) (inside : i < count) :
    word width (read memory offset (width * count)) i = read memory (offset + width * i) width := by
  have fits : width * i + width ≤ width * count := by
    rw [← Nat.mul_succ]
    exact Nat.mul_le_mul_left width inside
  apply List.ext_getElem
  · rw [word, List.length_take, List.length_drop, read_length, read_length]
    omega
  · intro j left right
    rw [read_getElem]
    simp only [word, List.getElem_take, List.getElem_drop, read_getElem, Nat.add_assoc]

end Memory
