import Mathlib.Data.List.DropRight

/-! Vectors of optional values in which the vacant tail is dropped. -/

namespace Slots

universe u

variable {α : Type u}

/-- The value at a position; vacant past the end. -/
def slot (slots : List (Option α)) (n : Nat) : Option α := slots[n]?.join

/-- Drop the vacant positions at the end. -/
def trim (slots : List (Option α)) : List (Option α) := slots.rdropWhile Option.isNone

/-- Write a value, extending the vector with vacant positions if it is too short. -/
def fill (slots : List (Option α)) (n : Nat) (value : Option α) : List (Option α) :=
  (slots ++ List.replicate (n + 1 - slots.length) none).set n value

def vacant (slots : List (Option α)) : Bool := slots.all Option.isNone

@[simp] theorem slot_nil (n : Nat) : slot ([] : List (Option α)) n = none := rfl

theorem slot_some (slots : List (Option α)) (n : Nat) (a : α) :
    slot slots n = some a ↔ slots[n]? = some (some a) := by
  rw [slot, Option.join_eq_some_iff]

theorem slot_past (slots : List (Option α)) (n : Nat) (past : slots.length ≤ n) :
    slot slots n = none := by
  rw [slot, List.getElem?_eq_none past]
  rfl

theorem slot_lt (slots : List (Option α)) (n : Nat) (a : α) (present : slot slots n = some a) :
    n < slots.length := by
  by_contra past
  rw [slot_past slots n (Nat.le_of_not_lt past)] at present
  cases present

@[simp] theorem slot_trim (slots : List (Option α)) (n : Nat) :
    slot (trim slots) n = slot slots n := by
  induction slots using List.reverseRecOn with
  | nil => rfl
  | append_singleton slots a ih =>
      rw [trim, List.rdropWhile_concat]
      split
      · rename_i empty
        rw [← trim, ih]
        rcases Nat.lt_trichotomy n slots.length with before | same | after
        · rw [slot, slot, List.getElem?_append_left before]
        · rw [Option.isNone_iff_eq_none] at empty
          rw [slot_past slots n (by omega), slot, same, List.getElem?_concat_length, empty]
          rfl
        · rw [slot_past slots n (by omega), slot_past _ n (by simp; omega)]
      · rfl

theorem slot_set (slots : List (Option α)) (n m : Nat) (value : Option α) (inside : n < slots.length) :
    slot (slots.set n value) m = if m = n then value else slot slots m := by
  rw [slot, slot, List.getElem?_set]
  by_cases same : n = m
  · subst same
    simp [inside]
  · rw [if_neg same, if_neg (Ne.symm same)]

@[simp] theorem slot_fill (slots : List (Option α)) (n m : Nat) (value : Option α) :
    slot (fill slots n value) m = if m = n then value else slot slots m := by
  have inside : n < (slots ++ List.replicate (n + 1 - slots.length) none).length := by
    rw [List.length_append, List.length_replicate]
    omega
  rw [fill, slot_set _ n m _ inside]
  split
  · rfl
  · by_cases before : m < slots.length
    · rw [slot, slot, List.getElem?_append_left before]
    · rw [slot_past slots m (by omega), slot, List.getElem?_append_right (by omega),
        List.getElem?_replicate]
      split <;> rfl

theorem vacant_iff (slots : List (Option α)) : vacant slots = true ↔ ∀ n, slot slots n = none := by
  rw [vacant, List.all_eq_true]
  constructor
  · intro empty n
    rw [slot]
    cases read : slots[n]? with
    | none => rfl
    | some a => simpa using empty a (List.mem_of_getElem? read)
  · intro empty a member
    obtain ⟨n, inside, rfl⟩ := List.getElem_of_mem member
    have here := empty n
    rw [slot, List.getElem?_eq_getElem inside] at here
    simpa using here

@[simp] theorem vacant_trim (slots : List (Option α)) : vacant (trim slots) = vacant slots := by
  rw [Bool.eq_iff_iff, vacant_iff, vacant_iff]
  simp only [slot_trim]

theorem trim_vacant (slots : List (Option α)) (empty : vacant slots = true) : trim slots = [] := by
  rw [trim, List.rdropWhile_eq_nil_iff]
  exact List.all_eq_true.mp empty

@[simp] theorem trim_trim (slots : List (Option α)) : trim (trim slots) = trim slots :=
  List.rdropWhile_idempotent _ _

/-- The last position of a trimmed vector is occupied. -/
theorem trim_last (slots : List (Option α)) (n : Nat) (length : (trim slots).length = n + 1) :
    ∃ a, slot (trim slots) n = some a := by
  have nonempty : slots.rdropWhile Option.isNone ≠ [] := by
    intro empty
    rw [trim, empty] at length
    cases length
  have occupied := List.rdropWhile_last_not Option.isNone slots nonempty
  rw [Bool.not_eq_true, Option.isNone_eq_false_iff] at occupied
  obtain ⟨a, last⟩ := Option.isSome_iff_exists.mp occupied
  refine ⟨a, ?_⟩
  rw [slot_some, ← last, ← List.getLast?_eq_some_getLast, List.getLast?_eq_getElem?]
  rw [trim] at length ⊢
  rw [length, Nat.add_sub_cancel]

/-- Trimmed vectors are determined by their positions. -/
theorem trim_ext (first second : List (Option α)) (same : ∀ n, slot first n = slot second n) :
    trim first = trim second := by
  have positions : ∀ n, slot (trim first) n = slot (trim second) n := by
    intro n
    rw [slot_trim, slot_trim, same]
  have bounded : ∀ left right : List (Option α),
      (∀ n, slot (trim left) n = slot (trim right) n) →
      (trim left).length ≤ (trim right).length := by
    intro left right agree
    by_contra longer
    obtain ⟨n, length⟩ := Nat.exists_eq_add_of_lt (Nat.lt_of_not_le longer)
    obtain ⟨a, last⟩ := trim_last left ((trim right).length + n) length
    rw [agree, slot_past _ _ (by omega)] at last
    cases last
  have length : (trim first).length = (trim second).length :=
    Nat.le_antisymm (bounded first second positions)
      (bounded second first fun n => (positions n).symm)
  apply List.ext_getElem length
  intro n left right
  have here := positions n
  rw [slot, slot, List.getElem?_eq_getElem left, List.getElem?_eq_getElem right] at here
  simpa using here

end Slots
