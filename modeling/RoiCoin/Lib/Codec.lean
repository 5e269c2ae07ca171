import Mathlib.Logic.Basic

/-! Readers of byte strings: a reader consumes a front part of its input or fails. -/

namespace Codec

universe u

abbrev Reader (α : Type) := StateT (List UInt8) Option α

/-- The reader takes exactly these bytes, whatever follows them, and gives this value. -/
def Reads {α : Type} (reader : Reader α) (bytes : List UInt8) (a : α) : Prop :=
  ∀ rest, reader.run (bytes ++ rest) = some (a, rest)

def readByte : Reader UInt8 := fun bytes =>
  match bytes with
  | [] => none
  | byte :: rest => some (byte, rest)

def take (n : Nat) : Reader (List UInt8) := fun bytes =>
  if bytes.length < n then none else some (bytes.take n, bytes.drop n)

def check (holds : Prop) [Decidable holds] : Reader Unit := fun bytes =>
  if holds then some ((), bytes) else none

def many {α : Type} (reader : Reader α) : Nat → Reader (List α)
  | 0 => pure []
  | n + 1 => do
      let a ← reader
      let rest ← many reader n
      return a :: rest

variable {α β : Type}

theorem reads_pure (a : α) : Reads (pure a) [] a := fun _ => rfl

theorem reads_bind (first : Reader α) (next : α → Reader β) (front back : List UInt8) (a : α)
    (b : β) (head : Reads first front a) (tail : Reads (next a) back b) :
    Reads (first >>= next) (front ++ back) b := by
  intro rest
  rw [List.append_assoc, StateT.run_bind, head]
  exact tail rest

/-- The last step of a reader: nothing is left to read. -/
theorem reads_return (first : Reader α) (f : α → β) (bytes : List UInt8) (a : α)
    (head : Reads first bytes a) : Reads (do let a ← first; return f a) bytes (f a) := by
  have whole := reads_bind first (fun a => pure (f a)) bytes [] a (f a) head (reads_pure (f a))
  rwa [List.append_nil] at whole

theorem reads_byte (byte : UInt8) : Reads readByte [byte] byte := fun _ => rfl

theorem reads_take (bytes : List UInt8) (n : Nat) (length : bytes.length = n) :
    Reads (take n) bytes bytes := by
  subst length
  intro rest
  have long : ¬ (bytes ++ rest).length < bytes.length := by
    rw [List.length_append]
    omega
  simp only [StateT.run, take, if_neg long, List.take_left, List.drop_left]

theorem reads_check (holds : Prop) [Decidable holds] (met : holds) :
    Reads (check holds) [] () := by
  intro rest
  simp only [StateT.run, check, if_pos met, List.nil_append]

/-- A value that is refused unless it meets a condition. -/
theorem reads_guarded (reader : Reader α) (holds : α → Prop) [DecidablePred holds]
    (bytes : List UInt8) (a : α) (head : Reads reader bytes a) (met : holds a) :
    Reads (do let a ← reader; check (holds a); return a) bytes a := by
  intro rest
  rw [StateT.run_bind, head]
  exact reads_return (check (holds a)) (fun _ => a) [] () (reads_check (holds a) met) rest

theorem reads_many (reader : Reader α) (encode : α → List UInt8) (list : List α)
    (single : ∀ a ∈ list, Reads reader (encode a) a) :
    Reads (many reader list.length) (list.flatMap encode) list := by
  induction list with
  | nil => exact reads_pure []
  | cons a list ih =>
      rw [List.forall_mem_cons] at single
      rw [List.flatMap_cons]
      apply reads_bind reader _ _ _ a (a :: list) single.1
      exact reads_return _ _ _ _ (ih single.2)

/-! ## What was read -/

/-- The bytes that the reader takes for a value are the encoding of that value. -/
def Canonical (reader : Reader α) (encode : α → List UInt8) : Prop :=
  ∀ bytes a rest, reader.run bytes = some (a, rest) → encode a ++ rest = bytes

theorem run_pure (a b : α) (bytes rest : List UInt8) :
    (pure a : Reader α).run bytes = some (b, rest) ↔ a = b ∧ bytes = rest := by
  rw [StateT.run_pure, Option.pure_def, Option.some.injEq, Prod.mk.injEq]

theorem run_bind (first : Reader α) (next : α → Reader β) (bytes rest : List UInt8) (b : β) :
    (first >>= next).run bytes = some (b, rest) ↔
      ∃ a middle, first.run bytes = some (a, middle) ∧ (next a).run middle = some (b, rest) := by
  rw [StateT.run_bind, Option.bind_eq_bind, Option.bind_eq_some_iff]
  constructor
  · rintro ⟨⟨a, middle⟩, head, tail⟩
    exact ⟨a, middle, head, tail⟩
  · rintro ⟨a, middle, head, tail⟩
    exact ⟨⟨a, middle⟩, head, tail⟩

theorem run_byte (byte : UInt8) (bytes rest : List UInt8) :
    readByte.run bytes = some (byte, rest) ↔ byte :: rest = bytes := by
  cases bytes with
  | nil => exact ⟨fun found => (by cases found), fun found => (by cases found)⟩
  | cons head tail =>
      simp only [StateT.run, readByte, Option.some.injEq, Prod.mk.injEq, List.cons.injEq]
      exact ⟨fun same => ⟨same.1.symm, same.2.symm⟩, fun same => ⟨same.1.symm, same.2.symm⟩⟩

theorem run_take (n : Nat) (front bytes rest : List UInt8) :
    (take n).run bytes = some (front, rest) ↔ front.length = n ∧ front ++ rest = bytes := by
  simp only [StateT.run, take]
  constructor
  · intro found
    by_cases short : bytes.length < n
    · rw [if_pos short] at found
      cases found
    · rw [if_neg short] at found
      obtain ⟨rfl, rfl⟩ := Prod.mk.inj (Option.some.inj found)
      refine ⟨?_, List.take_append_drop n bytes⟩
      rw [List.length_take]
      omega
  · rintro ⟨rfl, rfl⟩
    have long : ¬ (front ++ rest).length < front.length := by
      rw [List.length_append]
      omega
    rw [if_neg long, List.take_left, List.drop_left]

theorem run_check (holds : Prop) [Decidable holds] (bytes rest : List UInt8) (done : Unit) :
    (check holds).run bytes = some (done, rest) ↔ holds ∧ bytes = rest := by
  simp only [StateT.run, check]
  by_cases met : holds
  · simp [met]
  · simp [met]

theorem canonical_many (reader : Reader α) (encode : α → List UInt8)
    (single : Canonical reader encode) (n : Nat) (bytes rest : List UInt8) (list : List α)
    (found : (many reader n).run bytes = some (list, rest)) :
    list.length = n ∧ list.flatMap encode ++ rest = bytes := by
  induction n generalizing bytes list with
  | zero =>
      obtain ⟨rfl, rfl⟩ := (run_pure _ _ _ _).mp found
      exact ⟨rfl, rfl⟩
  | succ n ih =>
      obtain ⟨a, middle, head, tail⟩ := (run_bind _ _ _ _ _).mp found
      obtain ⟨others, after, later, done⟩ := (run_bind _ _ _ _ _).mp tail
      obtain ⟨rfl, rfl⟩ := (run_pure _ _ _ _).mp done
      obtain ⟨length, encoded⟩ := ih middle others later
      refine ⟨by rw [List.length_cons, length], ?_⟩
      rw [List.flatMap_cons, List.append_assoc, encoded]
      exact single bytes a middle head

theorem all_many (reader : Reader α) (good : α → Prop)
    (single : ∀ bytes rest a, reader.run bytes = some (a, rest) → good a) (n : Nat)
    (bytes rest : List UInt8) (list : List α)
    (found : (many reader n).run bytes = some (list, rest)) : ∀ a ∈ list, good a := by
  induction n generalizing bytes list with
  | zero =>
      obtain ⟨rfl, rfl⟩ := (run_pure _ _ _ _).mp found
      exact List.forall_mem_nil _
  | succ n ih =>
      obtain ⟨a, middle, head, tail⟩ := (run_bind _ _ _ _ _).mp found
      obtain ⟨others, after, later, done⟩ := (run_bind _ _ _ _ _).mp tail
      obtain ⟨rfl, rfl⟩ := (run_pure _ _ _ _).mp done
      exact List.forall_mem_cons.mpr ⟨single bytes middle a head, ih middle others later⟩

/-- Readers that succeed alike are the same. -/
theorem reader_ext (first second : Reader α) (alike : ∀ bytes a rest,
    first.run bytes = some (a, rest) ↔ second.run bytes = some (a, rest)) : first = second := by
  funext bytes
  apply Option.ext
  rintro ⟨a, rest⟩
  exact alike bytes a rest

/-! ## Reading in batches -/

theorem many_add (reader : Reader α) (first second : Nat) :
    many reader (first + second) = (do
      let front ← many reader first
      let back ← many reader second
      return front ++ back) := by
  induction first with
  | zero => simp [many]
  | succ first ih =>
      rw [Nat.succ_add, many, many, ih]
      simp only [bind_assoc, pure_bind, List.cons_append]

theorem take_add (first second : Nat) :
    take (first + second) = (do
      let front ← take first
      let back ← take second
      return front ++ back) := by
  apply reader_ext
  intro bytes whole rest
  simp only [run_bind, run_take, run_pure]
  constructor
  · rintro ⟨length, rfl⟩
    refine ⟨whole.take first, whole.drop first ++ rest, ⟨?_, ?_⟩, whole.drop first, rest,
      ⟨?_, rfl⟩, List.take_append_drop first whole, rfl⟩
    · rw [List.length_take]
      omega
    · rw [← List.append_assoc, List.take_append_drop]
    · rw [List.length_drop]
      omega
  · rintro ⟨front, middle, ⟨front_length, rfl⟩, back, after, ⟨back_length, rfl⟩, rfl, rfl⟩
    refine ⟨?_, List.append_assoc _ _ _⟩
    rw [List.length_append, front_length, back_length]

end Codec
