import Mathlib.Data.List.Flatten

/-! A function folded over the blocks of a stream, and what is left of the last block. -/

namespace Blocks

universe u v

variable {β : Type u} {σ : Type v}

def cut (size : Nat) : Nat → List β → List (List β)
  | 0, _ => []
  | count + 1, message => message.take size :: cut size count (message.drop size)

/-- The full blocks of a message. -/
def blocksOf (size : Nat) (message : List β) : List (List β) :=
  cut size (message.length / size) message

variable (size : Nat) (f : σ → List β → σ) (start : σ)

/-- The state after the full blocks of the message; the rest is shorter than a block. -/
def Streamed (message : List β) (state : σ) (rest : List β) : Prop :=
  ∃ blocks : List (List β), (∀ block ∈ blocks, block.length = size) ∧
    message = blocks.flatten ++ rest ∧ rest.length < size ∧ state = blocks.foldl f start

theorem streamed_nil (positive : 0 < size) : Streamed size f start [] start [] :=
  ⟨[], by simp, rfl, positive, rfl⟩

variable {size f start} {message rest : List β} {state : σ}

theorem streamed_grow (streamed : Streamed size f start message state rest) (more : List β)
    (short : rest.length + more.length < size) :
    Streamed size f start (message ++ more) state (rest ++ more) := by
  obtain ⟨blocks, sizes, split, -, folded⟩ := streamed
  refine ⟨blocks, sizes, by rw [split, List.append_assoc], ?_, folded⟩
  rw [List.length_append]
  exact short

theorem streamed_block (streamed : Streamed size f start message state rest) (more : List β)
    (full : rest.length + more.length = size) :
    Streamed size f start (message ++ more) (f state (rest ++ more)) [] := by
  obtain ⟨blocks, sizes, split, short, folded⟩ := streamed
  refine ⟨blocks ++ [rest ++ more], ?_, by simp [split], ?_, by simp [folded]⟩
  · intro block member
    rcases List.mem_append.mp member with old | new
    · exact sizes block old
    · rw [List.mem_singleton.mp new, List.length_append, full]
  · rw [List.length_nil]
    omega

theorem length_blocks (blocks : List (List β)) (sizes : ∀ block ∈ blocks, block.length = size) :
    blocks.flatten.length = size * blocks.length := by
  induction blocks with
  | nil => rfl
  | cons block blocks ih =>
      rw [List.flatten_cons, List.length_append, sizes block List.mem_cons_self,
        ih fun other member => sizes other (List.mem_cons_of_mem _ member), List.length_cons,
        Nat.mul_succ, Nat.add_comm]

theorem streamed_rest (streamed : Streamed size f start message state rest) :
    rest.length = message.length % size := by
  obtain ⟨blocks, sizes, split, short, -⟩ := streamed
  rw [split, List.length_append, length_blocks blocks sizes, Nat.mul_add_mod, Nat.mod_eq_of_lt short]

theorem cut_blocks (blocks : List (List β)) (rest : List β)
    (sizes : ∀ block ∈ blocks, block.length = size) :
    cut size blocks.length (blocks.flatten ++ rest) = blocks := by
  induction blocks with
  | nil => rfl
  | cons block blocks ih =>
      have first := sizes block List.mem_cons_self
      rw [List.length_cons, cut, List.flatten_cons, List.append_assoc, List.take_left' first,
        List.drop_left' first, ih fun other member => sizes other (List.mem_cons_of_mem _ member)]

/-- The state is that of the blocks cut off one after the other. -/
theorem streamed_folds (streamed : Streamed size f start message state rest) :
    state = (blocksOf size message).foldl f start := by
  obtain ⟨blocks, sizes, split, short, folded⟩ := streamed
  have count : message.length / size = blocks.length := by
    rw [split, List.length_append, length_blocks blocks sizes, Nat.mul_add_div (by omega),
      Nat.div_eq_of_lt short, Nat.add_zero]
  rw [blocksOf, count, split, cut_blocks blocks rest sizes, folded]

end Blocks
