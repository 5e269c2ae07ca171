import RoiCoin.Script.EvalScript
import RoiCoin.Script.StackSizes
import RoiCoin.Lib.Simulation

/-! The evaluation on vectors and indices goes the same way as the evaluation on lists. -/

namespace RoiCoin

open Checked Simulation

namespace Vectors

/-! ## Stacks -/

/-- The vector of a stack that has its top first. -/
def vector (l : List Bytes) : List Bytes := l.reverse

theorem vector_length (l : List Bytes) : (vector l).length = l.length := List.length_reverse

theorem mem_vector (l : List Bytes) (vch : Bytes) : vch ∈ vector l ↔ vch ∈ l := List.mem_reverse

@[simp] theorem checkSize_vector (serror : ScriptError) (l : List Bytes) (size : Nat) :
    checkSize serror (vector l) size = require (¬ l.length < size) (.serror serror) := by
  rw [checkSize, vector_length]

@[simp] theorem stacktop_top (x : Bytes) (l : List Bytes) :
    stacktop (vector (x :: l)) 1 = .ok x := by
  have inside : 1 ≤ 1 ∧ 1 ≤ (vector (x :: l)).length := by simp [vector_length]
  rw [stacktop, if_pos inside]
  simp [vector, List.getD]

@[simp] theorem stacktop_next (x : Bytes) (l : List Bytes) (i : Nat) :
    stacktop (vector (x :: l)) (i + 2) = stacktop (vector l) (i + 1) := by
  simp only [stacktop, vector_length, List.length_cons]
  by_cases inside : i + 1 ≤ l.length
  · have before : l.length - (i + 1) < l.reverse.length := by
      rw [List.length_reverse]
      omega
    have place : l.length + 1 - (i + 2) = l.length - (i + 1) := by omega
    rw [if_pos (by omega), if_pos (by omega), place, vector, vector, List.reverse_cons,
      List.getD_eq_getElem?_getD, List.getD_eq_getElem?_getD, List.getElem?_append_left before]
  · rw [if_neg (by omega), if_neg (by omega)]

theorem stacktop_at (l : List Bytes) (i : Nat) (inside : i < l.length) :
    stacktop (vector l) (i + 1) = .ok l[i] := by
  induction i generalizing l with
  | zero =>
      cases l with
      | nil => cases inside
      | cons x l => exact stacktop_top x l
  | succ i ih =>
      cases l with
      | nil => cases inside
      | cons x l => exact (stacktop_next x l i).trans (ih l (Nat.lt_of_succ_lt_succ inside))

@[simp] theorem popstack_vector (x : Bytes) (l : List Bytes) :
    popstack (vector (x :: l)) = .ok (vector l) := by
  simp [popstack, vector]

@[simp] theorem pushBack_vector (l : List Bytes) (x : Bytes) :
    pushBack (vector l) x = vector (x :: l) := List.reverse_cons.symm

theorem set_vector (l : List Bytes) (i : Nat) (vch : Bytes) (inside : i < l.length) :
    (vector l).set ((vector l).length - (i + 1)) vch = vector (l.set i vch) := by
  apply List.ext_getElem
  · simp [vector]
  · intro j left right
    simp only [vector, List.length_set, List.length_reverse] at left right
    simp only [vector, List.getElem_set, List.getElem_reverse, List.length_set,
      List.length_reverse]
    by_cases here : l.length - (i + 1) = j
    · rw [if_pos here, if_pos (by omega)]
    · rw [if_neg here, if_neg (by omega)]

theorem swapTop_vector (l : List Bytes) (i j : Nat) (first : i < l.length)
    (second : j < l.length) :
    swapTop (vector l) (i + 1) (j + 1) = .ok (vector ((l.set i l[j]).set j l[i])) := by
  have turned := set_vector (l.set i l[j]) j l[i] (by rwa [List.length_set])
  rw [← set_vector l i _ first, List.length_set] at turned
  rw [swapTop, stacktop_at l i first, stacktop_at l j second, ← turned]
  simp only [bind, Except.bind, pure, Except.pure]

theorem eraseTop_vector (l : List Bytes) (first last : Nat) (order : last ≤ first)
    (inside : first ≤ l.length) :
    eraseTop (vector l) first last = .ok (vector (l.take last ++ l.drop first)) := by
  have below : l.length - (l.length - first) = first := by omega
  have above : l.length - (l.length - last) = last := by omega
  rw [eraseTop, if_pos ⟨order, by rwa [vector_length]⟩]
  simp [vector, List.take_reverse, List.drop_reverse, below, above]

theorem insertTop_vector (l : List Bytes) (position : Nat) (vch : Bytes)
    (inside : position ≤ l.length) :
    insertTop (vector l) position vch =
      .ok (vector (l.take position ++ vch :: l.drop position)) := by
  have same : l.length - (l.length - position) = position := by omega
  rw [insertTop, if_pos (by rwa [vector_length])]
  simp [vector, List.take_reverse, List.drop_reverse, same]

theorem stackOp_vector (op : StackOp) (l : List Bytes) :
    stackOp (vector l) op =
      match op.run l with
      | none => .error (.serror .invalidStackOperation)
      | some l' => .ok (vector l') := by
  cases op with
  | twoDrop =>
      rcases l with _ | ⟨x2, _ | ⟨x1, l⟩⟩ <;>
        simp [stackOp, StackOp.run, require, bind, Except.bind]
  | twoDup =>
      rcases l with _ | ⟨x2, _ | ⟨x1, l⟩⟩ <;>
        simp [stackOp, StackOp.run, require, bind, Except.bind, pure, Except.pure]
  | threeDup =>
      rcases l with _ | ⟨x3, _ | ⟨x2, _ | ⟨x1, l⟩⟩⟩ <;>
        simp [stackOp, StackOp.run, require, bind, Except.bind, pure, Except.pure]
  | twoOver =>
      rcases l with _ | ⟨x4, _ | ⟨x3, _ | ⟨x2, _ | ⟨x1, l⟩⟩⟩⟩ <;>
        simp [stackOp, StackOp.run, require, bind, Except.bind, pure, Except.pure]
  | twoRot =>
      rcases l with _ | ⟨x6, _ | ⟨x5, _ | ⟨x4, _ | ⟨x3, _ | ⟨x2, _ | ⟨x1, l⟩⟩⟩⟩⟩⟩ <;>
        simp [stackOp, StackOp.run, eraseTop_vector, require, bind, Except.bind, pure, Except.pure]
  | twoSwap =>
      rcases l with _ | ⟨x4, _ | ⟨x3, _ | ⟨x2, _ | ⟨x1, l⟩⟩⟩⟩ <;>
        simp [stackOp, StackOp.run, swapTop_vector, require, bind, Except.bind]
  | ifdup =>
      cases l with
      | nil => simp [stackOp, StackOp.run, require, bind, Except.bind]
      | cons x l =>
          by_cases truth : castToBool x = true <;>
            simp [stackOp, StackOp.run, truth, require, bind, Except.bind, pure, Except.pure]
  | depth => simp [stackOp, StackOp.run, vector_length]
  | drop => cases l <;> simp [stackOp, StackOp.run, require, bind, Except.bind]
  | dup => cases l <;> simp [stackOp, StackOp.run, require, bind, Except.bind, pure, Except.pure]
  | nip =>
      rcases l with _ | ⟨x2, _ | ⟨x1, l⟩⟩ <;>
        simp [stackOp, StackOp.run, eraseTop_vector, require, bind, Except.bind]
  | rot =>
      rcases l with _ | ⟨x3, _ | ⟨x2, _ | ⟨x1, l⟩⟩⟩ <;>
        simp [stackOp, StackOp.run, swapTop_vector, require, bind, Except.bind]
  | swap =>
      rcases l with _ | ⟨x2, _ | ⟨x1, l⟩⟩ <;>
        simp [stackOp, StackOp.run, swapTop_vector, require, bind, Except.bind]
  | tuck =>
      rcases l with _ | ⟨x2, _ | ⟨x1, l⟩⟩ <;>
        simp [stackOp, StackOp.run, insertTop_vector, require, bind, Except.bind]
  | size => cases l <;> simp [stackOp, StackOp.run, require, bind, Except.bind, pure, Except.pure]
  -- `OP_OVER`
  | _ =>
      rcases l with _ | ⟨x2, _ | ⟨x1, l⟩⟩ <;>
        simp [stackOp, StackOp.run, require, bind, Except.bind, pure, Except.pure]

/-! ## Reading the script -/

theorem lengthField_eq (script : CScript) (pc width : Nat) (inside : pc ≤ script.length) :
    lengthField script pc width =
      .ok (if (script.drop pc).length < width then none
        else some (readLE ((script.drop pc).take width), pc + width)) := by
  rw [lengthField, List.length_drop]
  by_cases short : script.length - pc < width
  · rw [if_pos short, if_pos short]
  · rw [if_neg short, if_neg short, bytesOf, if_pos (by omega)]
    rfl

theorem pushSize_long (script : CScript) (opcode : UInt8) (pc : Nat) (inside : pc ≤ script.length)
    (long : ¬ opcode < opPushdata1) :
    pushSize script opcode pc =
      .ok (if (script.drop pc).length < lengthWidth opcode then none
        else some (readLE ((script.drop pc).take (lengthWidth opcode)),
          pc + lengthWidth opcode)) := by
  rw [pushSize, if_neg long, lengthWidth]
  by_cases one : opcode = opPushdata1
  · simp only [if_pos one, lengthField_eq script pc _ inside]
  · by_cases two : opcode = opPushdata2
    · simp only [if_neg one, if_pos two, lengthField_eq script pc _ inside]
    · simp only [if_neg one, if_neg two, lengthField_eq script pc _ inside]

/-- The operation of a script at a position, as an operation of the bytes from there on. -/
structure SameOp (script : CScript) (pc : Nat) (read : OpAt) (op : ScriptOp) : Prop where
  opcode : read.opcode = op.opcode
  vch : read.vch = op.vch
  rest : script.drop read.pc = op.rest
  after : pc < read.pc
  inside : read.pc ≤ script.length

/-- Nothing is read, or the same operation. -/
def SameRead (script : CScript) (pc : Nat) : Option OpAt → Option ScriptOp → Prop
  | none, none => True
  | some read, some op => SameOp script pc read op
  | _, _ => False

/-- The data of a push that starts at `start`. -/
theorem sameRead_push (script : CScript) (opcode : UInt8) (pc start nSize : Nat)
    (after : pc < start) (inside : start ≤ script.length) :
    ∃ read, (if script.length < start ∨ script.length - start < nSize then
        (return none : Running (Option OpAt))
      else do
        let vch ← bytesOf script start nSize
        return some ⟨opcode, vch, start + nSize⟩) = .ok read ∧
      SameRead script pc read (takePush opcode nSize (script.drop start)) := by
  rw [takePush, List.length_drop]
  by_cases short : script.length - start < nSize
  · refine ⟨none, ?_, ?_⟩
    · rw [if_pos (.inr short)]
      rfl
    · rw [if_pos short]
      trivial
  · have within : ¬ (script.length < start ∨ script.length - start < nSize) := by omega
    refine ⟨some ⟨opcode, (script.drop start).take nSize, start + nSize⟩, ?_, ?_⟩
    · rw [if_neg within, bytesOf, if_pos (by omega)]
      rfl
    · rw [if_neg short]
      exact ⟨rfl, rfl, (List.drop_drop ..).symm, by dsimp only; omega, by dsimp only; omega⟩

theorem getOp_read (script : CScript) (pc : Nat) (inside : pc < script.length) :
    ∃ read, getOp script pc = .ok read ∧
      SameRead script pc read (RoiCoin.getOp (script.drop pc)) := by
  have here : byteOf script pc = .ok script[pc] := by
    rw [byteOf, List.getElem?_eq_getElem inside]
  rw [List.drop_eq_getElem_cons inside, getOp, if_neg (by omega), if_neg (by omega), here]
  simp only [bind, Except.bind]
  by_cases push : script[pc] ≤ opPushdata4
  · rw [if_pos push]
    by_cases direct : script[pc] < opPushdata1
    · rw [getOp_direct _ _ direct, pushSize, if_pos direct]
      exact sameRead_push script script[pc] pc (pc + 1) _ (by omega) inside
    · rw [pushSize_long script _ (pc + 1) inside direct, RoiCoin.getOp, if_pos push,
        if_neg direct]
      by_cases short : (script.drop (pc + 1)).length < lengthWidth script[pc]
      · rw [if_pos short, if_pos short]
        exact ⟨none, rfl, trivial⟩
      · rw [if_neg short, if_neg short, List.drop_drop]
        rw [List.length_drop] at short
        exact sameRead_push script script[pc] pc (pc + 1 + lengthWidth script[pc]) _ (by omega)
          (by omega)
  · rw [if_neg push, getOp_plain _ _ (UInt8.not_le.mp push)]
    exact ⟨_, rfl, rfl, rfl, rfl, Nat.lt_succ_self pc, inside⟩

end Vectors

end RoiCoin
