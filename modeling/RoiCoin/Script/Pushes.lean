import RoiCoin.Serialize
import RoiCoin.Script.Interpreter

/-! Scripts that push data: how they parse and evaluate, and the numbers that are pushed. -/

namespace RoiCoin

open Checked

/-! ## Parsing -/

/-- The opcode `operator<<` chooses for data of this length. -/
def pushOpcode (b : Bytes) : UInt8 :=
  if b.length < 76 then UInt8.ofNat b.length
  else if b.length ≤ 0xff then opPushdata1
  else if b.length ≤ 0xffff then opPushdata2
  else opPushdata4

theorem pushOpcode_le (b : Bytes) : pushOpcode b ≤ opPushdata4 := by
  rw [pushOpcode]
  split
  · rename_i direct
    rw [UInt8.le_iff_toNat_le, UInt8.toNat_ofNat_of_lt' (Nat.lt_trans direct (by decide))]
    exact Nat.le_of_lt_succ (Nat.lt_trans direct (by decide))
  · split
    · decide
    · split <;> decide

/-- A push that is followed by its length in so many bytes. -/
theorem getOp_counted (opcode : UInt8) (b rest : CScript) (push : opcode ≤ opPushdata4)
    (long : ¬ opcode < opPushdata1) (fits : b.length < 256 ^ lengthWidth opcode) :
    getOp (opcode :: (writeLE (lengthWidth opcode) b.length ++ (b ++ rest))) =
      some ⟨opcode, b, rest⟩ := by
  have width : (writeLE (lengthWidth opcode) b.length).length = lengthWidth opcode :=
    writeLE_length _ _
  rw [getOp_length opcode _ push long (by rw [List.length_append, width]; exact Nat.le_add_right _ _),
    List.take_left' width, List.drop_left' width, readLE_writeLE, Nat.mod_eq_of_lt fits,
    takePush_some]
  refine ⟨by rw [List.length_append]; exact Nat.le_add_right _ _, ?_⟩
  rw [List.take_left' rfl, List.drop_left' rfl]

theorem getOp_pushData (b rest : CScript) (fits : b.length < 2 ^ 32) :
    getOp (pushData b ++ rest) = some ⟨pushOpcode b, b, rest⟩ := by
  rw [pushData, pushOpcode]
  split
  · rename_i direct
    have value : (UInt8.ofNat b.length).toNat = b.length :=
      UInt8.toNat_ofNat_of_lt' (Nat.lt_trans direct (by decide))
    have small : UInt8.ofNat b.length < opPushdata1 := by
      rw [UInt8.lt_iff_toNat_lt, value]
      exact direct
    rw [List.cons_append, getOp_direct _ _ small, value, takePush_some]
    refine ⟨by rw [List.length_append]; exact Nat.le_add_right _ _, ?_⟩
    rw [List.take_left' rfl, List.drop_left' rfl]
  · split
    · rename_i short
      have one : writeLE 1 b.length = [UInt8.ofNat b.length] := by
        have small : b.length % 256 = b.length := Nat.mod_eq_of_lt (Nat.lt_succ_of_le short)
        simp [writeLE, Words.words, small]
      have counted := getOp_counted opPushdata1 b rest (by decide) (by decide)
        (Nat.lt_succ_of_le short)
      have width : lengthWidth opPushdata1 = 1 := by decide
      rw [width, one] at counted
      exact counted
    · split
      · rename_i short
        have counted := getOp_counted opPushdata2 b rest (by decide) (by decide)
          (Nat.lt_succ_of_le short)
        rw [List.cons_append, List.append_assoc]
        exact counted
      · have counted := getOp_counted opPushdata4 b rest (by decide) (by decide) fits
        rw [List.cons_append, List.append_assoc]
        exact counted

theorem pushData_length (b : Bytes) :
    b.length < (pushData b).length ∧ (pushData b).length ≤ b.length + 5 := by
  rw [pushData]
  split
  · simp only [List.length_cons]
    omega
  · split
    · simp only [List.length_cons]
      omega
    · split <;> simp only [List.length_cons, List.length_append, writeLE_length] <;> omega

/-! ## Evaluation -/

theorem push_plain (k : UInt8) (push : k ≤ opPushdata4) :
    ¬ k > op16 ∧ k ∉ disabledOpcodes := by
  have low : k.toNat ≤ 78 := UInt8.le_iff_toNat_le.mp push
  constructor
  · rw [gt_iff_lt, UInt8.lt_iff_toNat_lt]
    have word : op16.toNat = 96 := rfl
    omega
  · intro member
    have high : 79 ≤ k.toNat := by
      revert member
      simp only [disabledOpcodes, List.mem_cons, List.not_mem_nil, or_false]
      rintro (rfl | rfl | rfl | rfl | rfl | rfl | rfl | rfl | rfl | rfl | rfl | rfl | rfl | rfl |
        rfl) <;> decide
    omega

theorem popstack_ok (serror : ScriptError) (stack rest : List Bytes) (vch : Bytes) :
    popstack serror stack = .ok (vch, rest) ↔ stack = vch :: rest := by
  cases stack with
  | nil => simp [popstack]
  | cons top below => simp [popstack]

/-- Data of more than one byte is pushed minimally. -/
theorem minimal_push (b : Bytes) (two : 2 ≤ b.length) :
    checkMinimalPush b (pushOpcode b) = true := by
  match b, two with
  | first :: second :: rest, _ =>
      rw [checkMinimalPush, pushOpcode]
      generalize (first :: second :: rest).length = size
      by_cases direct : size < 76
      · have value : (UInt8.ofNat size).toNat = size :=
          UInt8.toNat_ofNat_of_lt' (Nat.lt_trans direct (by decide))
        rw [if_pos direct, if_pos (by omega), value, beq_self_eq_true]
      · rw [if_neg direct, if_neg (by omega)]
        split
        · rfl
        · split <;> rfl

section Evaluation

variable (crypto : Crypto) (checker : BaseSignatureChecker) (flags : BitVec 32)

/-- Outside conditionals a push that is short enough goes on the stack. -/
theorem evalStep_pushes (k : UInt8) (b rest : CScript) (st : EvalState) (push : k ≤ opPushdata4)
    (short : b.length ≤ maxScriptElementSize) (taken : st.vfExec = [])
    (minimal : hasFlag flags scriptVerifyMinimaldata = true → checkMinimalPush b k = true)
    (room : st.stack.length + st.altstack.length < 1000) :
    evalStep crypto checker flags ⟨k, b, rest⟩ st = .ok { st with stack := b :: st.stack } := by
  obtain ⟨low, enabled⟩ := push_plain k push
  have size : ¬ b.length > maxScriptElementSize := by omega
  have fits : ¬ (b :: st.stack).length + st.altstack.length > 1000 := by
    rw [List.length_cons]
    omega
  obtain ⟨stack, altstack, vfExec, pbegincodehash, nOpCount⟩ := st
  cases taken
  simp only [evalStep, evalInstruction, List.all_nil, push, if_neg low, true_and, if_true, bind_ok,
    require_ok, pure_ok]
  exact ⟨(), size, (), fun high => absurd high low, (), enabled, _, ⟨(), minimal, rfl⟩, (), fits, rfl⟩

/-- Outside conditionals an operation is the case of the switch between two limits. -/
theorem evalStep_operation (k : UInt8) (rest : CScript) (st st' : EvalState)
    (plain : opPushdata4 < k) (taken : st.vfExec = []) :
    evalStep crypto checker flags ⟨k, [], rest⟩ st = .ok st' ↔
      (k > op16 → st.nOpCount < 201) ∧ k ∉ disabledOpcodes ∧
        evalOperation crypto checker flags rest true
          { st with nOpCount := if k > op16 then st.nOpCount + 1 else st.nOpCount }
          (operationOf k) = .ok st' ∧ st'.stack.length + st'.altstack.length ≤ 1000 := by
  obtain ⟨stack, altstack, vfExec, pbegincodehash, nOpCount⟩ := st
  cases taken
  have high : ¬ k ≤ opPushdata4 := by rwa [UInt8.not_le]
  have limit : (k > op16 → ¬ (if k > op16 then nOpCount + 1 else nOpCount) > 201) ↔
      (k > op16 → nOpCount < 201) := by
    constructor
    · intro counted large
      have count := counted large
      rw [if_pos large] at count
      omega
    · intro counted large
      have count := counted large
      rw [if_pos large]
      omega
  simp only [evalStep, evalInstruction, List.all_nil, high, and_false, if_false, true_or, if_true,
    bind_ok, require_ok, pure_ok, List.length_nil]
  constructor
  · rintro ⟨_, -, _, counted, _, enabled, middle, done, _, room, rfl⟩
    exact ⟨limit.mp counted, enabled, done, by omega⟩
  · rintro ⟨counted, enabled, done, room⟩
    exact ⟨(), by omega, (), limit.mpr counted, (), enabled, st', done, (), by omega, rfl⟩

theorem evalLoop_next (fuel : Nat) (pc : CScript) (op : ScriptOp) (st st' : EvalState)
    (parsed : getOp pc = some op) (done : evalStep crypto checker flags op st = .ok st') :
    evalLoop crypto checker flags (fuel + 1) pc st = evalLoop crypto checker flags fuel op.rest st' := by
  have some_bytes : pc ≠ [] := by
    rintro rfl
    cases parsed
  rw [evalLoop, if_neg some_bytes, parsed]
  simp only [done]
  rfl

end Evaluation

/-! ## Numbers -/

theorem readLE_digits (n : Nat) : readLE ((Nat.digits 256 n).map UInt8.ofNat) = n := by
  rw [readLE, List.map_map]
  have same : (Nat.digits 256 n).map (UInt8.toNat ∘ UInt8.ofNat) = Nat.digits 256 n := by
    refine (List.map_congr_left fun digit member => ?_).trans (List.map_id _)
    exact UInt8.toNat_ofNat_of_lt' (Nat.digits_lt_base (by decide) member)
  rw [same, Nat.ofDigits_digits]

theorem readLE_append_zero (bytes : Bytes) : readLE (bytes ++ [0]) = readLE bytes := by
  rw [readLE, readLE, List.map_append, Nat.ofDigits_append]
  simp

/-- A number that is not negative is read back. -/
theorem setVch_serialize (n : Nat) : setVch (scriptNumSerialize n) = n := by
  rw [scriptNumSerialize]
  have value := readLE_digits n
  simp only [Int.natAbs_natCast]
  revert value
  generalize (Nat.digits 256 n).map UInt8.ofNat = result
  intro value
  have nonneg : ¬ (n : Int) < 0 := by omega
  cases last : result.getLast? with
  | none =>
      rw [List.getLast?_eq_none_iff] at last
      subst last
      rw [← value]
      rfl
  | some back =>
      simp only [if_neg nonneg]
      by_cases top : (back &&& 0x80 != 0) = true
      · rw [if_pos top, setVch, List.getLast?_concat]
        have plain : ¬ ((0 : UInt8) &&& 0x80 != 0) = true := by decide
        simp only [if_neg plain, readLE_append_zero, value]
      · rw [if_neg top, setVch, last]
        simp only [if_neg top, value]

theorem serialize_length (n : Int) (digits : Nat) (small : n.natAbs < 256 ^ digits) :
    (scriptNumSerialize n).length ≤ digits + 1 := by
  have count : (Nat.digits 256 n.natAbs).length ≤ digits :=
    (Nat.digits_length_le_iff (by decide) _).mpr small
  rw [scriptNumSerialize]
  have length : ((Nat.digits 256 n.natAbs).map UInt8.ofNat).length ≤ digits := by
    rwa [List.length_map]
  revert length
  generalize (Nat.digits 256 n.natAbs).map UInt8.ofNat = result
  intro length
  cases last : result.getLast? with
  | none => exact Nat.zero_le _
  | some back =>
      simp only
      split
      · rw [List.length_append, List.length_singleton]
        omega
      · split
        · rw [List.length_append, List.length_dropLast, List.length_singleton]
          omega
        · omega

end RoiCoin
