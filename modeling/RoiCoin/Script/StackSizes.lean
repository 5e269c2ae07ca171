import RoiCoin.Script.Pushes

/-! No element of a stack is longer than what can be pushed. -/

namespace RoiCoin

open Checked

/-- The digests are as long as the hash functions make them. -/
structure Crypto.Digests (crypto : Crypto) : Prop where
  ripemd160 : ∀ data, (crypto.ripemd160 data).length = 20
  sha1 : ∀ data, (crypto.sha1 data).length = 20
  sha256 : ∀ data, (crypto.sha256 data).length = 32
  hash160 : ∀ data, (crypto.hash160 data).length = 20
  hash256 : ∀ data, (crypto.hash256 data).length = 32

def SmallElements (stack : List Bytes) : Prop := ∀ vch ∈ stack, vch.length ≤ maxScriptElementSize

theorem smallElements_cons (vch : Bytes) (stack : List Bytes) :
    SmallElements (vch :: stack) ↔ vch.length ≤ maxScriptElementSize ∧ SmallElements stack :=
  List.forall_mem_cons

theorem serialize_small (n : Int) (small : n.natAbs < 256 ^ 5) :
    (scriptNumSerialize n).length ≤ maxScriptElementSize :=
  Nat.le_trans (serialize_length n 5 small) (by decide)

theorem boolVch_small (fValue : Bool) : (boolVch fValue).length ≤ maxScriptElementSize := by
  cases fValue <;> decide

theorem setVch_bound (vch : Bytes) (short : vch.length ≤ 4) : (setVch vch).natAbs < 256 ^ 4 := by
  have value := readLE_lt vch
  have power : 256 ^ vch.length ≤ 256 ^ 4 := Nat.pow_le_pow_right (by decide) short
  rw [setVch]
  split
  · decide
  · split
    · have shifted : (2 : Int) ^ (8 * (vch.length - 1)) ≤ 2 ^ 24 :=
        pow_le_pow_right₀ (by decide) (by omega)
      have positive : (0 : Int) < 2 ^ (8 * (vch.length - 1)) := Int.pow_pos (by decide)
      omega
    · omega

theorem evalNum_bound (flags : BitVec 32) (vch : Bytes) (n : Int)
    (read : evalNum flags vch 4 = .ok n) : n.natAbs < 256 ^ 4 := by
  rw [evalNum, scriptNum] at read
  by_cases long : vch.length > 4
  · rw [if_pos long] at read
    cases read
  · rw [if_neg long] at read
    split at read
    · rename_i found
      split at found
      · cases found
      · cases found
        cases read
        exact setVch_bound vch (by omega)
    · cases read

theorem boolNum_bound (fValue : Bool) : (boolNum fValue).natAbs < 256 ^ 5 := by
  cases fValue <;> decide

theorem unary_bound (op : UnaryOp) (bn : Int) (small : bn.natAbs < 256 ^ 4) :
    (op.run bn).natAbs < 256 ^ 5 := by
  cases op with
  | not => exact boolNum_bound _
  | zeroNotEqual => exact boolNum_bound _
  | abs =>
      rw [UnaryOp.run]
      split <;> omega
  | add1 => simp only [UnaryOp.run]; omega
  | sub1 => simp only [UnaryOp.run]; omega
  | negate => simp only [UnaryOp.run]; omega

theorem binary_bound (op : BinaryOp) (bn1 bn2 : Int) (first : bn1.natAbs < 256 ^ 4)
    (second : bn2.natAbs < 256 ^ 4) : (op.run bn1 bn2).natAbs < 256 ^ 5 := by
  cases op with
  | add => simp only [BinaryOp.run]; omega
  | sub => simp only [BinaryOp.run]; omega
  | min =>
      rw [BinaryOp.run]
      split <;> omega
  | max =>
      rw [BinaryOp.run]
      split <;> omega
  | _ => exact boolNum_bound _

theorem stackOp_small (op : StackOp) (stack result : List Bytes) (small : SmallElements stack)
    (count : stack.length ≤ 1000) (run : op.run stack = some result) : SmallElements result := by
  have depth : (scriptNumSerialize stack.length).length ≤ maxScriptElementSize :=
    serialize_small _ (by omega)
  have size : ∀ vch : Bytes, vch.length ≤ maxScriptElementSize →
      (scriptNumSerialize vch.length).length ≤ maxScriptElementSize := by
    intro vch short
    have limit : maxScriptElementSize = 520 := rfl
    exact serialize_small _ (by omega)
  rw [StackOp.run.eq_def] at run
  split at run <;> cases run
  case h_7 x stack =>
    split
    · simp only [smallElements_cons] at small ⊢
      exact ⟨small.1, small⟩
    · exact small
  all_goals
    simp only [smallElements_cons] at small ⊢
    tauto

/-! ## The switch -/

section Switch

variable (crypto : Crypto) (checker : BaseSignatureChecker) (flags : BitVec 32)

theorem popstack_small (serror : ScriptError) (stack rest : List Bytes) (vch : Bytes)
    (small : SmallElements stack) (popped : popstack serror stack = .ok (vch, rest)) :
    vch.length ≤ maxScriptElementSize ∧ SmallElements rest := by
  cases stack with
  | nil => cases popped
  | cons top below =>
      cases popped
      exact (smallElements_cons _ _).mp small

theorem popstack_rest (serror : ScriptError) (stack rest : List Bytes) (vch : Bytes)
    (small : SmallElements stack) (popped : popstack serror stack = .ok (vch, rest)) :
    SmallElements rest := (popstack_small serror stack rest vch small popped).2

theorem popstack_twice (serror : ScriptError) (stack middle rest : List Bytes) (top next : Bytes)
    (small : SmallElements stack) (first : popstack serror stack = .ok (top, middle))
    (second : popstack serror middle = .ok (next, rest)) : SmallElements rest :=
  popstack_rest serror middle rest next (popstack_rest serror stack middle top small first) second

theorem drop_small (stack : List Bytes) (n : Nat) (small : SmallElements stack) :
    SmallElements (stack.drop n) := fun vch among => small vch (List.mem_of_mem_drop among)

theorem hashOp_short (digests : crypto.Digests) (op : HashOp) (vch : Bytes) :
    (op.run crypto vch).length ≤ maxScriptElementSize := by
  cases op with
  | ripemd160 => rw [HashOp.run, digests.ripemd160]; decide
  | sha1 => rw [HashOp.run, digests.sha1]; decide
  | sha256 => rw [HashOp.run, digests.sha256]; decide
  | hash160 => rw [HashOp.run, digests.hash160]; decide
  | hash256 => rw [HashOp.run, digests.hash256]; decide

theorem pushResult_small (thenVerify : Bool) (serror : ScriptError) (vch : Bytes)
    (stack result : List Bytes) (short : vch.length ≤ maxScriptElementSize)
    (small : SmallElements stack) (pushed : pushResult thenVerify serror vch stack = .ok result) :
    SmallElements result := by
  cases thenVerify with
  | true =>
      simp only [pushResult, if_true, bind_ok, pure_ok] at pushed
      obtain ⟨_, -, rfl⟩ := pushed
      exact small
  | false =>
      cases pushed
      exact (smallElements_cons _ _).mpr ⟨short, small⟩

/-- The elements of both stacks are small, and there are not too many of them. -/
structure Bounded (st : EvalState) : Prop where
  stack : SmallElements st.stack
  altstack : SmallElements st.altstack
  count : st.stack.length + st.altstack.length ≤ 1000

/-- The number an opcode pushes, where it is one that does. -/
def pushedNumber : Operation → Nat
  | .pushNumber n => n.natAbs
  | _ => 0

theorem pushedNumber_bound (opcode : UInt8) : pushedNumber (operationOf opcode) < 256 ^ 5 := by
  have small := opcode.toNat_lt
  unfold operationOf
  split
  · simp only [pushedNumber]
    omega
  · split
    · decide
    · split <;> decide

/-- What an operation does to the stacks, before they are counted again. -/
def KeepsSmall (st : EvalState) : Prop := SmallElements st.stack ∧ SmallElements st.altstack

theorem evalPick_small (roll : Bool) (st st' : EvalState) (kept : KeepsSmall st)
    (returned : evalPick flags roll st = .ok st') : KeepsSmall st' := by
  obtain ⟨small, below⟩ := kept
  simp only [evalPick, bind_ok, map_ok, pure_ok, Prod.exists] at returned
  obtain ⟨_, -, vchN, rest, popped, n, -, _, inside, rfl⟩ := returned
  have rest_small := popstack_rest _ _ _ _ small popped
  rw [require_ok] at inside
  have within : n.toNat < rest.length := by omega
  have member : rest.getD n.toNat [] ∈ rest := by
    rw [List.getD_eq_getElem?_getD, List.getElem?_eq_getElem within]
    exact List.getElem_mem within
  refine ⟨(smallElements_cons _ _).mpr ⟨rest_small _ member, ?_⟩, below⟩
  cases roll with
  | true => exact fun vch among => rest_small vch (List.mem_of_mem_eraseIdx among)
  | false => exact rest_small

theorem evalCheckmultisig_small (thenVerify : Bool) (st st' : EvalState) (kept : KeepsSmall st)
    (returned : evalCheckmultisig checker flags thenVerify st = .ok st') : KeepsSmall st' := by
  obtain ⟨small, below⟩ := kept
  simp only [evalCheckmultisig, bind_ok, map_ok, pure_ok, Prod.exists] at returned
  obtain ⟨_, afterCount, first, nKeys, -, _, -, _, -, _, afterKeys, second, nSigs, -, _, -, _,
    rest, third, fSuccess, -, _, -, _, pushed, rfl⟩ := returned
  have one := popstack_rest _ _ _ _ small first
  have two := popstack_rest _ _ _ _ (drop_small _ _ one) second
  have three := popstack_rest _ _ _ _ (drop_small _ _ two) third
  exact ⟨pushResult_small _ _ _ _ _ (boolVch_small _) three pushed, below⟩

/-- One operation, by its kind. -/
theorem evalOperation_small (digests : crypto.Digests) (pc : CScript) (fExec : Bool)
    (st st' : EvalState) (op : Operation) (number : pushedNumber op < 256 ^ 5)
    (bounded : Bounded st)
    (returned : evalOperation crypto checker flags pc fExec st op = .ok st') : KeepsSmall st' := by
  obtain ⟨small, below, count⟩ := bounded
  cases op with
  | nop =>
      cases returned
      exact ⟨small, below⟩
  | checklocktimeverify =>
      rw [evalOperation, evalChecklocktimeverify] at returned
      split at returned <;> simp only [bind_ok, pure_ok, Prod.exists] at returned
      · obtain ⟨_, _, -, _, -, _, -, _, -, rfl⟩ := returned
        exact ⟨small, below⟩
      · obtain ⟨_, -, rfl⟩ := returned
        exact ⟨small, below⟩
  | upgradableNop =>
      simp only [evalOperation, bind_ok, pure_ok] at returned
      obtain ⟨_, -, rfl⟩ := returned
      exact ⟨small, below⟩
  | ifOp negated =>
      rw [evalOperation, evalIf] at returned
      split at returned
      · simp only [bind_ok, pure_ok, Prod.exists] at returned
        obtain ⟨vch, rest, popped, rfl⟩ := returned
        exact ⟨popstack_rest _ _ _ _ small popped, below⟩
      · cases returned
        exact ⟨small, below⟩
  | elseOp =>
      rw [evalOperation, evalElse] at returned
      split at returned
      · cases returned
      · cases returned
        exact ⟨small, below⟩
  | endif =>
      rw [evalOperation, evalEndif] at returned
      split at returned
      · cases returned
      · cases returned
        exact ⟨small, below⟩
  | verify =>
      simp only [evalOperation, evalVerify, bind_ok, pure_ok, Prod.exists] at returned
      obtain ⟨vch, rest, popped, _, -, rfl⟩ := returned
      exact ⟨popstack_rest _ _ _ _ small popped, below⟩
  | returnOp => cases returned
  | toaltstack =>
      simp only [evalOperation, evalToaltstack, bind_ok, pure_ok, Prod.exists] at returned
      obtain ⟨vch, rest, popped, rfl⟩ := returned
      obtain ⟨short, rest_small⟩ := popstack_small _ _ _ _ small popped
      exact ⟨rest_small, (smallElements_cons _ _).mpr ⟨short, below⟩⟩
  | fromaltstack =>
      simp only [evalOperation, evalFromaltstack, bind_ok, pure_ok, Prod.exists] at returned
      obtain ⟨vch, rest, popped, rfl⟩ := returned
      obtain ⟨short, rest_small⟩ := popstack_small _ _ _ _ below popped
      exact ⟨(smallElements_cons _ _).mpr ⟨short, small⟩, rest_small⟩
  | stackOp op =>
      rw [evalOperation, evalStackOp] at returned
      split at returned
      · cases returned
      · rename_i stack run
        cases returned
        exact ⟨stackOp_small op _ _ small (by omega) run, below⟩
  | codeseparator =>
      cases returned
      exact ⟨small, below⟩
  | badOpcode => cases returned
  | pushNumber n =>
      cases returned
      exact ⟨(smallElements_cons _ _).mpr ⟨serialize_small n number, small⟩, below⟩
  | pick roll => exact evalPick_small flags roll st st' ⟨small, below⟩ returned
  | equal thenVerify =>
      simp only [evalOperation, evalEqual, bind_ok, pure_ok, Prod.exists] at returned
      obtain ⟨_, _, first, _, _, second, _, pushed, rfl⟩ := returned
      have two := popstack_twice _ _ _ _ _ _ small first second
      exact ⟨pushResult_small _ _ _ _ _ (boolVch_small _) two pushed, below⟩
  | unary op =>
      simp only [evalOperation, evalUnary, bind_ok, pure_ok, Prod.exists] at returned
      obtain ⟨_, _, first, bn, read, rfl⟩ := returned
      have short := serialize_small _ (unary_bound op bn (evalNum_bound flags _ bn read))
      exact ⟨(smallElements_cons _ _).mpr ⟨short, popstack_rest _ _ _ _ small first⟩, below⟩
  | binary op thenVerify =>
      simp only [evalOperation, evalBinary, bind_ok, pure_ok, Prod.exists] at returned
      obtain ⟨_, _, first, _, _, second, bn1, read1, bn2, read2, _, pushed, rfl⟩ := returned
      have two := popstack_twice _ _ _ _ _ _ small first second
      have short := serialize_small _ (binary_bound op bn1 bn2 (evalNum_bound flags _ bn1 read1)
        (evalNum_bound flags _ bn2 read2))
      exact ⟨pushResult_small _ _ _ _ _ short two pushed, below⟩
  | within =>
      simp only [evalOperation, evalWithin, bind_ok, pure_ok, Prod.exists] at returned
      obtain ⟨_, _, first, _, _, second, _, _, third, _, -, _, -, _, -, rfl⟩ := returned
      have two := popstack_twice _ _ _ _ _ _ small first second
      have three := popstack_rest _ _ _ _ two third
      exact ⟨(smallElements_cons _ _).mpr ⟨boolVch_small _, three⟩, below⟩
  | hash op =>
      simp only [evalOperation, evalHash, bind_ok, pure_ok, Prod.exists] at returned
      obtain ⟨vch, _, first, rfl⟩ := returned
      exact ⟨(smallElements_cons _ _).mpr ⟨hashOp_short crypto digests op vch,
        popstack_rest _ _ _ _ small first⟩, below⟩
  | checksig thenVerify =>
      simp only [evalOperation, evalChecksig, bind_ok, pure_ok, Prod.exists] at returned
      obtain ⟨_, _, first, _, _, second, _, -, _, -, _, pushed, rfl⟩ := returned
      have two := popstack_twice _ _ _ _ _ _ small first second
      exact ⟨pushResult_small _ _ _ _ _ (boolVch_small _) two pushed, below⟩
  | checkmultisig thenVerify =>
      exact evalCheckmultisig_small checker flags thenVerify st st' ⟨small, below⟩ returned

/-! ## Runs -/

theorem evalInstruction_small (digests : crypto.Digests) (op : ScriptOp) (st st' : EvalState)
    (short : op.vch.length ≤ maxScriptElementSize) (bounded : Bounded st)
    (returned : evalInstruction crypto checker flags op st = .ok st') : KeepsSmall st' := by
  rw [evalInstruction] at returned
  split at returned
  · simp only [bind_ok, pure_ok] at returned
    obtain ⟨_, -, rfl⟩ := returned
    exact ⟨(smallElements_cons _ _).mpr ⟨short, bounded.stack⟩, bounded.altstack⟩
  · split at returned
    · exact evalOperation_small crypto checker flags digests _ _ _ _ _
        (pushedNumber_bound op.opcode) bounded returned
    · cases returned
      exact ⟨bounded.stack, bounded.altstack⟩

theorem evalStep_bounded (digests : crypto.Digests) (op : ScriptOp) (st st' : EvalState)
    (bounded : Bounded st) (returned : evalStep crypto checker flags op st = .ok st') :
    Bounded st' := by
  simp only [evalStep, bind_ok, require_ok, pure_ok] at returned
  obtain ⟨_, short, _, -, _, -, middle, instruction, _, count, rfl⟩ := returned
  have kept : KeepsSmall middle := by
    refine evalInstruction_small crypto checker flags digests op _ middle (by omega) ?_ instruction
    exact ⟨bounded.stack, bounded.altstack, bounded.count⟩
  exact ⟨kept.1, kept.2, by omega⟩

theorem evalLoop_bounded (digests : crypto.Digests) (fuel : Nat) (pc : CScript)
    (st st' : EvalState) (bounded : Bounded st)
    (returned : evalLoop crypto checker flags fuel pc st = .ok st') : Bounded st' := by
  induction fuel generalizing pc st with
  | zero =>
      cases returned
      exact bounded
  | succ fuel ih =>
      rw [evalLoop] at returned
      split at returned
      · cases returned
        exact bounded
      · split at returned
        · cases returned
        · rename_i op parsed
          rw [bind_ok] at returned
          obtain ⟨middle, step, rest⟩ := returned
          exact ih op.rest middle
            (evalStep_bounded crypto checker flags digests op st middle bounded step) rest

/-- The elements that a script leaves on an empty stack are small. -/
theorem evalScript_small (digests : crypto.Digests) (script : CScript) (stack : List Bytes)
    (returned : evalScript crypto checker flags [] script = .ok stack) :
    SmallElements stack ∧ stack.length ≤ 1000 := by
  simp only [evalScript, bind_ok, pure_ok] at returned
  obtain ⟨_, -, st, run, _, -, rfl⟩ := returned
  have nothing : SmallElements [] := fun _ member => absurd member List.not_mem_nil
  have bounded := evalLoop_bounded crypto checker flags digests script.length script _ st
    ⟨nothing, nothing, Nat.zero_le _⟩ run
  have count := bounded.count
  exact ⟨bounded.stack, by omega⟩

end Switch

end RoiCoin
