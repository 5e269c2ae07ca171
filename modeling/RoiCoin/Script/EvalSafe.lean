import RoiCoin.Script.StackSizes
import RoiCoin.Script.VectorSteps

/-! `EvalScript` on vectors goes the same way as the evaluation on lists: it stays inside its stacks
and its script, and the bounds of the one are those of the other. -/

namespace RoiCoin

open Checked Simulation

namespace Vectors

/-! ## The relation -/

/-- The failure of the one evaluation that the other reports: the exception of a number is what the
catch-all catches. -/
inductive SameFault : EvalFault → ScriptFailure → Prop
  | serror (serror : ScriptError) : SameFault (.serror serror) (.serror serror)
  | scriptnumError : SameFault .scriptnumError (.serror .unknownError)

def SameStack (stack l : List Bytes) : Prop := stack = vector l

structure SameState (script : CScript) (s : EvalState) (t : RoiCoin.EvalState) : Prop where
  stack : s.stack = vector t.stack
  altstack : s.altstack = vector t.altstack
  vfExec : s.vfExec = t.vfExec.reverse
  pbegincodehash : script.drop s.pbegincodehash = t.pbegincodehash
  inside : s.pbegincodehash ≤ script.length
  nOpCount : s.nOpCount = t.nOpCount

theorem checkSize_enough (serror : ScriptError) (l : List Bytes) (size : Nat)
    (enough : size ≤ l.length) : checkSize serror (vector l) size = .ok () := by
  rw [checkSize_vector, require_of _ _ (Nat.not_lt.mpr enough)]

/-- The hash functions as they fill their buffers. -/
def sized (crypto : Crypto) : Crypto where
  ripemd160 data := hashBuffer (hashSize .ripemd160) (crypto.ripemd160 data)
  sha1 data := hashBuffer (hashSize .sha1) (crypto.sha1 data)
  sha256 data := hashBuffer (hashSize .sha256) (crypto.sha256 data)
  hash160 data := hashBuffer (hashSize .hash160) (crypto.hash160 data)
  hash256 data := hashBuffer (hashSize .hash256) (crypto.hash256 data)
  verify := crypto.verify

theorem hashBuffer_length (size : Nat) (digest : Bytes) :
    (hashBuffer size digest).length = size := by
  simp [hashBuffer]

theorem sized_digests (crypto : Crypto) : (sized crypto).Digests :=
  ⟨fun _ => hashBuffer_length _ _, fun _ => hashBuffer_length _ _, fun _ => hashBuffer_length _ _,
    fun _ => hashBuffer_length _ _, fun _ => hashBuffer_length _ _⟩

section Operations

variable (crypto : Crypto) (checker : BaseSignatureChecker) (flags : BitVec 32)

theorem scriptNumOf_same (vch : Bytes) (nMaxNumSize : Nat) :
    Matches SameFault Eq (scriptNumOf flags vch nMaxNumSize) (evalNum flags vch nMaxNumSize) := by
  rw [scriptNumOf, evalNum]
  cases scriptNum vch (hasFlag flags scriptVerifyMinimaldata) nMaxNumSize with
  | ok n => exact rfl
  | error fault => exact .scriptnumError

theorem checking_same (x : Evaluating Unit) (avoids : Avoids .assertion x) :
    Matches SameFault (fun _ _ => True) (checking x) x := by
  cases x with
  | ok done => trivial
  | error failure =>
      cases failure with
      | serror serror => exact .serror serror
      | assertion => exact absurd rfl avoids

theorem checkSignatureEncoding_avoids (vchSig : Bytes) :
    Avoids .assertion (checkSignatureEncoding vchSig flags) := by
  rw [checkSignatureEncoding]
  split
  · exact avoids_ok _ _
  · apply avoids_bind _ _ _ (avoids_require _ _ _ (by decide))
    intro _ _
    apply avoids_bind
    · rw [checkLowS]
      split
      · rw [isLowDERSignature]
        apply avoids_bind _ _ _ (avoids_require _ _ _ (by decide))
        intro _ _
        exact avoids_require _ _ _ (by decide)
      · exact avoids_ok _ _
    · intro _ _
      exact avoids_require _ _ _ (by decide)

theorem checkPubKeyEncoding_avoids (vchPubKey : Bytes) :
    Avoids .assertion (checkPubKeyEncoding vchPubKey flags) :=
  avoids_require _ _ _ (by decide)

theorem castToBool_boolVch (fValue : Bool) : castToBool (boolVch fValue) = fValue := by
  cases fValue <;> rfl

theorem pushResult_same (thenVerify : Bool) (serror : ScriptError) (fSuccess : Bool)
    (l : List Bytes) (vch : Bytes) (same : castToBool vch = fSuccess) :
    Matches SameFault SameStack (pushResult thenVerify serror fSuccess (vector l) vch)
      (RoiCoin.pushResult thenVerify serror vch l) := by
  subst same
  cases thenVerify with
  | false => exact pushBack_vector l vch
  | true =>
      cases truth : castToBool vch with
      | true =>
          simp only [pushResult, RoiCoin.pushResult, truth, require, if_true, pushBack_vector,
            popstack_vector]
          exact rfl
      | false =>
          simp only [pushResult, RoiCoin.pushResult, truth, require, bind, Except.bind]
          exact .serror serror

/-! ## Operations -/

variable (script : CScript) (s : EvalState) (t : RoiCoin.EvalState)

/-- A new stack in related states. -/
theorem SameState.moved {script : CScript} {s : EvalState} {t : RoiCoin.EvalState}
    (same : SameState script s t) (v l : List Bytes) (turned : SameStack v l) :
    SameState script { s with stack := v } { t with stack := l } :=
  ⟨turned, same.altstack, same.vfExec, same.pbegincodehash, same.inside, same.nOpCount⟩

theorem onStack_same (same : SameState script s t) (result : Running (List Bytes))
    (result' : Evaluating (List Bytes)) (related : Matches SameFault SameStack result result') :
    Matches SameFault (SameState script) (onStack s result)
      (result' >>= fun stack => pure { t with stack }) :=
  matches_bind SameFault SameStack (SameState script) _ _ _ _ related fun v l => same.moved v l

theorem equal_same (same : SameState script s t) (thenVerify : Bool) :
    Matches SameFault (SameState script) (onStack s (equal thenVerify s.stack))
      (evalEqual thenVerify t) := by
  rw [evalEqual, same.stack]
  rcases t.stack with _ | ⟨x2, _ | ⟨x1, l⟩⟩
  · exact .serror _
  · exact .serror _
  · rw [equal, checkSize_enough _ (x2 :: x1 :: l) 2 (by simp)]
    simp only [stacktop_next, stacktop_top, popstack_vector, RoiCoin.popstack, Nat.zero_add,
      ok_then]
    apply onStack_same script s t same
    exact pushResult_same thenVerify .equalverify _ l _ (castToBool_boolVch _)

theorem unary_same (same : SameState script s t) (op : UnaryOp) :
    Matches SameFault (SameState script) (onStack s (unary flags op s.stack))
      (evalUnary flags op t) := by
  rw [evalUnary, same.stack]
  rcases t.stack with _ | ⟨x, l⟩
  · exact .serror _
  · rw [unary, checkSize_enough _ (x :: l) 1 (by simp), onStack]
    simp only [stacktop_top, popstack_vector, RoiCoin.popstack, pushBack_vector, ok_then,
      bind_assoc, pure_bind]
    apply matches_bind SameFault Eq _ _ _ _ _ (scriptNumOf_same flags x 4)
    intro bn _ read
    subst read
    exact same.moved _ _ rfl

theorem binary_same (same : SameState script s t) (op : BinaryOp) (thenVerify : Bool) :
    Matches SameFault (SameState script) (onStack s (binary flags op thenVerify s.stack))
      (evalBinary flags op thenVerify t) := by
  rw [evalBinary, same.stack]
  rcases t.stack with _ | ⟨x2, _ | ⟨x1, l⟩⟩
  · exact .serror _
  · exact .serror _
  · rw [binary, checkSize_enough _ (x2 :: x1 :: l) 2 (by simp), onStack]
    simp only [stacktop_next, stacktop_top, popstack_vector, RoiCoin.popstack, pushBack_vector,
      Nat.zero_add, ok_then, bind_assoc]
    apply matches_bind SameFault Eq _ _ _ _ _ (scriptNumOf_same flags x1 4)
    intro bn1 _ read1
    subst read1
    apply matches_bind SameFault Eq _ _ _ _ _ (scriptNumOf_same flags x2 4)
    intro bn2 _ read2
    subst read2
    apply onStack_same script s t same
    have pushed := pushResult_same thenVerify .numequalverify _ l
      (scriptNumSerialize (op.run bn1 bn2)) rfl
    rw [pushResult, pushBack_vector, popstack_vector] at pushed
    exact pushed

theorem stackOp_same (same : SameState script s t) (op : StackOp) :
    Matches SameFault (SameState script) (onStack s (stackOp s.stack op)) (evalStackOp op t) := by
  rw [same.stack, stackOp_vector, evalStackOp]
  cases op.run t.stack with
  | none => exact .serror _
  | some l => exact same.moved _ _ rfl

theorem within_same (same : SameState script s t) :
    Matches SameFault (SameState script) (onStack s (within flags s.stack))
      (evalWithin flags t) := by
  rw [evalWithin, same.stack]
  rcases t.stack with _ | ⟨x3, _ | ⟨x2, _ | ⟨x1, l⟩⟩⟩
  · exact .serror _
  · exact .serror _
  · exact .serror _
  · rw [within, checkSize_enough _ (x3 :: x2 :: x1 :: l) 3 (by simp), onStack]
    simp only [stacktop_next, stacktop_top, popstack_vector, RoiCoin.popstack, pushBack_vector,
      Nat.zero_add, Nat.reduceAdd, ok_then, bind_assoc]
    apply matches_bind SameFault Eq _ _ _ _ _ (scriptNumOf_same flags x1 4)
    intro bn1 _ read1
    subst read1
    apply matches_bind SameFault Eq _ _ _ _ _ (scriptNumOf_same flags x2 4)
    intro bn2 _ read2
    subst read2
    apply matches_bind SameFault Eq _ _ _ _ _ (scriptNumOf_same flags x3 4)
    intro bn3 _ read3
    subst read3
    exact same.moved _ _ rfl

theorem pick_same (same : SameState script s t) (roll : Bool) :
    Matches SameFault (SameState script) (onStack s (pick flags roll s.stack))
      (evalPick flags roll t) := by
  rw [evalPick, same.stack]
  rcases t.stack with _ | ⟨x, _ | ⟨y, l⟩⟩
  · exact .serror _
  · exact .serror _
  · rw [pick, checkSize_enough _ (x :: y :: l) 2 (by simp), onStack, require_of _ _ (by simp)]
    simp only [stacktop_top, popstack_vector, RoiCoin.popstack, ok_then, bind_assoc,
      vector_length]
    apply matches_bind SameFault Eq _ _ _ _ _
      (matches_map SameFault Eq Eq _ _ _ _ (scriptNumOf_same flags x 4) fun _ _ => congrArg getint)
    intro n _ read
    subst read
    apply matches_bind SameFault _ _ _ _ _ _ (matches_require SameFault _ _ _ _ Iff.rfl (.serror _))
    intro _ _ inside
    have within : n.toNat < (y :: l).length := by omega
    have member : (y :: l).getD n.toNat [] = (y :: l)[n.toNat] := by
      rw [List.getD_eq_getElem?_getD, List.getElem?_eq_getElem within, Option.getD_some]
    rw [stacktop_at (y :: l) n.toNat within, member]
    cases roll with
    | false =>
        simp only [ok_then, pushBack_vector]
        exact same.moved _ _ rfl
    | true =>
        rw [eraseTop_vector (y :: l) (n.toNat + 1) n.toNat (by omega) within,
          ← List.eraseIdx_eq_take_drop_succ]
        simp only [ok_then, pushBack_vector]
        exact same.moved _ _ rfl

theorem hash_same (same : SameState script s t) (op : HashOp) :
    Matches SameFault (SameState script) (onStack s (hash crypto op s.stack))
      (evalHash (sized crypto) op t) := by
  rw [evalHash, same.stack]
  rcases t.stack with _ | ⟨x, l⟩
  · exact .serror _
  · rw [hash, checkSize_enough _ (x :: l) 1 (by simp), onStack]
    simp only [stacktop_top, popstack_vector, RoiCoin.popstack, pushBack_vector, ok_then]
    cases op <;> exact same.moved _ _ rfl

theorem checksig_same (same : SameState script s t) (thenVerify : Bool) :
    Matches SameFault (SameState script)
      (onStack s (checksig checker flags thenVerify script s.pbegincodehash s.stack))
      (evalChecksig checker flags thenVerify t) := by
  rw [evalChecksig, same.stack]
  rcases t.stack with _ | ⟨x2, _ | ⟨x1, l⟩⟩
  · exact .serror _
  · exact .serror _
  · rw [checksig, checkSize_enough _ (x2 :: x1 :: l) 2 (by simp), onStack, scriptFrom,
      if_pos same.inside, same.pbegincodehash]
    simp only [stacktop_next, stacktop_top, popstack_vector, RoiCoin.popstack, Nat.zero_add,
      ok_then, bind_assoc]
    apply matches_bind SameFault _ _ _ _ _ _
      (checking_same _ (checkSignatureEncoding_avoids flags x1))
    intro _ _ _
    apply matches_bind SameFault _ _ _ _ _ _
      (checking_same _ (checkPubKeyEncoding_avoids flags x2))
    intro _ _ _
    apply onStack_same script s t same
    exact pushResult_same thenVerify .checksigverify _ l _ (castToBool_boolVch _)

theorem checklocktimeverify_same (same : SameState script s t) :
    Matches SameFault (SameState script) (checklocktimeverify checker flags s)
      (evalChecklocktimeverify checker flags t) := by
  rw [checklocktimeverify, evalChecklocktimeverify]
  by_cases enabled : hasFlag flags scriptVerifyChecklocktimeverify = true
  · rw [if_neg (not_not.mpr enabled), if_pos enabled, same.stack]
    rcases t.stack with _ | ⟨x, l⟩
    · exact .serror _
    · rw [checkSize_enough _ (x :: l) 1 (by simp)]
      simp only [stacktop_top, RoiCoin.popstack, ok_then]
      apply matches_bind SameFault Eq _ _ _ _ _ (scriptNumOf_same flags x 5)
      intro nLockTime _ read
      subst read
      apply matches_bind SameFault _ _ _ _ _ _
        (matches_require SameFault _ _ _ _ Iff.rfl (.serror _))
      intro _ _ _
      apply matches_bind SameFault _ _ _ _ _ _
        (matches_require SameFault _ _ _ _ Iff.rfl (.serror _))
      intro _ _ _
      exact same
  · rw [if_pos enabled, if_neg enabled]
    apply matches_bind SameFault _ _ _ _ _ _
      (matches_require SameFault _ _ _ _ Iff.rfl (.serror _))
    intro _ _ _
    exact same

theorem ifOp_same (same : SameState script s t) (fExec negated : Bool) :
    Matches SameFault (SameState script) (ifOp fExec negated s) (evalIf fExec negated t) := by
  obtain ⟨stack, altstack, vfExec, pbegincodehash, inside, nOpCount⟩ := same
  cases fExec with
  | false =>
      exact ⟨stack, altstack, by simp [vfExec], pbegincodehash, inside, nOpCount⟩
  | true =>
      rw [ifOp, evalIf, if_pos rfl, if_pos rfl, stack]
      rcases t.stack with _ | ⟨x, l⟩
      · exact .serror _
      · rw [checkSize_enough _ (x :: l) 1 (by simp)]
        simp only [stacktop_top, popstack_vector, RoiCoin.popstack, ok_then]
        refine ⟨rfl, altstack, ?_, pbegincodehash, inside, nOpCount⟩
        cases negated <;> simp [vfExec]

theorem elseOp_same (same : SameState script s t) :
    Matches SameFault (SameState script) (elseOp s) (evalElse t) := by
  obtain ⟨stack, altstack, vfExec, pbegincodehash, inside, nOpCount⟩ := same
  rw [elseOp, evalElse, vfExec]
  cases t.vfExec with
  | nil => exact .serror _
  | cons fValue rest =>
      rw [List.getLast?_reverse]
      exact ⟨stack, altstack, by simp, pbegincodehash, inside, nOpCount⟩

theorem endif_same (same : SameState script s t) :
    Matches SameFault (SameState script) (endif s) (evalEndif t) := by
  obtain ⟨stack, altstack, vfExec, pbegincodehash, inside, nOpCount⟩ := same
  rw [endif, evalEndif, vfExec]
  cases t.vfExec with
  | nil => exact .serror _
  | cons fValue rest =>
      rw [if_neg (by simp)]
      exact ⟨stack, altstack, by simp, pbegincodehash, inside, nOpCount⟩

theorem verify_same (same : SameState script s t) :
    Matches SameFault (SameState script) (verify s) (evalVerify t) := by
  rw [verify, evalVerify, same.stack]
  rcases t.stack with _ | ⟨x, l⟩
  · exact .serror _
  · rw [checkSize_enough _ (x :: l) 1 (by simp)]
    simp only [stacktop_top, popstack_vector, RoiCoin.popstack, ok_then]
    by_cases truth : castToBool x = true
    · rw [if_pos truth, require_of _ _ truth]
      exact same.moved _ _ rfl
    · rw [if_neg truth, require, if_neg truth]
      exact .serror _

theorem toaltstack_same (same : SameState script s t) :
    Matches SameFault (SameState script) (toaltstack s) (evalToaltstack t) := by
  obtain ⟨stack, altstack, vfExec, pbegincodehash, inside, nOpCount⟩ := same
  rw [toaltstack, evalToaltstack, stack, altstack]
  rcases t.stack with _ | ⟨x, l⟩
  · exact .serror _
  · rw [checkSize_enough _ (x :: l) 1 (by simp)]
    simp only [stacktop_top, popstack_vector, RoiCoin.popstack, pushBack_vector, ok_then]
    exact ⟨rfl, rfl, vfExec, pbegincodehash, inside, nOpCount⟩

theorem fromaltstack_same (same : SameState script s t) :
    Matches SameFault (SameState script) (fromaltstack s) (evalFromaltstack t) := by
  obtain ⟨stack, altstack, vfExec, pbegincodehash, inside, nOpCount⟩ := same
  rw [fromaltstack, evalFromaltstack, stack, altstack]
  rcases t.altstack with _ | ⟨x, l⟩
  · exact .serror _
  · rw [checkSize_enough _ (x :: l) 1 (by simp)]
    simp only [stacktop_top, popstack_vector, RoiCoin.popstack, pushBack_vector, ok_then]
    exact ⟨rfl, rfl, vfExec, pbegincodehash, inside, nOpCount⟩

/-! ## Several signatures -/

theorem popMany_vector (n : Nat) (l : List Bytes) (enough : n ≤ l.length) :
    popMany n (vector l) = .ok (vector (l.drop n)) := by
  induction n generalizing l with
  | zero => rfl
  | succ n ih =>
      cases l with
      | nil => cases enough
      | cons x l =>
          rw [popMany, popstack_vector]
          exact ih l (Nat.le_of_succ_le_succ enough)

theorem deleteSignatures_vector (l : List Bytes) (n k : Nat) (scriptCode : CScript)
    (enough : k + n ≤ l.length) :
    deleteSignatures (vector l) n (k + 1) scriptCode =
      .ok (((l.drop k).take n).foldl (fun scriptCode vchSig =>
        (findAndDelete scriptCode (pushData vchSig)).2) scriptCode) := by
  induction n generalizing k scriptCode with
  | zero => rfl
  | succ n ih =>
      rw [deleteSignatures, stacktop_at l k (by omega), ok_then, ih (k + 1) _ (by omega),
        List.drop_eq_getElem_cons (by omega : k < l.length), List.take_succ_cons, List.foldl_cons]

/-- The next signature is at `k` and the next key at `j` from the top. -/
theorem multisigLoop_same (scriptCode : CScript) (l : List Bytes) (nKeys nSigs k j : Nat)
    (few : nSigs ≤ nKeys) (sigs : k + nSigs ≤ l.length) (keys : j + nKeys ≤ l.length) :
    Matches SameFault Eq
      (multisigLoop checker flags scriptCode (vector l) nKeys nSigs (k + 1) (j + 1))
      (RoiCoin.multisigLoop checker flags scriptCode ((l.drop k).take nSigs)
        ((l.drop j).take nKeys)) := by
  induction nKeys generalizing nSigs k j with
  | zero =>
      obtain rfl : nSigs = 0 := by omega
      simp [multisigLoop, RoiCoin.multisigLoop]
  | succ nKeys ih =>
      cases nSigs with
      | zero => simp [multisigLoop, RoiCoin.multisigLoop]
      | succ nSigs =>
          have sigsLeft : ((l.drop (k + 1)).take nSigs).length = nSigs := by
            rw [List.length_take, List.length_drop]
            omega
          have keysLeft : ((l.drop (j + 1)).take nKeys).length = nKeys := by
            rw [List.length_take, List.length_drop]
            omega
          have again : (l.drop k).take (nSigs + 1) = l[k] :: (l.drop (k + 1)).take nSigs := by
            rw [List.drop_eq_getElem_cons (by omega : k < l.length), List.take_succ_cons]
          have next : (l.drop j).take (nKeys + 1) = l[j] :: (l.drop (j + 1)).take nKeys := by
            rw [List.drop_eq_getElem_cons (by omega : j < l.length), List.take_succ_cons]
          rw [multisigLoop, stacktop_at l k (by omega), stacktop_at l j (by omega), again, next,
            RoiCoin.multisigLoop, sigsLeft, keysLeft, ← again, ok_then, ok_then]
          apply matches_bind SameFault _ _ _ _ _ _
            (checking_same _ (checkSignatureEncoding_avoids flags _))
          intro _ _ _
          apply matches_bind SameFault _ _ _ _ _ _
            (checking_same _ (checkPubKeyEncoding_avoids flags _))
          intro _ _ _
          apply matches_ite SameFault Eq _ _ _ _ _ _ Iff.rfl
          · intro _
            apply matches_ite SameFault Eq _ _ _ _ _ _ Iff.rfl
            · intro _
              exact rfl
            · intro left
              exact ih nSigs (k + 1) (j + 1) (by omega) (by omega) (by omega)
          · intro _
            apply matches_ite SameFault Eq _ _ _ _ _ _ Iff.rfl
            · intro _
              exact rfl
            · intro left
              exact ih (nSigs + 1) k (j + 1) (by omega) (by omega) (by omega)

/-- A stack with enough elements has one below its first `n`. -/
theorem drop_cases (n : Nat) (l : List Bytes) (enough : n < l.length) :
    l.drop n = l[n] :: l.drop (n + 1) := List.drop_eq_getElem_cons enough

theorem checkmultisig_same (same : SameState script s t) (thenVerify : Bool) :
    Matches SameFault (SameState script)
      (do
        let (stack, nOpCount) ←
          checkmultisig checker flags thenVerify script s.pbegincodehash s.nOpCount s.stack
        return { s with stack, nOpCount })
      (evalCheckmultisig checker flags thenVerify t) := by
  rw [evalCheckmultisig, same.stack, same.nOpCount]
  rcases t.stack with _ | ⟨x, l⟩
  · exact .serror _
  · rw [checkmultisig, checkSize_enough _ (x :: l) 1 (by simp)]
    simp only [stacktop_top, RoiCoin.popstack, ok_then, bind_assoc]
    apply matches_bind SameFault Eq _ _ _ _ _
      (matches_map SameFault Eq Eq _ _ _ _ (scriptNumOf_same flags x 4) fun _ _ => congrArg getint)
    intro nKeys _ read
    subst read
    apply matches_bind SameFault _ _ _ _ _ _ (matches_require SameFault _ _ _ _ Iff.rfl (.serror _))
    intro _ _ keysRange
    apply matches_bind SameFault _ _ _ _ _ _ (matches_require SameFault _ _ _ _ Iff.rfl (.serror _))
    intro _ _ _
    by_cases keysFit : nKeys.toNat < l.length
    · rw [checkSize_enough _ (x :: l) (2 + nKeys.toNat) (by rw [List.length_cons]; omega),
        drop_cases _ l keysFit, Nat.add_comm 2, stacktop_next, stacktop_at l _ keysFit]
      simp only [ok_then]
      apply matches_bind SameFault Eq _ _ _ _ _
        (matches_map SameFault Eq Eq _ _ _ _ (scriptNumOf_same flags _ 4)
          fun _ _ => congrArg getint)
      intro nSigs _ read
      subst read
      apply matches_bind SameFault _ _ _ _ _ _
        (matches_require SameFault _ _ _ _ Iff.rfl (.serror _))
      intro _ _ sigsRange
      by_cases sigsFit : nKeys.toNat + 1 + nSigs.toNat < l.length
      · have dummy := drop_cases _ l sigsFit
        have gone : (x :: l).drop (nKeys.toNat + 2 + 1 + nSigs.toNat - 1) =
            l[nKeys.toNat + 1 + nSigs.toNat] :: l.drop (nKeys.toNat + 1 + nSigs.toNat + 1) := by
          have count : nKeys.toNat + 2 + 1 + nSigs.toNat - 1 =
              nKeys.toNat + 1 + nSigs.toNat + 1 := by omega
          rw [count, List.drop_succ_cons, dummy]
        have long : nKeys.toNat + 2 + 1 + nSigs.toNat ≤ (x :: l).length := by
          rw [List.length_cons]
          omega
        rw [checkSize_enough _ (x :: l) _ long, scriptFrom, if_pos same.inside,
          same.pbegincodehash, List.drop_drop, dummy]
        simp only [ok_then]
        rw [deleteSignatures_vector (x :: l) _ (nKeys.toNat + 2) _ (by omega), ok_then,
          List.drop_succ_cons]
        have loop := multisigLoop_same checker flags
          (((l.drop (nKeys.toNat + 1)).take nSigs.toNat).foldl (fun scriptCode vchSig =>
            (findAndDelete scriptCode (pushData vchSig)).2) t.pbegincodehash)
          (x :: l) nKeys.toNat nSigs.toNat (nKeys.toNat + 2) 1 (by omega) (by omega) (by
            rw [List.length_cons]
            omega)
        rw [List.drop_succ_cons, List.drop_succ_cons, List.drop_zero] at loop
        apply matches_bind SameFault Eq _ _ _ _ _ loop
        intro fSuccess _ looped
        subst looped
        rw [popMany_vector _ (x :: l) (by omega), gone, ok_then,
          checkSize_enough _ (_ :: _) 1 (Nat.le_add_left 1 _), ok_then, stacktop_top, ok_then]
        apply matches_bind SameFault _ _ _ _ _ _
          (matches_require SameFault _ _ _ _ (imp_congr Iff.rfl List.length_eq_zero_iff)
            (.serror _))
        intro _ _ _
        rw [popstack_vector, ok_then]
        apply matches_bind SameFault SameStack _ _ _ _ _
          (pushResult_same thenVerify .checkmultisigverify _ _ _ (castToBool_boolVch _))
        intro v rest turned
        exact ⟨turned, same.altstack, same.vfExec, same.pbegincodehash, same.inside, rfl⟩
      · have none : (l.drop (nKeys.toNat + 1)).drop nSigs.toNat = [] := by
          rw [List.drop_drop]
          exact List.drop_eq_nil_of_le (by omega)
        have short : ¬ ¬ (x :: l).length < nKeys.toNat + 2 + 1 + nSigs.toNat := by
          rw [List.length_cons]
          omega
        rw [checkSize_vector, require, if_neg short, none]
        exact .serror _
    · have none : l.drop nKeys.toNat = [] := List.drop_eq_nil_of_le (by omega)
      have short : ¬ ¬ (x :: l).length < 2 + nKeys.toNat := by
        rw [List.length_cons]
        omega
      rw [checkSize_vector, require, if_neg short, none]
      exact .serror _

/-! ## Runs -/

theorem operation_same (same : SameState script s t) (pc : Nat) (inside : pc ≤ script.length)
    (fExec : Bool) (op : Operation) :
    Matches SameFault (SameState script) (operation crypto checker flags script pc fExec s op)
      (evalOperation (sized crypto) checker flags (script.drop pc) fExec t op) := by
  cases op with
  | pushNumber n =>
      rw [operation, same.stack, pushBack_vector]
      exact same.moved _ _ rfl
  | nop => exact same
  | checklocktimeverify => exact checklocktimeverify_same checker flags script s t same
  | upgradableNop =>
      apply matches_bind SameFault _ _ _ _ _ _
        (matches_require SameFault _ _ _ _ Iff.rfl (.serror _))
      intro _ _ _
      exact same
  | ifOp negated => exact ifOp_same script s t same fExec negated
  | elseOp => exact elseOp_same script s t same
  | endif => exact endif_same script s t same
  | verify => exact verify_same script s t same
  | returnOp => exact .serror _
  | toaltstack => exact toaltstack_same script s t same
  | fromaltstack => exact fromaltstack_same script s t same
  | stackOp op => exact stackOp_same script s t same op
  | pick roll => exact pick_same flags script s t same roll
  | equal thenVerify => exact equal_same script s t same thenVerify
  | unary op => exact unary_same flags script s t same op
  | binary op thenVerify => exact binary_same flags script s t same op thenVerify
  | within => exact within_same flags script s t same
  | hash op => exact hash_same crypto script s t same op
  | codeseparator =>
      exact ⟨same.stack, same.altstack, same.vfExec, rfl, inside, same.nOpCount⟩
  | checksig thenVerify => exact checksig_same checker flags script s t same thenVerify
  | checkmultisig thenVerify => exact checkmultisig_same checker flags script s t same thenVerify
  | badOpcode => exact .serror _

theorem instruction_same (same : SameState script s t) (pc : Nat) (read : OpAt) (op : ScriptOp)
    (parsed : SameOp script pc read op) :
    Matches SameFault (SameState script) (instruction crypto checker flags script read s)
      (evalInstruction (sized crypto) checker flags op t) := by
  have executes : (!s.vfExec.contains false) = t.vfExec.all id := by
    rw [same.vfExec, Bool.eq_iff_iff]
    simp
  rw [instruction, evalInstruction, executes, parsed.opcode, parsed.vch, ← parsed.rest]
  apply matches_ite SameFault _ _ _ _ _ _ _ Iff.rfl
  · intro _
    apply matches_bind SameFault _ _ _ _ _ _
      (matches_require SameFault _ _ _ _ Iff.rfl (.serror _))
    intro _ _ _
    rw [same.stack, pushBack_vector]
    exact same.moved _ _ rfl
  · intro _
    apply matches_ite SameFault _ _ _ _ _ _ _ Iff.rfl
    · intro _
      exact operation_same crypto checker flags script s t same read.pc parsed.inside _ _
    · intro _
      exact same

theorem evalStep_same (same : SameState script s t) (pc : Nat) (read : OpAt) (op : ScriptOp)
    (parsed : SameOp script pc read op) :
    Matches SameFault (SameState script) (evalStep crypto checker flags script read s)
      (RoiCoin.evalStep (sized crypto) checker flags op t) := by
  have counted : SameState script
      { s with nOpCount := if read.opcode > op16 then s.nOpCount + 1 else s.nOpCount }
      { t with nOpCount := if op.opcode > op16 then t.nOpCount + 1 else t.nOpCount } :=
    ⟨same.stack, same.altstack, same.vfExec, same.pbegincodehash, same.inside, by
      rw [parsed.opcode, same.nOpCount]⟩
  rw [evalStep, RoiCoin.evalStep]
  apply matches_bind SameFault _ _ _ _ _ _
    (matches_require SameFault _ _ _ _ (by rw [parsed.vch]) (.serror _))
  intro _ _ _
  apply matches_bind SameFault _ _ _ _ _ _
    (matches_require SameFault _ _ _ _ (by rw [parsed.opcode, same.nOpCount]) (.serror _))
  intro _ _ _
  apply matches_bind SameFault _ _ _ _ _ _
    (matches_require SameFault _ _ _ _ (by rw [parsed.opcode]) (.serror _))
  intro _ _ _
  apply matches_bind SameFault (SameState script) _ _ _ _ _
    (instruction_same crypto checker flags script _ _ counted pc read op parsed)
  intro s' t' same'
  apply matches_bind SameFault _ _ _ _ _ _
    (matches_require SameFault _ _ _ _
      (by rw [same'.stack, same'.altstack, vector_length, vector_length]) (.serror _))
  intro _ _ _
  exact same'

/-- Every turn moves the position on, so the bytes left bound the turns left. -/
theorem evalLoop_same (same : SameState script s t) (turns pc : Nat) (inside : pc ≤ script.length)
    (enough : script.length - pc ≤ turns) :
    Matches SameFault (SameState script) (evalLoop crypto checker flags script turns pc s)
      (RoiCoin.evalLoop (sized crypto) checker flags turns (script.drop pc) t) := by
  induction turns generalizing pc s t with
  | zero =>
      have ended : ¬ pc < script.length := by omega
      rw [evalLoop, if_pos ended]
      exact same
  | succ turns ih =>
      rw [evalLoop, RoiCoin.evalLoop]
      by_cases ended : pc < script.length
      · have more : script.drop pc ≠ [] := by
          rw [ne_eq, List.drop_eq_nil_iff]
          omega
        obtain ⟨read, found, alike⟩ := getOp_read script pc ended
        rw [if_neg (not_not.mpr ended), if_neg more]
        rw [found, ok_then]
        cases parsed : RoiCoin.getOp (script.drop pc) with
        | none =>
            rw [parsed] at alike
            cases read with
            | none => exact .serror _
            | some read => exact alike.elim
        | some op =>
            rw [parsed] at alike
            cases read with
            | none => exact alike.elim
            | some read =>
                have after := alike.after
                apply matches_bind SameFault (SameState script) _ _ _ _ _
                  (evalStep_same crypto checker flags script s t same pc read op alike)
                intro s' t' same'
                rw [← alike.rest]
                exact ih s' t' same' read.pc alike.inside (by omega)
      · have nothing : script.drop pc = [] := List.drop_eq_nil_of_le (by omega)
        rw [if_pos ended, if_pos nothing]
        exact same

/-- The evaluation on lists with all of its last state. -/
def finalState (stack : List Bytes) : Evaluating RoiCoin.EvalState := do
  require (¬ script.length > 10000) (.serror .scriptSize)
  let st ← RoiCoin.evalLoop crypto checker flags script.length script ⟨stack, [], [], script, 0⟩
  require (st.vfExec = []) (.serror .unbalancedConditional)
  return st

theorem evalScript_finalState (stack : List Bytes) :
    RoiCoin.evalScript crypto checker flags stack script =
      RoiCoin.EvalState.stack <$> finalState crypto checker flags script stack := by
  simp only [RoiCoin.evalScript, finalState, map_bind, map_pure]

theorem evalScript_same (stack : List Bytes) :
    Matches SameFault (SameState script) (evalScript crypto checker flags (vector stack) script)
      (finalState (sized crypto) checker flags script stack) := by
  have start : SameState script ⟨vector stack, [], [], 0, 0⟩ ⟨stack, [], [], script, 0⟩ :=
    ⟨rfl, rfl, rfl, rfl, Nat.zero_le _, rfl⟩
  apply matches_bind SameFault _ _ _ _ _ _
    (matches_require SameFault _ _ _ _ Iff.rfl (.serror _))
  intro _ _ _
  apply matches_bind SameFault (SameState script) _ _ _ _ _
    (evalLoop_same crypto checker flags script _ _ start script.length 0 (Nat.zero_le _)
      (Nat.sub_le _ _))
  intro s t same
  apply matches_bind SameFault _ _ _ _ _ _
    (matches_require SameFault _ _ _ _ (by rw [same.vfExec, List.reverse_eq_nil_iff]) (.serror _))
  intro _ _ _
  exact same

/-- `EvalScript` refines the evaluation on lists: the same stack, or the same `serror` with the
exception of a number as `SCRIPT_ERR_UNKNOWN_ERROR`. -/
theorem evalScript_refines (stack : List Bytes) :
    Matches SameFault SameStack
      (EvalState.stack <$> evalScript crypto checker flags (vector stack) script)
      (RoiCoin.evalScript (sized crypto) checker flags stack script) := by
  rw [evalScript_finalState]
  exact matches_map SameFault (SameState script) SameStack _ _ _ _
    (evalScript_same crypto checker flags script stack) fun _ _ same => same.stack

/-- No access is out of range, the loop ends, only the exception of a number is caught, and what is
left when the result is `true` is bounded. -/
theorem eval_script_safe (stack : List Bytes) (few : stack.length ≤ 1000)
    (small : ∀ vch ∈ stack, vch.length ≤ maxScriptElementSize) :
    (∀ fault, evalScript crypto checker flags stack script = .error fault →
      fault = .scriptnumError ∨ ∃ serror, fault = .serror serror) ∧
    ∀ st, evalScript crypto checker flags stack script = .ok st →
      st.stack.length + st.altstack.length ≤ 1000 ∧
        ∀ vch ∈ st.stack ++ st.altstack, vch.length ≤ maxScriptElementSize := by
  have turned : stack = vector stack.reverse := (List.reverse_reverse stack).symm
  have related := evalScript_same crypto checker flags script stack.reverse
  rw [← turned] at related
  constructor
  · intro fault failed
    obtain ⟨_, _, same⟩ := matches_fails SameFault _ _ _ _ related failed
    cases same with
    | serror serror => exact .inr ⟨serror, rfl⟩
    | scriptnumError => exact .inl rfl
  · intro st returned
    obtain ⟨t, finished, same⟩ := matches_returns SameFault _ _ _ _ related returned
    simp only [finalState, bind_ok, pure_ok] at finished
    obtain ⟨_, -, t, run, _, -, rfl⟩ := finished
    have bounded := evalLoop_bounded (sized crypto) checker flags (sized_digests crypto) _ _ _ _
      ⟨fun vch member => small vch (List.mem_reverse.mp member),
        fun _ member => absurd member List.not_mem_nil, by simpa using few⟩ run
    rw [same.stack, same.altstack, vector_length, vector_length]
    refine ⟨bounded.count, fun vch member => ?_⟩
    rw [List.mem_append, mem_vector, mem_vector] at member
    exact member.elim (bounded.stack vch) (bounded.altstack vch)

/-- `OP_PICK` with the index 1, then `OP_TOALTSTACK`. -/
theorem eval_script_safe_pick :
    evalScript ⟨id, id, id, id, id, fun _ _ _ => true⟩ ⟨fun _ _ _ => false, fun _ => false⟩ 0
        [[5], [6], [1]] [0x79, 0x6b] = .ok ⟨[[5], [6]], [[5]], [], 0, 2⟩ ∧
      ∀ vch ∈ ([[5], [6], [5]] : List Bytes), vch.length ≤ maxScriptElementSize := by
  have run : evalScript ⟨id, id, id, id, id, fun _ _ _ => true⟩
      ⟨fun _ _ _ => false, fun _ => false⟩ 0 [[5], [6], [1]] [0x79, 0x6b] =
        .ok ⟨[[5], [6]], [[5]], [], 0, 2⟩ := by
    decide +kernel
  exact ⟨run, ((eval_script_safe _ _ _ _ _ (by decide) (by decide)).2 _ run).2⟩

end Operations

end Vectors

end RoiCoin
