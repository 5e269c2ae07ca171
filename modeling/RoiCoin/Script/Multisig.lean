import Mathlib.Data.List.Forall2
import RoiCoin.Script.Spending

/-! What it takes to spend the outputs of several keys, bare or behind their script hash.

`OP_CHECKMULTISIG` takes every signature for the first key that accepts it. That loses nothing:
where the signatures can be matched in order at all, they are matched this way. -/

namespace RoiCoin

open Checked

/-! ## Matching in order -/

section Matching

variable {α β : Type} (accepts : α → β → Prop)

/-- The first element of the one list may as well be matched where it can be. -/
theorem matched_first (a : α) (b : β) (as : List α) (bs : List β) (accepted : accepts a b) :
    List.SublistForall₂ accepts (a :: as) (b :: bs) ↔ List.SublistForall₂ accepts as bs := by
  constructor
  · intro matched
    cases matched with
    | cons _ rest => exact rest
    | cons_right later =>
        obtain ⟨chosen, pairs, sublist⟩ := List.sublistForall₂_iff.mp later
        obtain ⟨c, rest, -, tail, rfl⟩ := List.forall₂_cons_left_iff.mp pairs
        exact List.sublistForall₂_iff.mpr ⟨rest, tail, (List.sublist_cons_self c rest).trans sublist⟩
  · exact .cons accepted

theorem matched_later (a : α) (b : β) (as : List α) (bs : List β) (refused : ¬ accepts a b) :
    List.SublistForall₂ accepts (a :: as) (b :: bs) ↔
      List.SublistForall₂ accepts (a :: as) bs := by
  constructor
  · intro matched
    cases matched with
    | cons accepted _ => exact absurd accepted refused
    | cons_right later => exact later
  · exact .cons_right

theorem matched_length (as : List α) (bs : List β) (matched : List.SublistForall₂ accepts as bs) :
    as.length ≤ bs.length := by
  obtain ⟨chosen, pairs, sublist⟩ := List.sublistForall₂_iff.mp matched
  exact pairs.length_eq ▸ sublist.length_le

theorem matched_reverse (as : List α) (bs : List β) :
    List.SublistForall₂ accepts as.reverse bs.reverse ↔ List.SublistForall₂ accepts as bs := by
  have turned : ∀ (xs : List α) (ys : List β), List.SublistForall₂ accepts xs ys →
      List.SublistForall₂ accepts xs.reverse ys.reverse := by
    intro xs ys matched
    obtain ⟨chosen, pairs, sublist⟩ := List.sublistForall₂_iff.mp matched
    exact List.sublistForall₂_iff.mpr
      ⟨chosen.reverse, List.forall₂_reverse_iff.mpr pairs, sublist.reverse⟩
  constructor
  · intro matched
    have back := turned _ _ matched
    rwa [List.reverse_reverse, List.reverse_reverse] at back
  · exact turned as bs

end Matching

section Evaluation

variable (crypto : Crypto) (checker : BaseSignatureChecker) (flags : BitVec 32)

theorem getint_small (n : Nat) (small : n ≤ 20) : getint n = n := by
  rw [getint, if_neg (by omega), if_neg (by omega)]

/-- What `OP_CHECKMULTISIG` needs, with its counts as numbers. -/
theorem checkmultisig_step (rest : CScript) (keys : List Bytes) (nKeys nSigs : Bytes) (m k : Nat)
    (below : List Bytes) (code : CScript) (n : Nat) (st' : EvalState)
    (keysCount : evalNum flags nKeys 4 = .ok k) (sigsCount : evalNum flags nSigs 4 = .ok m)
    (allKeys : keys.length = k) (few : k ≤ 20) (within : m ≤ k) (room : below.length < 1000) :
    evalStep crypto checker flags ⟨opCheckmultisig, [], rest⟩
        (plainState (nKeys :: (keys ++ nSigs :: below)) code n) = .ok st' ↔
      n + 1 + k ≤ 201 ∧ ∃ dummy left, below.drop m = dummy :: left ∧
        (hasFlag flags scriptVerifyNulldummy = true → dummy = []) ∧
        ∃ fSuccess, multisigLoop checker flags ((below.take m).foldl (fun scriptCode vchSig =>
            (findAndDelete scriptCode (pushData vchSig)).2) code) (below.take m) keys =
          .ok fSuccess ∧ st' = plainState (boolVch fSuccess :: left) code (n + 1 + k) := by
  have operation : operationOf opCheckmultisig = .checkmultisig false := by decide
  have dropped : (keys ++ nSigs :: below).drop k = nSigs :: below := List.drop_left' allKeys
  have taken : (keys ++ nSigs :: below).take k = keys := List.take_left' allKeys
  have keysInt := getint_small k few
  have sigsInt := getint_small m (by omega)
  rw [counted_step crypto checker flags _ _ _ _ _ _ (by decide) (by decide), operation]
  simp only [evalOperation, evalCheckmultisig, plainState, pushResult, Bool.false_eq_true, if_false,
    bind_ok, map_ok, require_ok, pure_ok, Prod.exists, popstack_ok, Except.ok.injEq,
    List.cons.injEq]
  constructor
  · rintro ⟨-, ⟨_, _, ⟨rfl, rfl⟩, _, ⟨count, counted, rfl⟩, -, -, _, limit, _, _, pops, _,
      ⟨count', counted', rfl⟩, -, -, dummy, left, rests, fSuccess, checked, -, null, _, rfl, rfl⟩, -⟩
    have limit := (require_ok _ _ _).mp limit
    rw [keysCount] at counted
    cases counted
    rw [keysInt, Int.toNat_natCast, dropped, List.cons.injEq] at pops
    obtain ⟨rfl, rfl⟩ := pops
    rw [sigsCount] at counted'
    cases counted'
    rw [keysInt, Int.toNat_natCast] at limit checked ⊢
    rw [sigsInt, Int.toNat_natCast] at rests checked
    rw [taken] at checked
    exact ⟨by omega, dummy, left, rests, null, fSuccess, checked, rfl⟩
  · rintro ⟨limit, dummy, left, rests, null, fSuccess, checked, rfl⟩
    refine ⟨by omega, ⟨nKeys, _, ⟨rfl, rfl⟩, k, ⟨_, keysCount, keysInt⟩, (), by omega, (), ?_, nSigs,
      below, ?_, m, ⟨_, sigsCount, sigsInt⟩, (), by omega, dummy, left, ?_, fSuccess, ?_, (), null, _,
      rfl, ?_⟩, ?_⟩
    · rw [Int.toNat_natCast]
      exact require_of _ _ (by omega)
    · rw [Int.toNat_natCast, dropped]
    · rw [Int.toNat_natCast, rests]
    · rw [Int.toNat_natCast, Int.toNat_natCast, taken]
      exact checked
    · rw [Int.toNat_natCast]
    · have shorter := congrArg List.length rests
      simp only [List.length_drop, List.length_cons, List.length_nil] at shorter ⊢
      omega

/-! ## Several keys -/

def HasSigned (scriptCode : CScript) (vchSig vchPubKey : Bytes) : Prop :=
  checker.checkSig vchSig vchPubKey scriptCode = true

/-- The loop finds the signatures among the keys, in order, wherever that can be done with the keys
it comes to in the right encoding. -/
theorem multisigLoop_true (scriptCode : CScript) (sigs keys : List Bytes) :
    multisigLoop checker flags scriptCode sigs keys = .ok true ↔
      (∀ vchSig ∈ sigs, checkSignatureEncoding vchSig flags = .ok ()) ∧
        ∃ visited, visited <+: keys ∧
          (∀ vchPubKey ∈ visited, checkPubKeyEncoding vchPubKey flags = .ok ()) ∧
          List.SublistForall₂ (HasSigned checker scriptCode) sigs visited := by
  induction keys generalizing sigs with
  | nil =>
      cases sigs with
      | nil =>
          simp only [multisigLoop, true_iff]
          exact ⟨by simp, [], List.prefix_rfl, by simp, .nil⟩
      | cons vchSig sigs =>
          simp only [multisigLoop, Except.ok.injEq, Bool.false_eq_true, false_iff, not_and]
          rintro - ⟨visited, inside, -, matched⟩
          rw [List.prefix_nil.mp inside] at matched
          cases matched
  | cons vchPubKey keys ih =>
      cases sigs with
      | nil =>
          simp only [multisigLoop, true_iff]
          exact ⟨by simp, [], List.nil_prefix, by simp, .nil⟩
      | cons vchSig sigs =>
          have first : (∃ visited, visited <+: vchPubKey :: keys ∧
              (∀ key ∈ visited, checkPubKeyEncoding key flags = .ok ()) ∧
              List.SublistForall₂ (HasSigned checker scriptCode) (vchSig :: sigs) visited) ↔
              checkPubKeyEncoding vchPubKey flags = .ok () ∧ ∃ visited, visited <+: keys ∧
                (∀ key ∈ visited, checkPubKeyEncoding key flags = .ok ()) ∧
                List.SublistForall₂ (HasSigned checker scriptCode) (vchSig :: sigs)
                  (vchPubKey :: visited) := by
            constructor
            · rintro ⟨visited, inside, encoded, matched⟩
              obtain rfl | ⟨rest, rfl, front⟩ := List.prefix_cons_iff.mp inside
              · cases matched
              · rw [List.forall_mem_cons] at encoded
                exact ⟨encoded.1, rest, front, encoded.2, matched⟩
            · rintro ⟨key, rest, inside, encoded, matched⟩
              exact ⟨vchPubKey :: rest, List.prefix_cons_iff.mpr (.inr ⟨rest, rfl, inside⟩),
                List.forall_mem_cons.mpr ⟨key, encoded⟩, matched⟩
          rw [first, multisigLoop]
          rw [then_ok, then_ok, List.forall_mem_cons]
          by_cases accepted : HasSigned checker scriptCode vchSig vchPubKey
          · -- a key that has signed is the one to take
            rw [if_pos (show checker.checkSig vchSig vchPubKey scriptCode = true from accepted)]
            simp only [matched_first _ _ _ _ _ accepted]
            by_cases more : sigs.length > keys.length
            · rw [if_pos more]
              constructor
              · rintro ⟨-, -, finished⟩
                cases finished
              · rintro ⟨-, -, visited, inside, -, matched⟩
                have shorter := matched_length _ _ _ matched
                have within := inside.length_le
                omega
            · rw [if_neg more, ih]
              tauto
          · rw [if_neg (show ¬ checker.checkSig vchSig vchPubKey scriptCode = true from accepted)]
            simp only [matched_later _ _ _ _ _ accepted]
            by_cases more : sigs.length + 1 > keys.length
            · rw [if_pos more]
              constructor
              · rintro ⟨-, -, finished⟩
                cases finished
              · rintro ⟨-, -, visited, inside, -, matched⟩
                have shorter := matched_length _ _ _ matched
                have within := inside.length_le
                rw [List.length_cons] at shorter
                omega
            · rw [if_neg more, ih, List.forall_mem_cons]
              tauto

/-- `EncodeOP_N`, of a count up to 16. -/
def encodeOpN (n : Nat) : UInt8 := if n = 0 then op0 else op1 + (UInt8.ofNat n - 1)

def getScriptForMultisig (nRequired : Nat) (keys : List Bytes) : CScript :=
  encodeOpN nRequired :: (keys.flatMap pushData ++ [encodeOpN keys.length, opCheckmultisig])

/-- The sizes of a `CPubKey`. -/
def KeySized (key : Bytes) : Prop := key.length = 33 ∨ key.length = 65

instance (key : Bytes) : Decidable (KeySized key) := inferInstanceAs (Decidable (_ ∨ _))

theorem getOp_count (n : Nat) (small : n ≤ 16) (rest : CScript) :
    getOp (encodeOpN n :: rest) = some ⟨encodeOpN n, [], rest⟩ := by
  by_cases zero : n = 0
  · rw [encodeOpN, if_pos zero, getOp_direct _ _ (by decide), takePush_some]
    exact ⟨Nat.zero_le _, rfl⟩
  · have large : ∀ n : Fin 17, n.val ≠ 0 → opPushdata4 < encodeOpN n.val := by decide
    exact getOp_plain _ _ (large ⟨n, by omega⟩ zero)

theorem count_step (n : Nat) (small : n ≤ 16) (rest : CScript) (stack : List Bytes) (code : CScript)
    (counted : Nat) (st' : EvalState) :
    evalStep crypto checker flags ⟨encodeOpN n, [], rest⟩ (plainState stack code counted) = .ok st' ↔
      stack.length < 1000 ∧ st' = plainState (scriptNumSerialize n :: stack) code counted := by
  by_cases zero : n = 0
  · rw [zero, encodeOpN, if_pos rfl, push_step crypto checker flags _ _ _ _ _ _ _ (by decide)]
    have empty : scriptNumSerialize 0 = [] := by decide
    have minimal : checkMinimalPush [] op0 = true := rfl
    simp [empty, minimal]
  · have range : ∀ n : Fin 17, n.val ≠ 0 →
        op1 ≤ encodeOpN n.val ∧ encodeOpN n.val ≤ op16 ∧ (encodeOpN n.val).toNat - 0x50 = n.val := by
      decide
    obtain ⟨least, most, value⟩ := range ⟨n, by omega⟩ zero
    dsimp only at least most value
    rw [number_step crypto checker flags _ _ _ _ _ _ least most]
    have number : ((encodeOpN n).toNat : Int) - 0x50 = n := by omega
    rw [number]

def keyOps : List Bytes → CScript → List ScriptOp
  | [], _ => []
  | key :: keys, tail =>
      ⟨pushOpcode key, key, keys.flatMap pushData ++ tail⟩ :: keyOps keys tail

theorem keys_parse (keys : List Bytes) (sized : ∀ key ∈ keys, KeySized key) (tail : CScript)
    (ops : List ScriptOp) (rest : ParsesTo tail ops) :
    ParsesTo (keys.flatMap pushData ++ tail) (keyOps keys tail ++ ops) := by
  induction keys with
  | nil => exact rest
  | cons key keys ih =>
      rw [List.forall_mem_cons] at sized
      have size : key.length = 33 ∨ key.length = 65 := sized.1
      rw [List.flatMap_cons, List.append_assoc]
      exact .op (getOp_pushData key _ (by omega)) (ih sized.2)

theorem keys_run (keys : List Bytes) (sized : ∀ key ∈ keys, KeySized key) (tail : CScript)
    (stack : List Bytes) (room : stack.length ≤ 1000) (code : CScript) (n : Nat) (st' : EvalState) :
    evalOps crypto checker flags (keyOps keys tail) (plainState stack code n) = .ok st' ↔
      stack.length + keys.length ≤ 1000 ∧ st' = plainState (keys.reverse ++ stack) code n := by
  induction keys generalizing stack with
  | nil =>
      rw [keyOps, evalOps_nil]
      exact ⟨fun same => ⟨room, same.symm⟩, fun both => both.2.symm⟩
  | cons key keys ih =>
      rw [List.forall_mem_cons] at sized
      have size : key.length = 33 ∨ key.length = 65 := sized.1
      have limit : maxScriptElementSize = 520 := rfl
      have minimal := minimal_push key (by omega)
      rw [keyOps, evalOps_cons, List.reverse_cons, List.append_assoc, List.singleton_append,
        List.length_cons]
      constructor
      · rintro ⟨_, push, run⟩
        obtain ⟨-, -, below, rfl⟩ :=
          (push_step crypto checker flags _ _ _ _ _ _ _ (pushOpcode_le key)).mp push
        obtain ⟨fits, rfl⟩ := (ih sized.2 (key :: stack) below).mp run
        rw [List.length_cons] at fits
        exact ⟨by omega, rfl⟩
      · rintro ⟨fits, rfl⟩
        have below : stack.length < 1000 := by omega
        exact ⟨_, (push_step crypto checker flags _ _ _ _ _ _ _ (pushOpcode_le key)).mpr
            ⟨by omega, fun _ => minimal, below, rfl⟩,
          (ih sized.2 (key :: stack) below).mpr ⟨by rw [List.length_cons]; omega, rfl⟩⟩

def multisigOps (nRequired : Nat) (keys : List Bytes) : List ScriptOp :=
  ⟨encodeOpN nRequired, [], keys.flatMap pushData ++ [encodeOpN keys.length, opCheckmultisig]⟩ ::
    (keyOps keys [encodeOpN keys.length, opCheckmultisig] ++
      [⟨encodeOpN keys.length, [], [opCheckmultisig]⟩, ⟨opCheckmultisig, [], []⟩])

theorem multisig_parses (nRequired : Nat) (keys : List Bytes) (within : nRequired ≤ keys.length)
    (few : keys.length ≤ 16) (sized : ∀ key ∈ keys, KeySized key) :
    ParsesTo (getScriptForMultisig nRequired keys) (multisigOps nRequired keys) :=
  .op (getOp_count nRequired (by omega) _) <| keys_parse keys sized _ _ <|
    .op (getOp_count keys.length few _) (parsesTo_opcode _ _ _ (by decide) .done)

theorem multisig_length (nRequired : Nat) (keys : List Bytes) (few : keys.length ≤ 16)
    (sized : ∀ key ∈ keys, KeySized key) : (getScriptForMultisig nRequired keys).length ≤ 10000 := by
  have pushed : ∀ keys : List Bytes, (∀ key ∈ keys, KeySized key) →
      (keys.flatMap pushData).length ≤ 70 * keys.length := by
    intro keys sized
    induction keys with
    | nil => simp
    | cons key keys ih =>
        rw [List.forall_mem_cons] at sized
        have size : key.length = 33 ∨ key.length = 65 := sized.1
        have push := pushData_length key
        have rest := ih sized.2
        simp only [List.flatMap_cons, List.length_append, List.length_cons]
        omega
  have all := pushed keys sized
  simp only [getScriptForMultisig, List.length_cons, List.length_append, List.length_nil]
  omega

theorem multisig_plain (nRequired : Nat) (keys : List Bytes) (small : nRequired ≤ 16) :
    isPayToScriptHash (getScriptForMultisig nRequired keys) = false := by
  have different : ∀ n : Fin 17, encodeOpN n.val ≠ opHash160 := by decide
  have first := different ⟨nRequired, by omega⟩
  simp [isPayToScriptHash, getScriptForMultisig, first]

/-- The signatures, in order, are of keys of the script, in the order of the script. The keys are
looked at from the last one, and those looked at have the encoding that is asked for. -/
structure SignedInOrder (script : CScript) (keys sigs : List Bytes) : Prop where
  signatures : ∀ vchSig ∈ sigs, checkSignatureEncoding vchSig flags = .ok ()
  matched : ∃ unused visited, keys = unused ++ visited ∧
    (∀ vchPubKey ∈ visited, checkPubKeyEncoding vchPubKey flags = .ok ()) ∧
    List.SublistForall₂ (HasSigned checker (sigs.foldr (fun vchSig scriptCode =>
      (findAndDelete scriptCode (pushData vchSig)).2) script)) sigs visited

theorem signedInOrder_iff (script : CScript) (keys sigs : List Bytes) :
    SignedInOrder checker flags script keys sigs ↔
      multisigLoop checker flags (sigs.reverse.foldl (fun scriptCode vchSig =>
        (findAndDelete scriptCode (pushData vchSig)).2) script) sigs.reverse keys.reverse =
      .ok true := by
  rw [multisigLoop_true, List.foldl_reverse]
  simp only [List.mem_reverse]
  constructor
  · rintro ⟨signatures, unused, visited, rfl, encoded, matched⟩
    refine ⟨signatures, visited.reverse, ?_, fun key member => encoded key (List.mem_reverse.mp member),
      (matched_reverse _ _ _).mpr matched⟩
    rw [List.reverse_append]
    exact List.prefix_append _ _
  · rintro ⟨signatures, visited, ⟨unused, split⟩, encoded, matched⟩
    refine ⟨signatures, unused.reverse, visited.reverse, ?_,
      fun key member => encoded key (List.mem_reverse.mp member), ?_⟩
    · rw [← List.reverse_append, split, List.reverse_reverse]
    · rw [← matched_reverse, List.reverse_reverse]
      exact matched

/-- What a stack needs for the multisignature script to leave true on it. -/
structure MultisigMet (script : CScript) (nRequired : Nat) (keys sigs : List Bytes) (dummy : Bytes)
    (below : List Bytes) : Prop where
  enough : sigs.length = nRequired
  signed : SignedInOrder checker flags script keys sigs
  null : hasFlag flags scriptVerifyNulldummy = true → dummy = []
  room : nRequired + keys.length + below.length + 3 ≤ 1000

theorem multisig_evaluates (nRequired : Nat) (keys : List Bytes) (within : nRequired ≤ keys.length)
    (few : keys.length ≤ 16) (sized : ∀ key ∈ keys, KeySized key) (stack left : List Bytes) :
    (∃ back, evalScript crypto checker flags stack (getScriptForMultisig nRequired keys) =
        .ok (back :: left) ∧ castToBool back = true) ↔
      ∃ sigs dummy, stack = sigs.reverse ++ dummy :: left ∧
        MultisigMet checker flags (getScriptForMultisig nRequired keys) nRequired keys sigs dummy
          left := by
  have size := multisig_length nRequired keys few sized
  have parses := multisig_parses nRequired keys within few sized
  have short : ∀ n : Fin 17, (scriptNumSerialize (n.val : Nat)).length ≤ 4 := by decide
  have keysCount := (evalNum_serialize flags keys.length 4 keys.length).mpr
    ⟨short ⟨keys.length, by omega⟩, rfl⟩
  have sigsCount := (evalNum_serialize flags nRequired 4 nRequired).mpr
    ⟨short ⟨nRequired, by omega⟩, rfl⟩
  generalize getScriptForMultisig nRequired keys = script at size parses
  simp only [evalScript_parsed crypto checker flags script _ parses, multisigOps, evalOps_cons,
    evalOps_append, evalOps_nil]
  constructor
  · rintro ⟨back, ⟨-, _, ⟨_, required, _, pushed, _, count, _, check, rfl⟩, -, result⟩, holds⟩
    obtain ⟨below, rfl⟩ := (count_step crypto checker flags _ (by omega) _ _ _ _ _).mp required
    obtain ⟨fits, rfl⟩ := (keys_run crypto checker flags keys sized _ _
      (by rw [List.length_cons]; omega) _ _ _).mp pushed
    obtain ⟨room, rfl⟩ := (count_step crypto checker flags _ few _ _ _ _ _).mp count
    rw [checkmultisig_step crypto checker flags _ _ _ _ nRequired keys.length _ _ _ _ keysCount
      sigsCount List.length_reverse (by omega) within below] at check
    obtain ⟨-, dummy, rest, split, null, fSuccess, checked, rfl⟩ := check
    rw [plainState, List.cons.injEq] at result
    obtain ⟨rfl, rfl⟩ := result
    rw [castToBool_boolVch] at holds
    rw [holds] at checked
    have whole : stack = (stack.take nRequired).reverse.reverse ++ dummy :: rest := by
      rw [List.reverse_reverse, ← split, List.take_append_drop]
    have dropped := congrArg List.length split
    simp only [List.length_append, List.length_reverse, List.length_cons, List.length_drop] at room dropped
    refine ⟨(stack.take nRequired).reverse, dummy, whole, ?_, ?_, null, by omega⟩
    · rw [List.length_reverse, List.length_take]
      omega
    · rw [signedInOrder_iff, List.reverse_reverse]
      exact checked
  · rintro ⟨sigs, dummy, rfl, met⟩
    have enough : sigs.reverse.length = nRequired := by rw [List.length_reverse, met.enough]
    have room := met.room
    have below : (sigs.reverse ++ dummy :: left).length < 1000 := by
      rw [List.length_append, List.length_cons]
      omega
    have signed := (signedInOrder_iff checker flags script keys sigs).mp met.signed
    refine ⟨boolVch true, ⟨size, _, ⟨_,
      (count_step crypto checker flags _ (by omega) _ _ _ _ _).mpr ⟨below, rfl⟩,
      _, (keys_run crypto checker flags keys sized _ _ (by rw [List.length_cons]; omega) _ _ _).mpr
        ⟨?_, rfl⟩,
      _, (count_step crypto checker flags _ few _ _ _ _ _).mpr ⟨?_, rfl⟩,
      _, (checkmultisig_step crypto checker flags _ _ _ _ nRequired keys.length _ _ _ _ keysCount
        sigsCount List.length_reverse (by omega) within below).mpr
        ⟨by omega, dummy, left, ?_, met.null, true, ?_, rfl⟩, rfl⟩, rfl, rfl⟩, rfl⟩
    · simp only [List.length_cons, List.length_append]
      omega
    · simp only [List.length_cons, List.length_append, List.length_reverse] at enough ⊢
      omega
    · exact List.drop_left' enough
    · rw [List.take_left' enough]
      exact signed

/-- Exactly who spends a bare multisignature output. -/
theorem multisig_spent_iff (nRequired : Nat) (keys : List Bytes) (within : nRequired ≤ keys.length)
    (few : keys.length ≤ 16) (sized : ∀ key ∈ keys, KeySized key) (scriptSig : CScript) :
    verifyScript crypto checker flags scriptSig (getScriptForMultisig nRequired keys) = .ok () ↔
      (hasFlag flags scriptVerifySigpushonly = true → isPushOnly scriptSig = true) ∧
        ∃ sigs dummy below,
          evalScript crypto checker flags [] scriptSig = .ok (sigs.reverse ++ dummy :: below) ∧
          MultisigMet checker flags (getScriptForMultisig nRequired keys) nRequired keys sigs dummy
            below ∧ LeftClean flags below := by
  have evaluates := multisig_evaluates crypto checker flags nRequired keys within few sized
  rw [verifyScript_plain crypto checker flags _ _ (multisig_plain nRequired keys (by omega))]
  constructor
  · rintro ⟨pushes, stack, left, back, below, evaluated, holds, clean⟩
    obtain ⟨sigs, dummy, rfl, met⟩ := (evaluates stack below).mp ⟨back, evaluated, holds⟩
    exact ⟨pushes, sigs, dummy, below, left, met, clean⟩
  · rintro ⟨pushes, sigs, dummy, below, left, met, clean⟩
    obtain ⟨back, evaluated, holds⟩ := (evaluates _ below).mpr ⟨sigs, dummy, rfl, met⟩
    exact ⟨pushes, _, left, back, below, evaluated, holds, clean⟩

/-! ## A script hash -/

def scriptHashOps (id : Uint160) : List ScriptOp :=
  [⟨opHash160, [], pushData (toByteVector id) ++ [opEqual]⟩, ⟨20, toByteVector id, [opEqual]⟩,
    ⟨opEqual, [], []⟩]

theorem scriptHash_evaluates (id : Uint160) (stack left : List Bytes) :
    (∃ back, evalScript crypto checker flags stack (getScriptForDestination (.scriptID id)) =
        .ok (back :: left) ∧ castToBool back = true) ↔
      ∃ redeem, stack = redeem :: left ∧ crypto.hash160 redeem = toByteVector id ∧
        left.length ≤ 998 := by
  obtain ⟨first, second, third⟩ := getOp_scriptID id
  have parses : ParsesTo (getScriptForDestination (.scriptID id)) (scriptHashOps id) :=
    .op first (.op second (.op third .done))
  have size := script_hash_size id
  have length := toByteVector_length id
  have limit : maxScriptElementSize = 520 := rfl
  have minimal := minimal_push (toByteVector id) (by omega)
  rw [pushOpcode_hash] at minimal
  simp only [evalScript_parsed crypto checker flags _ _ parses, scriptHashOps, evalOps_cons, evalOps_nil]
  constructor
  · rintro ⟨back, ⟨-, _, ⟨_, hash, _, push, _, compare, rfl⟩, -, result⟩, holds⟩
    obtain ⟨-, redeem, rest, rfl, -, rfl⟩ := (hashed_step crypto checker flags _ _ _ _ _).mp hash
    obtain ⟨-, -, room, rfl⟩ := (push_step crypto checker flags _ _ _ _ _ _ _ (by decide)).mp push
    obtain ⟨-, _, _, _, pair, -, rfl⟩ := (compared_step crypto checker flags _ _ _ _ _).mp compare
    cases pair
    rw [plainState, List.cons.injEq] at result
    obtain ⟨rfl, rfl⟩ := result
    rw [castToBool_boolVch] at holds
    rw [List.length_cons] at room
    exact ⟨redeem, rfl, beq_iff_eq.mp holds, by omega⟩
  · rintro ⟨redeem, rfl, hashed, room⟩
    refine ⟨boolVch (crypto.hash160 redeem == toByteVector id), ⟨by omega, _, ⟨_,
      (hashed_step crypto checker flags _ _ _ _ _).mpr ⟨by omega, redeem, left, rfl, ?_, rfl⟩,
      _, (push_step crypto checker flags _ _ _ _ _ _ _ (by decide)).mpr
        ⟨by omega, fun _ => minimal, ?_, rfl⟩,
      _, (compared_step crypto checker flags _ _ _ _ _).mpr
        ⟨by omega, _, _, left, rfl, by omega, rfl⟩, rfl⟩, rfl, rfl⟩, ?_⟩
    · rw [List.length_cons]
      omega
    · rw [List.length_cons]
      omega
    · rw [castToBool_boolVch]
      exact beq_iff_eq.mpr hashed

theorem scriptHash_recognised (id : Uint160) :
    isPayToScriptHash (getScriptForDestination (.scriptID id)) = true := by
  have length := toByteVector_length id
  rw [getScriptForDestination, visitDestination, pushData, length, if_pos (by decide)]
  simp [isPayToScriptHash, length]

/-- A script hash output is spent by a script that only pushes, whose last push has the hash and
holds of what was pushed before it. -/
theorem script_hash_spent_iff (id : Uint160) (scriptSig : CScript)
    (enforced : hasFlag flags scriptVerifyP2SH = true) :
    verifyScript crypto checker flags scriptSig (getScriptForDestination (.scriptID id)) = .ok () ↔
      isPushOnly scriptSig = true ∧ ∃ redeem stack,
        evalScript crypto checker flags [] scriptSig = .ok (redeem :: stack) ∧
        crypto.hash160 redeem = toByteVector id ∧ stack.length ≤ 998 ∧
        ∃ back below, evalScript crypto checker flags stack redeem = .ok (back :: below) ∧
          castToBool back = true ∧ LeftClean flags below := by
  have evaluates := scriptHash_evaluates crypto checker flags id
  simp only [verifyScript, verifyScriptHash, enforced, scriptHash_recognised id, Bool.and_true, if_true,
    bind_ok, require_ok, checkResult_ok]
  constructor
  · rintro ⟨-, -, stackCopy, left, result, evaluated, -, ⟨back, below, rfl, holds⟩, final, redeemed,
      clean⟩
    obtain ⟨redeem, rfl, hashed, room⟩ := (evaluates stackCopy below).mp ⟨back, evaluated, holds⟩
    simp only [verifyRedeemScript, bind_ok, require_ok, checkResult_ok, pure_ok] at redeemed
    obtain ⟨-, pushes, stack, again, -, ⟨top, rest, rfl, true⟩, rfl⟩ := redeemed
    exact ⟨pushes, redeem, below, left, hashed, room, top, rest, again, true,
      (checkCleanstack_ok flags top rest).mp clean⟩
  · rintro ⟨pushes, redeem, stack, left, hashed, room, back, below, again, holds, clean⟩
    obtain ⟨top, evaluated, true⟩ := (evaluates (redeem :: stack) stack).mpr
      ⟨redeem, rfl, hashed, room⟩
    refine ⟨(), fun _ => pushes, _, left, _, evaluated, (), ⟨top, stack, rfl, true⟩, back :: below, ?_,
      (checkCleanstack_ok flags back below).mpr clean⟩
    simp only [verifyRedeemScript, bind_ok, require_ok, checkResult_ok, pure_ok]
    exact ⟨(), pushes, _, again, (), ⟨back, below, rfl, holds⟩, rfl⟩

/-- Exactly who spends the hash of a multisignature script that no other string has. -/
theorem multisig_hash_spent_iff (nRequired : Nat) (keys : List Bytes)
    (within : nRequired ≤ keys.length) (few : keys.length ≤ 16)
    (sized : ∀ key ∈ keys, KeySized key) (id : Uint160)
    (hashed : crypto.hash160 (getScriptForMultisig nRequired keys) = toByteVector id)
    (alone : ∀ redeem, crypto.hash160 redeem = toByteVector id →
      redeem = getScriptForMultisig nRequired keys) (scriptSig : CScript)
    (enforced : hasFlag flags scriptVerifyP2SH = true) :
    verifyScript crypto checker flags scriptSig (getScriptForDestination (.scriptID id)) = .ok () ↔
      isPushOnly scriptSig = true ∧ ∃ sigs dummy below,
        evalScript crypto checker flags [] scriptSig =
          .ok (getScriptForMultisig nRequired keys :: (sigs.reverse ++ dummy :: below)) ∧
        MultisigMet checker flags (getScriptForMultisig nRequired keys) nRequired keys sigs dummy
          below ∧ LeftClean flags below := by
  have evaluates := multisig_evaluates crypto checker flags nRequired keys within few sized
  rw [script_hash_spent_iff crypto checker flags id scriptSig enforced]
  constructor
  · rintro ⟨pushes, redeem, stack, left, same, -, back, below, evaluated, holds, clean⟩
    rw [alone redeem same] at left evaluated
    obtain ⟨sigs, dummy, rfl, met⟩ := (evaluates stack below).mp ⟨back, evaluated, holds⟩
    exact ⟨pushes, sigs, dummy, below, left, met, clean⟩
  · rintro ⟨pushes, sigs, dummy, below, left, met, clean⟩
    obtain ⟨back, evaluated, holds⟩ := (evaluates _ below).mpr ⟨sigs, dummy, rfl, met⟩
    have enough := met.enough
    have room := met.room
    refine ⟨pushes, _, _, left, hashed, ?_, back, below, evaluated, holds, clean⟩
    rw [List.length_append, List.length_reverse, List.length_cons]
    omega

end Evaluation

/-! ## A 2-of-3 -/

/-- Keys of one byte repeated. -/
def sampleKeys : List Bytes := [List.replicate 33 2, List.replicate 33 3, List.replicate 33 4]

/-- A signature of one byte is by the key of that byte. -/
def sampleChecker : BaseSignatureChecker where
  checkSig vchSig vchPubKey _ := vchSig == vchPubKey.take 1
  checkLockTime nLockTime := decide (nLockTime ≤ 120)

/-- A script hash that only the script of the sample keys has. -/
def sampleCrypto : Crypto where
  ripemd160 _ := []
  sha1 _ := []
  sha256 _ := []
  hash160 data :=
    if data = getScriptForMultisig 2 sampleKeys then toByteVector 7 else List.replicate 21 0
  hash256 _ := []
  verify _ _ _ := false

theorem sample_signed : MultisigMet sampleChecker scriptVerifyP2SH (getScriptForMultisig 2 sampleKeys)
    2 sampleKeys [[2], [4]] [] [] where
  enough := rfl
  signed := {
    signatures := by decide
    matched := ⟨[], sampleKeys, rfl, by decide,
      .cons rfl (.cons_right (.cons rfl .nil))⟩ }
  null _ := rfl
  room := by decide

theorem multisig_spent_first_last :
    verifyScript sampleCrypto sampleChecker scriptVerifyP2SH
      (op0 :: (pushData [2] ++ pushData [4])) (getScriptForMultisig 2 sampleKeys) = .ok () :=
  (multisig_spent_iff sampleCrypto sampleChecker scriptVerifyP2SH 2 sampleKeys (by decide) (by decide)
    (by decide) _).mpr
    ⟨by decide, [[2], [4]], [], [], by decide +kernel, sample_signed, by decide⟩

theorem multisig_hash_spent_first_last :
    verifyScript sampleCrypto sampleChecker scriptVerifyP2SH
      (op0 :: (pushData [2] ++ pushData [4] ++ pushData (getScriptForMultisig 2 sampleKeys)))
      (getScriptForDestination (.scriptID 7)) = .ok () :=
  (multisig_hash_spent_iff sampleCrypto sampleChecker scriptVerifyP2SH 2 sampleKeys (by decide)
    (by decide) (by decide) 7 (by simp [sampleCrypto]) (by
      intro redeem same
      by_contra different
      have length := congrArg List.length same
      simp [sampleCrypto, different, toByteVector_length] at length) _ (by decide)).mpr
    ⟨by decide +kernel, [[2], [4]], [], [], by decide +kernel, sample_signed, by decide⟩

end RoiCoin
