import RoiCoin.Script.Interpreter

/-! More script verification flags only refuse more scripts. -/

namespace RoiCoin

open Checked

/-- Flags that may be added by a soft fork to the first set to make the second: the clean stack
rule comes with pay-to-script-hash, and the upgradable operations that are discouraged do not
include one that has its meaning already. -/
structure SoftFork (fewer more : BitVec 32) : Prop where
  within : FlagsWithin fewer more
  cleanstack : hasFlag fewer scriptVerifyCleanstack = true → hasFlag fewer scriptVerifyP2SH = true
  nops : hasFlag fewer scriptVerifyDiscourageUpgradableNops = true →
    hasFlag fewer scriptVerifyChecklocktimeverify = true

section Encodings

variable (fewer more : BitVec 32) (within : FlagsWithin fewer more)
include within

/-- A rule that a flag switches on. -/
theorem stricter_flag (flag : BitVec 32) (holds : Prop) [Decidable holds]
    (failure : ScriptFailure) :
    Stricter (require (hasFlag more flag = true → holds) failure)
      (require (hasFlag fewer flag = true → holds) failure) :=
  stricter_require _ _ failure fun kept set => kept (hasFlag_within fewer more flag within set)

theorem stricter_checkLowS (vchSig : Bytes) :
    Stricter (checkLowS vchSig more) (checkLowS vchSig fewer) := by
  rw [checkLowS, checkLowS]
  by_cases low : hasFlag fewer scriptVerifyLowS = true
  · rw [if_pos low, if_pos (hasFlag_within fewer more _ within low)]
    exact stricter_refl _
  · rw [if_neg low]
    exact stricter_skip _

theorem stricter_checkSignatureEncoding (vchSig : Bytes) :
    Stricter (checkSignatureEncoding vchSig more) (checkSignatureEncoding vchSig fewer) := by
  apply stricter_ite
  · intro _
    exact stricter_refl _
  · intro _
    apply stricter_bind _ _ _ _ (stricter_flag fewer more within _ _ _)
    intro _
    apply stricter_bind _ _ _ _ (stricter_checkLowS fewer more within vchSig)
    intro _
    exact stricter_flag fewer more within _ _ _

theorem stricter_checkPubKeyEncoding (vchPubKey : Bytes) :
    Stricter (checkPubKeyEncoding vchPubKey more) (checkPubKeyEncoding vchPubKey fewer) :=
  stricter_flag fewer more within _ _ _

/-- The minimal encoding is asked for without changing the number read. -/
theorem stricter_evalNum (vch : Bytes) (nMaxNumSize : Nat) :
    Stricter (evalNum more vch nMaxNumSize) (evalNum fewer vch nMaxNumSize) := by
  intro n read
  have minimal := hasFlag_within fewer more scriptVerifyMinimaldata within
  rw [evalNum, scriptNum] at read ⊢
  by_cases long : vch.length > nMaxNumSize
  · rw [if_pos long] at read
    cases read
  · rw [if_neg long] at read ⊢
    by_cases asked : (hasFlag more scriptVerifyMinimaldata && !minimallyEncoded vch) = true
    · rw [if_pos asked] at read
      cases read
    · have kept : ¬ (hasFlag fewer scriptVerifyMinimaldata && !minimallyEncoded vch) = true := by
        intro both
        rw [Bool.and_eq_true] at both
        exact asked (Bool.and_eq_true _ _ ▸ ⟨minimal both.1, both.2⟩)
      rw [if_neg asked] at read
      rw [if_neg kept]
      exact read

end Encodings

/-! ## The switch -/

section Switch

variable (crypto : Crypto) (checker : BaseSignatureChecker) (fewer more : BitVec 32)
  (fork : SoftFork fewer more)
include fork

theorem stricter_discourage :
    Stricter (require (hasFlag more scriptVerifyDiscourageUpgradableNops = false)
        (ScriptFailure.serror .discourageUpgradableNops))
      (require (hasFlag fewer scriptVerifyDiscourageUpgradableNops = false)
        (ScriptFailure.serror .discourageUpgradableNops)) := by
  apply stricter_require
  intro free
  rw [← Bool.not_eq_true] at free ⊢
  exact fun set => free (hasFlag_within fewer more _ fork.within set)

theorem stricter_checklocktimeverify (st : EvalState) :
    Stricter (evalChecklocktimeverify checker more st)
      (evalChecklocktimeverify checker fewer st) := by
  have locked := hasFlag_within fewer more scriptVerifyChecklocktimeverify fork.within
  rw [evalChecklocktimeverify, evalChecklocktimeverify]
  by_cases old : hasFlag fewer scriptVerifyChecklocktimeverify = true
  · rw [if_pos old, if_pos (locked old)]
    apply stricter_bind _ _ _ _ (stricter_refl _)
    intro (vch, _)
    apply stricter_bind _ _ _ _ (stricter_evalNum fewer more fork.within vch 5)
    exact fun _ => stricter_refl _
  · rw [if_neg old]
    by_cases new : hasFlag more scriptVerifyChecklocktimeverify = true
    · -- the new rule leaves the state as it is, and the old one does not refuse
      have free : hasFlag fewer scriptVerifyDiscourageUpgradableNops = false := by
        rw [← Bool.not_eq_true]
        exact fun set => old (fork.nops set)
      rw [if_pos new, require_of _ _ free]
      intro st' returned
      simp only [bind_ok, pure_ok] at returned
      obtain ⟨_, _, _, _, _, _, _, _, rfl⟩ := returned
      rfl
    · rw [if_neg new]
      apply stricter_bind _ _ _ _ (stricter_discourage fewer more fork)
      exact fun _ => stricter_refl _

theorem stricter_evalPick (roll : Bool) (st : EvalState) :
    Stricter (evalPick more roll st) (evalPick fewer roll st) := by
  apply stricter_bind _ _ _ _ (stricter_refl _)
  intro _
  apply stricter_bind _ _ _ _ (stricter_refl _)
  intro (vchN, stack)
  apply stricter_bind _ _ _ _
    (stricter_map getint _ _ (stricter_evalNum fewer more fork.within vchN 4))
  exact fun _ => stricter_refl _

theorem stricter_evalUnary (op : UnaryOp) (st : EvalState) :
    Stricter (evalUnary more op st) (evalUnary fewer op st) := by
  apply stricter_bind _ _ _ _ (stricter_refl _)
  intro (vch, stack)
  apply stricter_bind _ _ _ _ (stricter_evalNum fewer more fork.within vch 4)
  exact fun _ => stricter_refl _

theorem stricter_evalBinary (op : BinaryOp) (thenVerify : Bool) (st : EvalState) :
    Stricter (evalBinary more op thenVerify st) (evalBinary fewer op thenVerify st) := by
  have number := stricter_evalNum fewer more fork.within
  apply stricter_bind _ _ _ _ (stricter_refl _)
  intro (vch2, stack)
  apply stricter_bind _ _ _ _ (stricter_refl _)
  intro (vch1, stack)
  apply stricter_bind _ _ _ _ (number vch1 4)
  intro bn1
  apply stricter_bind _ _ _ _ (number vch2 4)
  exact fun _ => stricter_refl _

theorem stricter_evalWithin (st : EvalState) :
    Stricter (evalWithin more st) (evalWithin fewer st) := by
  have number := stricter_evalNum fewer more fork.within
  apply stricter_bind _ _ _ _ (stricter_refl _)
  intro (vch3, stack)
  apply stricter_bind _ _ _ _ (stricter_refl _)
  intro (vch2, stack)
  apply stricter_bind _ _ _ _ (stricter_refl _)
  intro (vch1, stack)
  apply stricter_bind _ _ _ _ (number vch1 4)
  intro bn1
  apply stricter_bind _ _ _ _ (number vch2 4)
  intro bn2
  apply stricter_bind _ _ _ _ (number vch3 4)
  exact fun _ => stricter_refl _

theorem stricter_evalChecksig (thenVerify : Bool) (st : EvalState) :
    Stricter (evalChecksig checker more thenVerify st)
      (evalChecksig checker fewer thenVerify st) := by
  apply stricter_bind _ _ _ _ (stricter_refl _)
  intro (vchPubKey, stack)
  apply stricter_bind _ _ _ _ (stricter_refl _)
  intro (vchSig, stack)
  apply stricter_bind _ _ _ _ (stricter_checkSignatureEncoding fewer more fork.within vchSig)
  intro _
  apply stricter_bind _ _ _ _ (stricter_checkPubKeyEncoding fewer more fork.within vchPubKey)
  exact fun _ => stricter_refl _

/-- Signatures are compared with keys in the same order under both flag sets. -/
theorem stricter_multisigLoop (scriptCode : CScript) (sigs keys : List Bytes) :
    Stricter (multisigLoop checker more scriptCode sigs keys)
      (multisigLoop checker fewer scriptCode sigs keys) := by
  induction keys generalizing sigs with
  | nil => cases sigs <;> exact stricter_refl _
  | cons vchPubKey keys ih =>
      cases sigs with
      | nil => exact stricter_refl _
      | cons vchSig sigs =>
          apply stricter_bind _ _ _ _
            (stricter_checkSignatureEncoding fewer more fork.within vchSig)
          intro _
          apply stricter_bind _ _ _ _
            (stricter_checkPubKeyEncoding fewer more fork.within vchPubKey)
          intro _
          apply stricter_ite
          · exact fun _ => stricter_ite _ _ _ _ _ (fun _ => stricter_refl _) fun _ => ih sigs
          · exact fun _ =>
              stricter_ite _ _ _ _ _ (fun _ => stricter_refl _) fun _ => ih (vchSig :: sigs)

theorem stricter_evalCheckmultisig (thenVerify : Bool) (st : EvalState) :
    Stricter (evalCheckmultisig checker more thenVerify st)
      (evalCheckmultisig checker fewer thenVerify st) := by
  have number := stricter_evalNum fewer more fork.within
  apply stricter_bind _ _ _ _ (stricter_refl _)
  intro (vchKeysCount, stack)
  apply stricter_bind _ _ _ _ (stricter_map getint _ _ (number vchKeysCount 4))
  intro nKeysCount
  apply stricter_bind _ _ _ _ (stricter_refl _)
  intro _
  apply stricter_bind _ _ _ _ (stricter_refl _)
  intro _
  apply stricter_bind _ _ _ _ (stricter_refl _)
  intro (vchSigsCount, stack)
  apply stricter_bind _ _ _ _ (stricter_map getint _ _ (number vchSigsCount 4))
  intro nSigsCount
  apply stricter_bind _ _ _ _ (stricter_refl _)
  intro _
  apply stricter_bind _ _ _ _ (stricter_refl _)
  intro (vchDummy, stack)
  apply stricter_bind _ _ _ _ (stricter_multisigLoop checker fewer more fork _ _ _)
  intro fSuccess
  apply stricter_bind _ _ _ _ (stricter_flag fewer more fork.within _ _ _)
  exact fun _ => stricter_refl _

/-- The step lemma: one case of the switch under more flags does what it does under fewer, or
refuses. -/
theorem stricter_evalOperation (pc : CScript) (fExec : Bool) (st : EvalState) (op : Operation) :
    Stricter (evalOperation crypto checker more pc fExec st op)
      (evalOperation crypto checker fewer pc fExec st op) := by
  cases op with
  | checklocktimeverify => exact stricter_checklocktimeverify checker fewer more fork st
  | upgradableNop =>
      apply stricter_bind _ _ _ _ (stricter_discourage fewer more fork)
      exact fun _ => stricter_refl _
  | pick roll => exact stricter_evalPick fewer more fork roll st
  | unary op => exact stricter_evalUnary fewer more fork op st
  | binary op thenVerify => exact stricter_evalBinary fewer more fork op thenVerify st
  | within => exact stricter_evalWithin fewer more fork st
  | checksig thenVerify => exact stricter_evalChecksig checker fewer more fork thenVerify st
  | checkmultisig thenVerify =>
      exact stricter_evalCheckmultisig checker fewer more fork thenVerify st
  | _ => exact stricter_refl _

/-! ## Runs -/

theorem stricter_evalStep (op : ScriptOp) (st : EvalState) :
    Stricter (evalStep crypto checker more op st) (evalStep crypto checker fewer op st) := by
  apply stricter_bind _ _ _ _ (stricter_refl _)
  intro _
  apply stricter_bind _ _ _ _ (stricter_refl _)
  intro _
  apply stricter_bind _ _ _ _ (stricter_refl _)
  intro _
  apply stricter_bind
  · apply stricter_ite
    · intro _
      apply stricter_bind _ _ _ _ (stricter_flag fewer more fork.within _ _ _)
      exact fun _ => stricter_refl _
    · intro _
      apply stricter_ite
      · exact fun _ => stricter_evalOperation crypto checker fewer more fork _ _ _ _
      · exact fun _ => stricter_refl _
  · exact fun _ => stricter_refl _

theorem stricter_evalLoop (fuel : Nat) (pc : CScript) (st : EvalState) :
    Stricter (evalLoop crypto checker more fuel pc st)
      (evalLoop crypto checker fewer fuel pc st) := by
  induction fuel generalizing pc st with
  | zero => exact stricter_refl _
  | succ fuel ih =>
      rw [evalLoop, evalLoop]
      apply stricter_ite
      · exact fun _ => stricter_refl _
      · intro _
        cases getOp pc with
        | none => exact stricter_refl _
        | some op =>
            apply stricter_bind _ _ _ _ (stricter_evalStep crypto checker fewer more fork op st)
            exact fun st' => ih op.rest st'

theorem stricter_evalScript (stack : List Bytes) (script : CScript) :
    Stricter (evalScript crypto checker more stack script)
      (evalScript crypto checker fewer stack script) := by
  apply stricter_bind _ _ _ _ (stricter_refl _)
  intro _
  apply stricter_bind _ _ _ _ (stricter_evalLoop crypto checker fewer more fork _ _ _)
  exact fun _ => stricter_refl _

theorem stricter_verifyRedeemScript (scriptSig : CScript) (stackCopy : List Bytes) :
    Stricter (verifyRedeemScript crypto checker more scriptSig stackCopy)
      (verifyRedeemScript crypto checker fewer scriptSig stackCopy) := by
  apply stricter_bind _ _ _ _ (stricter_refl _)
  intro _
  cases stackCopy with
  | nil => exact stricter_refl _
  | cons pubKeySerialized stack =>
      apply stricter_bind _ _ _ _ (stricter_evalScript crypto checker fewer more fork _ _)
      exact fun _ => stricter_refl _

/-- The end of the verification, where the stacks may differ: only the set with more flags may ask
for the evaluation of the redeem script, and then the other does not ask for a clean stack. -/
theorem stricter_finish (scriptSig scriptPubKey : CScript) (stackCopy stack : List Bytes) :
    Stricter
      (verifyScriptHash crypto checker more scriptSig scriptPubKey stackCopy stack >>=
        checkCleanstack more)
      (verifyScriptHash crypto checker fewer scriptSig scriptPubKey stackCopy stack >>=
        checkCleanstack fewer) := by
  have clean := hasFlag_within fewer more scriptVerifyCleanstack fork.within
  have hashed := hasFlag_within fewer more scriptVerifyP2SH fork.within
  have cleanstack : ∀ stack, Stricter (checkCleanstack more stack) (checkCleanstack fewer stack) := by
    intro stack
    rw [checkCleanstack, checkCleanstack]
    by_cases asked : hasFlag fewer scriptVerifyCleanstack = true
    · have both := fork.cleanstack asked
      rw [if_pos asked, if_pos (clean asked), require_of _ _ both, require_of _ _ (hashed both)]
      exact stricter_refl _
    · rw [if_neg asked]
      exact stricter_skip _
  by_cases old : hasFlag fewer scriptVerifyP2SH = true
  · rw [verifyScriptHash, verifyScriptHash, old, hashed old]
    apply stricter_bind _ _ _ _ _ cleanstack
    apply stricter_ite
    · exact fun _ => stricter_verifyRedeemScript crypto checker fewer more fork _ _
    · exact fun _ => stricter_refl _
  · have free : ¬ hasFlag fewer scriptVerifyCleanstack = true :=
      fun set => old (fork.cleanstack set)
    intro done _
    have skipped : ¬ (hasFlag fewer scriptVerifyP2SH && isPayToScriptHash scriptPubKey) = true :=
      fun both => old ((Bool.and_eq_true _ _).mp both).1
    rw [verifyScriptHash, if_neg skipped]
    exact if_neg free

theorem stricter_verifyScript (scriptSig scriptPubKey : CScript) :
    Stricter (verifyScript crypto checker more scriptSig scriptPubKey)
      (verifyScript crypto checker fewer scriptSig scriptPubKey) := by
  apply stricter_bind _ _ _ _ (stricter_flag fewer more fork.within _ _ _)
  intro _
  apply stricter_bind _ _ _ _ (stricter_evalScript crypto checker fewer more fork _ _)
  intro stackCopy
  apply stricter_bind _ _ _ _ (stricter_evalScript crypto checker fewer more fork _ _)
  intro stack
  apply stricter_bind _ _ _ _ (stricter_refl _)
  intro _
  exact stricter_finish crypto checker fewer more fork _ _ _ _

end Switch

end RoiCoin
