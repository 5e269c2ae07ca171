import RoiCoin.FlatView
import RoiCoin.Lib.EarlyExit
import RoiCoin.Script.Standard
import RoiCoin.Validation.ScriptChecks

/-! The relay policy on the inputs of a transaction (`AreInputsStandard`, `ScriptSigArgsExpected`).

The loop over the inputs returns as soon as it meets a redeem script of no known template, whatever
inputs are left. -/

namespace RoiCoin

open Checked EarlyExit

def maxP2shSigops : Nat := 15

def scriptSigArgsExpected (t : TxnOutType) (vSolutions : List Bytes) : Int :=
  match t with
  | .nonstandard | .nullData => -1
  | .pubkey => 1
  | .checklocktimeverify | .pubkeyhash => 2
  | .multisig =>
      match vSolutions with
      | (m :: _) :: _ => m.toNat + 1
      | _ => -1
  | .scripthash => 1

/-- `BaseSignatureChecker()`, which accepts nothing. -/
def baseSignatureChecker : BaseSignatureChecker := ⟨fun _ _ _ => false, fun _ => false⟩

section Policy

variable (crypto : Crypto) (fDatacarrier : Bool) (nMaxDatacarrierBytes : Nat)

/-- `stack.size() != nArgsExpected` -/
def countItems (stack : List Bytes) (nArgsExpected : Int) : Turn :=
  if (stack.length : Int) ≠ nArgsExpected then .exits false else .continues

/-- The part of the loop for `TX_SCRIPTHASH`. -/
def judgeRedeemScript (stack : List Bytes) (nArgsExpected : Int) : Checking Turn :=
  match stack with
  | [] => .ok (.exits false)
  | subscript :: _ => do
      let solved ← liftScript (solver fDatacarrier nMaxDatacarrierBytes subscript)
      return if solved.found = true then
        let tmpExpected := scriptSigArgsExpected solved.typeRet solved.vSolutions
        if tmpExpected < 0 then .exits false else countItems stack (nArgsExpected + tmpExpected)
      else .exits (decide (getSigOpCount true subscript ≤ maxP2shSigops))

/-- The rest of a turn, for what `Solver` finds out about the output spent. -/
def judgeSpending (txin : CTxIn) (solved : Solved) : Checking Turn :=
  let nArgsExpected := scriptSigArgsExpected solved.typeRet solved.vSolutions
  if solved.found = false then .ok (.exits false)
  else if nArgsExpected < 0 then .ok (.exits false)
  else
    match evalScript crypto baseSignatureChecker 0 [] txin.scriptSig with
    | .error _ => .ok (.exits false)
    | .ok stack =>
        if solved.typeRet = .scripthash then
          judgeRedeemScript fDatacarrier nMaxDatacarrierBytes stack nArgsExpected
        else .ok (countItems stack nArgsExpected)

/-- One turn of the loop. -/
def judgeInput (view : FlatView) (txin : CTxIn) : Checking Turn := do
  let prev ← view.getOutputFor txin
  let solved ← liftScript (solver fDatacarrier nMaxDatacarrierBytes prev.scriptPubKey)
  judgeSpending crypto fDatacarrier nMaxDatacarrierBytes txin solved

def areInputsStandard (view : FlatView) (tx : CTransaction) : Checking Bool :=
  if tx.isCoinBase then .ok true
  else run (judgeInput crypto fDatacarrier nMaxDatacarrierBytes view) tx.vin

/-! ## One input -/

/-- A script of a known template, and how many items it asks for. -/
def AsksFor (script : CScript) (typeRet : TxnOutType) (count : Int) : Prop :=
  ∃ vSolutions cltvReleaseBlock,
    solver fDatacarrier nMaxDatacarrierBytes script =
      .ok ⟨true, typeRet, vSolutions, cltvReleaseBlock⟩ ∧
    scriptSigArgsExpected typeRet vSolutions = count ∧ 0 ≤ count

/-- A script of no known template. -/
def Unknown (script : CScript) : Prop :=
  ∃ solved, solver fDatacarrier nMaxDatacarrierBytes script = .ok solved ∧ solved.found = false

/-- The redeem script on top of the items is standard with the right item count, or is of no known
template and has few operations. -/
def RedeemStandard (stack : List Bytes) (count : Int) : Prop :=
  ∃ subscript rest, stack = subscript :: rest ∧
    ((∃ typeRet more, AsksFor fDatacarrier nMaxDatacarrierBytes subscript typeRet more ∧
        (stack.length : Int) = count + more) ∨
      Unknown fDatacarrier nMaxDatacarrierBytes subscript ∧
        getSigOpCount true subscript ≤ maxP2shSigops)

/-- An input that is standard by itself. -/
def InputStandard (view : FlatView) (txin : CTxIn) : Prop :=
  ∃ prev typeRet count stack, view.getOutputFor txin = .ok prev ∧
    AsksFor fDatacarrier nMaxDatacarrierBytes prev.scriptPubKey typeRet count ∧
    evalScript crypto baseSignatureChecker 0 [] txin.scriptSig = .ok stack ∧
    if typeRet = .scripthash then RedeemStandard fDatacarrier nMaxDatacarrierBytes stack count
    else (stack.length : Int) = count

/-- An input that redeems a script hash with a script of no known template. -/
def RedeemsUnknown (view : FlatView) (txin : CTxIn) : Prop :=
  ∃ prev count subscript rest, view.getOutputFor txin = .ok prev ∧
    AsksFor fDatacarrier nMaxDatacarrierBytes prev.scriptPubKey .scripthash count ∧
    evalScript crypto baseSignatureChecker 0 [] txin.scriptSig = .ok (subscript :: rest) ∧
    Unknown fDatacarrier nMaxDatacarrierBytes subscript ∧
    getSigOpCount true subscript ≤ maxP2shSigops

/-! ## One turn -/

theorem asksFor_iff (script : CScript) (typeRet : TxnOutType) (count : Int) (solved : Solved)
    (returned : solver fDatacarrier nMaxDatacarrierBytes script = .ok solved) :
    AsksFor fDatacarrier nMaxDatacarrierBytes script typeRet count ↔
      solved.found = true ∧ solved.typeRet = typeRet ∧
        scriptSigArgsExpected solved.typeRet solved.vSolutions = count ∧ 0 ≤ count := by
  obtain ⟨found, kind, vSolutions, cltvReleaseBlock⟩ := solved
  rw [AsksFor, returned]
  constructor
  · rintro ⟨vSolutions', cltv', same, expected, least⟩
    cases same
    exact ⟨rfl, rfl, expected, least⟩
  · rintro ⟨known, rfl, expected, least⟩
    dsimp only at known expected
    exact ⟨vSolutions, cltvReleaseBlock, by rw [known], expected, least⟩

theorem unknown_iff (script : CScript) (solved : Solved)
    (returned : solver fDatacarrier nMaxDatacarrierBytes script = .ok solved) :
    Unknown fDatacarrier nMaxDatacarrierBytes script ↔ solved.found = false := by
  rw [Unknown, returned]
  constructor
  · rintro ⟨solved', same, unknown⟩
    cases same
    exact unknown
  · exact fun unknown => ⟨solved, rfl, unknown⟩

theorem countItems_cases (stack : List Bytes) (count : Int) :
    (countItems stack count = .continues ↔ (stack.length : Int) = count) ∧
      countItems stack count ≠ .exits true := by
  rw [countItems]
  split
  · rename_i differs
    exact ⟨by simpa using differs, by decide⟩
  · rename_i same
    exact ⟨by simpa using same, by decide⟩

/-- How a redeem script ends the loop, or lets it go on. -/
theorem judgeRedeemScript_cases (stack : List Bytes) (count : Int) :
    (judgeRedeemScript fDatacarrier nMaxDatacarrierBytes stack count = .ok .continues ↔
      ∃ subscript rest typeRet more, stack = subscript :: rest ∧
        AsksFor fDatacarrier nMaxDatacarrierBytes subscript typeRet more ∧
        (stack.length : Int) = count + more) ∧
    (judgeRedeemScript fDatacarrier nMaxDatacarrierBytes stack count = .ok (.exits true) ↔
      ∃ subscript rest, stack = subscript :: rest ∧
        Unknown fDatacarrier nMaxDatacarrierBytes subscript ∧
        getSigOpCount true subscript ≤ maxP2shSigops) := by
  cases stack with
  | nil => simp [judgeRedeemScript]
  | cons subscript rest =>
      cases returned : solver fDatacarrier nMaxDatacarrierBytes subscript with
      | error fault =>
          have judged : judgeRedeemScript fDatacarrier nMaxDatacarrierBytes (subscript :: rest)
              count = .error (.scriptFault fault) := by
            rw [judgeRedeemScript, returned]
            rfl
          simp [judged, AsksFor, Unknown, returned]
      | ok solved =>
          have judged : judgeRedeemScript fDatacarrier nMaxDatacarrierBytes (subscript :: rest)
              count = .ok (if solved.found = true then
                if scriptSigArgsExpected solved.typeRet solved.vSolutions < 0 then .exits false
                else countItems (subscript :: rest)
                  (count + scriptSigArgsExpected solved.typeRet solved.vSolutions)
              else .exits (decide (getSigOpCount true subscript ≤ maxP2shSigops))) := by
            rw [judgeRedeemScript, returned]
            rfl
          have asks := fun typeRet more => asksFor_iff fDatacarrier nMaxDatacarrierBytes subscript
            typeRet more solved returned
          have unknown := unknown_iff fDatacarrier nMaxDatacarrierBytes subscript solved returned
          rw [judged]
          cases known : solved.found with
          | false => simp [asks, unknown, known]
          | true =>
              by_cases negative : scriptSigArgsExpected solved.typeRet solved.vSolutions < 0
              · simp [asks, unknown, known, negative]
              · have counted := countItems_cases (subscript :: rest)
                  (count + scriptSigArgsExpected solved.typeRet solved.vSolutions)
                simp [asks, unknown, known, negative, counted.1, counted.2]
                omega

/-- The rest of a turn, where the output spent has a known template. -/
theorem judgeSpending_cases (txin : CTxIn) (solved : Solved) (known : solved.found = true)
    (least : 0 ≤ scriptSigArgsExpected solved.typeRet solved.vSolutions) :
    (Passes (judgeSpending crypto fDatacarrier nMaxDatacarrierBytes txin) solved ↔
      ∃ stack, evalScript crypto baseSignatureChecker 0 [] txin.scriptSig = .ok stack ∧
        if solved.typeRet = .scripthash then
          RedeemStandard fDatacarrier nMaxDatacarrierBytes stack
            (scriptSigArgsExpected solved.typeRet solved.vSolutions)
        else (stack.length : Int) = scriptSigArgsExpected solved.typeRet solved.vSolutions) ∧
    (Cuts (judgeSpending crypto fDatacarrier nMaxDatacarrierBytes txin) solved ↔
      solved.typeRet = .scripthash ∧ ∃ subscript rest,
        evalScript crypto baseSignatureChecker 0 [] txin.scriptSig = .ok (subscript :: rest) ∧
        Unknown fDatacarrier nMaxDatacarrierBytes subscript ∧
        getSigOpCount true subscript ≤ maxP2shSigops) := by
  rw [Passes, Cuts]
  simp only [judgeSpending, known, Bool.true_eq_false, if_false, if_neg (not_lt.mpr least)]
  cases evaluated : evalScript crypto baseSignatureChecker 0 [] txin.scriptSig with
  | error failure => simp
  | ok stack =>
      by_cases hash : solved.typeRet = .scripthash
      · have redeem := judgeRedeemScript_cases fDatacarrier nMaxDatacarrierBytes stack
          (scriptSigArgsExpected solved.typeRet solved.vSolutions)
        rw [hash] at redeem
        simp only [hash, if_true, redeem.1, redeem.2, Except.ok.injEq, exists_eq_left', true_and,
          RedeemStandard]
        constructor
        · constructor
          · rintro (⟨subscript, rest, typeRet, more, shape, asks, count⟩ |
              ⟨subscript, rest, shape, other⟩)
            · exact ⟨subscript, rest, shape, .inl ⟨typeRet, more, asks, count⟩⟩
            · exact ⟨subscript, rest, shape, .inr other⟩
          · rintro ⟨subscript, rest, shape, ⟨typeRet, more, asks, count⟩ | other⟩
            · exact .inl ⟨subscript, rest, typeRet, more, shape, asks, count⟩
            · exact .inr ⟨subscript, rest, shape, other⟩
        · trivial
      · have counted := countItems_cases stack
          (scriptSigArgsExpected solved.typeRet solved.vSolutions)
        simp [hash, counted.1, counted.2]

/-- An input that is standard by itself does not end the loop with false. -/
theorem judgeInput_cases (view : FlatView) (txin : CTxIn) :
    (Passes (judgeInput crypto fDatacarrier nMaxDatacarrierBytes view) txin ↔
      InputStandard crypto fDatacarrier nMaxDatacarrierBytes view txin) ∧
    (Cuts (judgeInput crypto fDatacarrier nMaxDatacarrierBytes view) txin ↔
      RedeemsUnknown crypto fDatacarrier nMaxDatacarrierBytes view txin) := by
  cases spent : view.getOutputFor txin with
  | error failure =>
      have judged : judgeInput crypto fDatacarrier nMaxDatacarrierBytes view txin =
          .error failure := by
        rw [judgeInput, spent]
        rfl
      simp [Passes, Cuts, judged, InputStandard, RedeemsUnknown, spent]
  | ok prev =>
      cases returned : solver fDatacarrier nMaxDatacarrierBytes prev.scriptPubKey with
      | error fault =>
          have judged : judgeInput crypto fDatacarrier nMaxDatacarrierBytes view txin =
              .error (.scriptFault fault) := by
            rw [judgeInput, spent]
            dsimp only [bind, Except.bind]
            rw [returned]
            rfl
          simp [Passes, Cuts, judged, InputStandard, RedeemsUnknown, spent, AsksFor, returned]
      | ok solved =>
          have asks := fun typeRet more => asksFor_iff fDatacarrier nMaxDatacarrierBytes
            prev.scriptPubKey typeRet more solved returned
          have judged : judgeInput crypto fDatacarrier nMaxDatacarrierBytes view txin =
              judgeSpending crypto fDatacarrier nMaxDatacarrierBytes txin solved := by
            rw [judgeInput, spent]
            dsimp only [bind, Except.bind]
            rw [returned]
            rfl
          by_cases known : solved.found = true ∧
              0 ≤ scriptSigArgsExpected solved.typeRet solved.vSolutions
          · obtain ⟨passes, cuts⟩ := judgeSpending_cases crypto fDatacarrier nMaxDatacarrierBytes
              txin solved known.1 known.2
            rw [Passes] at passes ⊢
            rw [Cuts] at cuts ⊢
            have asked := (asks solved.typeRet
              (scriptSigArgsExpected solved.typeRet solved.vSolutions)).mpr
              ⟨known.1, rfl, rfl, known.2⟩
            rw [judged, passes, cuts]
            constructor
            · constructor
              · rintro ⟨stack, evaluated, items⟩
                exact ⟨prev, _, _, stack, spent, asked, evaluated, items⟩
              · rintro ⟨other, typeRet, count, stack, same, asked', evaluated, items⟩
                rw [spent] at same
                cases same
                obtain ⟨_, rfl, rfl, _⟩ := (asks typeRet count).mp asked'
                exact ⟨stack, evaluated, items⟩
            · constructor
              · rintro ⟨hash, subscript, rest, evaluated, other⟩
                exact ⟨prev, _, subscript, rest, spent, hash ▸ asked, evaluated, other⟩
              · rintro ⟨prev', count, subscript, rest, same, asked', evaluated, other⟩
                rw [spent] at same
                cases same
                obtain ⟨_, hash, _, _⟩ := (asks .scripthash count).mp asked'
                exact ⟨hash, subscript, rest, evaluated, other⟩
          · have fails : judgeSpending crypto fDatacarrier nMaxDatacarrierBytes txin solved =
                .ok (.exits false) := by
              rw [judgeSpending]
              cases found : solved.found with
              | false => rfl
              | true =>
                  have negative : scriptSigArgsExpected solved.typeRet solved.vSolutions < 0 := by
                    by_contra least
                    exact known ⟨found, not_lt.mp least⟩
                  simp [negative]
            have neither : ∀ typeRet count,
                ¬ AsksFor fDatacarrier nMaxDatacarrierBytes prev.scriptPubKey typeRet count := by
              intro typeRet count asked
              rw [asks] at asked
              exact known ⟨asked.1, by rw [asked.2.2.1]; exact asked.2.2.2⟩
            simp [Passes, Cuts, judged, fails, InputStandard, RedeemsUnknown, spent, neither]

theorem isCoinBase_perm (tx : CTransaction) (vin : List CTxIn) (same : vin.Perm tx.vin) :
    ({ tx with vin } : CTransaction).isCoinBase = tx.isCoinBase := by
  simp only [CTransaction.isCoinBase]
  cases inputs : tx.vin with
  | nil =>
      rw [inputs, List.perm_nil] at same
      rw [same]
  | cons first others =>
      cases others with
      | nil =>
          rw [inputs, List.perm_singleton] at same
          rw [same]
      | cons second others =>
          rw [inputs] at same
          have length := same.length_eq
          cases vin with
          | nil => rfl
          | cons one rest =>
              cases rest with
              | nil => simp at length
              | cons two rest => rfl

/-- The policy judges every input, in every order alike, exactly when all inputs are standard or none
redeems a script of no known template. -/
theorem inputs_judged_iff (view : FlatView) (tx : CTransaction) (regular : tx.isCoinBase = false) :
    ((areInputsStandard crypto fDatacarrier nMaxDatacarrierBytes view tx = .ok true ↔
        ∀ txin ∈ tx.vin, InputStandard crypto fDatacarrier nMaxDatacarrierBytes view txin) ∧
      ∀ vin, vin.Perm tx.vin →
        (areInputsStandard crypto fDatacarrier nMaxDatacarrierBytes view { tx with vin } = .ok true ↔
          areInputsStandard crypto fDatacarrier nMaxDatacarrierBytes view tx = .ok true)) ↔
    (∀ txin ∈ tx.vin, InputStandard crypto fDatacarrier nMaxDatacarrierBytes view txin) ∨
      ∀ txin ∈ tx.vin, ¬ RedeemsUnknown crypto fDatacarrier nMaxDatacarrierBytes view txin := by
  have judged := judgesAll_iff (judgeInput crypto fDatacarrier nMaxDatacarrierBytes view) tx.vin
  simp only [(judgeInput_cases crypto fDatacarrier nMaxDatacarrierBytes view _).1,
    (judgeInput_cases crypto fDatacarrier nMaxDatacarrierBytes view _).2, JudgesAll] at judged
  have here : areInputsStandard crypto fDatacarrier nMaxDatacarrierBytes view tx =
      run (judgeInput crypto fDatacarrier nMaxDatacarrierBytes view) tx.vin := by
    simp [areInputsStandard, regular]
  have permuted : ∀ vin, vin.Perm tx.vin →
      areInputsStandard crypto fDatacarrier nMaxDatacarrierBytes view { tx with vin } =
        run (judgeInput crypto fDatacarrier nMaxDatacarrierBytes view) vin := by
    intro vin same
    rw [areInputsStandard, isCoinBase_perm tx vin same, regular]
    rfl
  rw [← judged, here]
  constructor
  · rintro ⟨exactly, alike⟩
    refine ⟨exactly, ?_⟩
    intro vin same
    rw [← permuted vin same]
    exact alike vin same
  · rintro ⟨exactly, alike⟩
    refine ⟨exactly, ?_⟩
    intro vin same
    rw [permuted vin same]
    exact alike vin same

end Policy

/-! ## A redeem script before an output of no known template -/

/-- A script hash, and an output that only has `OP_NOP`. -/
def mixedView : FlatView where
  coins hash :=
    if hash = 5 then
      some ⟨false, [some ⟨1000, [opHash160, 0x14] ++ List.replicate 20 7 ++ [opEqual]⟩,
        some ⟨1000, [0x61]⟩], 0, 1⟩
    else none
  hashBlock := 0

/-- Redeems the script hash with `OP_NOP`. -/
def redeemingInput : CTxIn := ⟨⟨5, 0⟩, [1, 0x61], -1⟩

def strangeInput : CTxIn := ⟨⟨5, 1⟩, [], -1⟩

def mixedTransaction : CTransaction := ⟨1, [redeemingInput, strangeInput], [⟨1000, []⟩], 0⟩

theorem strangeInput_judged :
    judgeInput plainCrypto true 40 mixedView strangeInput = .ok (.exits false) := by
  decide +kernel

theorem strangeInput_nonstandard : ¬ InputStandard plainCrypto true 40 mixedView strangeInput := by
  rw [← (judgeInput_cases plainCrypto true 40 mixedView strangeInput).1, Passes,
    strangeInput_judged]
  decide

theorem inputs_judged_strange :
    (areInputsStandard plainCrypto true 40 mixedView { mixedTransaction with vin := [strangeInput] } =
        .ok true ↔
      ∀ txin ∈ [strangeInput], InputStandard plainCrypto true 40 mixedView txin) ∧
    ∀ vin, vin.Perm [strangeInput] →
      (areInputsStandard plainCrypto true 40 mixedView { mixedTransaction with vin } = .ok true ↔
        areInputsStandard plainCrypto true 40 mixedView
          { mixedTransaction with vin := [strangeInput] } = .ok true) := by
  refine (inputs_judged_iff plainCrypto true 40 mixedView
    { mixedTransaction with vin := [strangeInput] } (by decide)).mpr (.inr ?_)
  intro txin member
  rw [List.mem_singleton.mp member, ← (judgeInput_cases plainCrypto true 40 mixedView _).2, Cuts,
    strangeInput_judged]
  decide

/-- The redeeming input hides the strange one behind it, and not the one before it. -/
theorem redeem_script_hides_input :
    areInputsStandard plainCrypto true 40 mixedView mixedTransaction = .ok true ∧
      ¬ InputStandard plainCrypto true 40 mixedView strangeInput ∧
      areInputsStandard plainCrypto true 40 mixedView
        { mixedTransaction with vin := [strangeInput, redeemingInput] } = .ok false := by
  refine ⟨?_, strangeInput_nonstandard, ?_⟩
  · decide +kernel
  · decide +kernel

end RoiCoin
