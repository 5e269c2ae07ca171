import RoiCoin.Script.SoftFork
import RoiCoin.Validation.AcceptToMemoryPool

/-! Validation whose script checks are made by the interpreter. -/

namespace RoiCoin

open Checked FlatView

/-- The script checks of `CScriptCheck::operator()`. The signature cache only remembers what has
been verified; an assertion ends the process and counts as a failed check here. -/
def interpretScript (crypto : Crypto) (ptxTo : CTransaction) (nIn : Nat) (scriptPubKey : CScript)
    (nFlags : BitVec 32) : Option String :=
  let scriptSig := (ptxTo.vin[nIn]?).elim [] CTxIn.scriptSig
  match verifyScript crypto (transactionSignatureChecker crypto ptxTo nIn) nFlags scriptSig
    scriptPubKey with
  | .ok () => none
  | .error (.serror serror) => some (scriptErrorString serror)
  | .error .assertion => some "assertion"

def Environment.interpreting (env : Environment) (crypto : Crypto) : Environment :=
  { env with verifyScript := interpretScript crypto }

theorem interpretScript_none (crypto : Crypto) (ptxTo : CTransaction) (nIn : Nat)
    (scriptPubKey : CScript) (nFlags : BitVec 32) :
    interpretScript crypto ptxTo nIn scriptPubKey nFlags = none ↔
      verifyScript crypto (transactionSignatureChecker crypto ptxTo nIn) nFlags
        ((ptxTo.vin[nIn]?).elim [] CTxIn.scriptSig) scriptPubKey = .ok () := by
  rw [interpretScript]
  split
  · rename_i accepted
    exact ⟨fun _ => accepted, fun _ => rfl⟩
  · rename_i refused
    rw [refused]
    simp
  · rename_i refused
    rw [refused]
    simp

theorem runScriptCheck_ok (env : Environment) (check : CScriptCheck) :
    runScriptCheck env check = .ok () ↔ check.failed env = none := by
  rw [runScriptCheck]
  split
  · rename_i passed
    simp [passed]
  · rename_i scriptError failed
    rw [failed]
    dsimp only
    split <;> simp

/-- The checks made at once succeed just when every input is accepted. -/
theorem checkInputScripts_ok (env : Environment) (view : FlatView) (tx : CTransaction)
    (flags : BitVec 32) (vChecks : List CScriptCheck) :
    checkInputScripts env view tx true flags false = .ok vChecks ↔
      (∀ check ∈ scriptChecks view tx flags, check.failed env = none) ∧ vChecks = [] := by
  simp only [checkInputScripts, Bool.not_true, Bool.false_eq_true, if_false, map_ok]
  constructor
  · rintro ⟨_, passed, same⟩
    rw [each_ok] at passed
    exact ⟨fun check member => (runScriptCheck_ok env check).mp (passed check member), same.symm⟩
  · rintro ⟨passed, same⟩
    refine ⟨(), ?_, same.symm⟩
    rw [each_ok]
    exact fun check member => (runScriptCheck_ok env check).mpr (passed check member)

/-- Checks of the same inputs under other flags. -/
theorem scriptChecks_flags (view : FlatView) (tx : CTransaction) (flags other : BitVec 32)
    (check : CScriptCheck) (member : check ∈ scriptChecks view tx flags) :
    check.nFlags = flags ∧ { check with nFlags := other } ∈ scriptChecks view tx other := by
  rw [scriptChecks, List.mem_map] at member
  obtain ⟨⟨txin, nIn⟩, place, rfl⟩ := member
  refine ⟨rfl, ?_⟩
  rw [scriptChecks, List.mem_map]
  exact ⟨(txin, nIn), place, rfl⟩

theorem mandatory_standard : SoftFork mandatoryScriptVerifyFlags standardScriptVerifyFlags := by
  constructor <;> decide

/-- A script accepted under more flags is accepted under fewer, whoever checks the signatures; and
the check of a loose transaction against the mandatory flags never fails after the one against the
standard flags. -/
theorem soft_fork_monotone (crypto : Crypto) (checker : BaseSignatureChecker)
    (fewer more : BitVec 32) (fork : SoftFork fewer more) (scriptSig scriptPubKey : CScript)
    (env : Environment) (view : FlatView) (tx : CTransaction) (vChecks : List CScriptCheck) :
    (verifyScript crypto checker more scriptSig scriptPubKey = .ok () →
      verifyScript crypto checker fewer scriptSig scriptPubKey = .ok ()) ∧
    (checkInputs (env.interpreting crypto) view tx true standardScriptVerifyFlags false =
        .ok vChecks →
      checkInputs (env.interpreting crypto) view tx true mandatoryScriptVerifyFlags false =
        .ok vChecks) := by
  refine ⟨stricter_verifyScript crypto checker fewer more fork scriptSig scriptPubKey (), ?_⟩
  intro standard
  rw [checkInputs] at standard ⊢
  split
  · rename_i special
    rwa [if_pos special] at standard
  · rename_i regular
    rw [if_neg regular] at standard
    simp only [bind_ok, checkInputScripts_ok] at standard ⊢
    obtain ⟨_, inputs, passed, same⟩ := standard
    refine ⟨_, inputs, ?_, same⟩
    intro check member
    obtain ⟨flags, twin⟩ :=
      scriptChecks_flags view tx _ standardScriptVerifyFlags check member
    have accepted := (interpretScript_none crypto _ _ _ _).mp (passed _ twin)
    rw [CScriptCheck.failed, flags]
    apply (interpretScript_none crypto _ _ _ _).mpr
    exact stricter_verifyScript crypto _ _ _ mandatory_standard _ _ () accepted

/-- A view with one output that asks for the number one. -/
def oneOutputView : FlatView where
  coins hash := if hash = 5 then some ⟨false, [some ⟨1000, [0x51, 0x87]⟩], 0, 1⟩ else none
  hashBlock := mainHashGenesisBlock

def oneInputTransaction : CTransaction := ⟨1, [⟨⟨5, 0⟩, [0x51], -1⟩], [⟨1000, []⟩], 0⟩

def plainCrypto : Crypto := ⟨id, id, id, id, id, fun _ _ _ => true⟩

theorem soft_fork_monotone_applied :
    verifyScript plainCrypto ⟨fun _ _ _ => false, fun _ => false⟩ mandatoryScriptVerifyFlags [0x51]
        [0x51, 0x87] = .ok () ∧
      checkInputs (plainEnvironment.interpreting plainCrypto) oneOutputView oneInputTransaction
        true mandatoryScriptVerifyFlags false = .ok [] :=
  have both := soft_fork_monotone plainCrypto ⟨fun _ _ _ => false, fun _ => false⟩ _ _
    mandatory_standard [0x51] [0x51, 0x87] plainEnvironment oneOutputView oneInputTransaction []
  ⟨both.1 (by decide +kernel), both.2 (by decide +kernel)⟩

end RoiCoin
