import RoiCoin.Validation.ConnectBlock

/-! The assertion of `UpdateCoins` does not fail inside `ConnectBlock`. -/

namespace RoiCoin

open Checked FlatView

/-- Does not fail in the assertion of `UpdateCoins`. -/
abbrev Sound {α : Type} (result : Checking α) : Prop :=
  Avoids (.assertion .updateCoins) result

theorem sound_require (holds : Prop) [Decidable holds] (rejection : Rejection) :
    Sound (require holds (.invalid rejection)) :=
  avoids_require _ holds _ (by simp)

theorem sound_dos (holds : Prop) [Decidable holds] (nDoS : Nat) (reason : String) :
    Sound (require holds (dos nDoS reason)) :=
  sound_require holds _

theorem sound_dosCorrupt (holds : Prop) [Decidable holds] (nDoS : Nat) (reason : String) :
    Sound (require holds (dosCorrupt nDoS reason)) :=
  sound_require holds _

theorem sound_liftScript {α : Type} (result : Except ScriptFault α) :
    Sound (liftScript result) := by
  cases result with
  | ok a => exact avoids_ok _ a
  | error fault => exact (avoids_error _ _).mpr (by simp)

theorem sound_valueOut (vout : List CTxOut) (start : Int) : Sound (valueOutFrom start vout) := by
  induction vout generalizing start with
  | nil => exact avoids_ok _ _
  | cons txout vout ih =>
      apply avoids_bind
      · exact avoids_require _ _ _ (by simp)
      · exact fun _ _ => ih _

theorem sound_checkOutputs (vout : List CTxOut) (start : Int) :
    Sound (checkOutputsFrom start vout) := by
  induction vout generalizing start with
  | nil => exact avoids_ok _ _
  | cons txout vout ih =>
      apply avoids_bind _ _ _ (sound_dos _ _ _)
      intro _ _
      apply avoids_bind _ _ _ (sound_dos _ _ _)
      intro _ _
      exact avoids_bind _ _ _ (sound_dos _ _ _) fun _ _ => ih _

theorem sound_checkDuplicates (vin : List CTxIn) (seen : List COutPoint) :
    Sound (checkDuplicatesFrom seen vin) := by
  induction vin generalizing seen with
  | nil => exact avoids_ok _ _
  | cons txin vin ih => exact avoids_bind _ _ _ (sound_dos _ _ _) fun _ _ => ih _

theorem sound_checkTransaction (tx : CTransaction) : Sound (checkTransaction tx) := by
  apply avoids_bind _ _ _ (sound_dos _ _ _)
  intro _ _
  apply avoids_bind _ _ _ (sound_dos _ _ _)
  intro _ _
  apply avoids_bind _ _ _ (sound_dos _ _ _)
  intro _ _
  apply avoids_bind _ _ _ (sound_checkOutputs _ _)
  intro _ _
  apply avoids_bind _ _ _ (sound_checkDuplicates _ _)
  intro _ _
  split
  · exact sound_dos _ _ _
  · exact sound_dos _ _ _

theorem sound_checkBlock (env : Environment) (block : CBlock) (fCheckPOW fCheckMerkleRoot : Bool) :
    Sound (checkBlock env block fCheckPOW fCheckMerkleRoot) := by
  apply avoids_bind
  · exact avoids_bind _ _ _ (sound_dos _ _ _) fun _ _ => sound_dos _ _ _
  intro _ _
  apply avoids_bind
  · exact avoids_bind _ _ _ (sound_dosCorrupt _ _ _) fun _ _ => sound_dosCorrupt _ _ _
  intro _ _
  apply avoids_bind _ _ _ (sound_dos _ _ _)
  intro _ _
  apply avoids_bind _ _ _ (sound_dos _ _ _)
  intro _ _
  apply avoids_bind _ _ _ (sound_dos _ _ _)
  intro _ _
  apply avoids_bind
  · exact avoids_each _ _ _ fun tx _ => sound_checkTransaction tx
  · exact fun _ _ => sound_dosCorrupt _ _ _

theorem sound_getOutputFor (view : FlatView) (txin : CTxIn) : Sound (view.getOutputFor txin) := by
  rw [getOutputFor]
  split <;> simp

theorem sound_getP2SHSigOpCount (view : FlatView) (tx : CTransaction) :
    Sound (getP2SHSigOpCount view tx) := by
  rw [getP2SHSigOpCount]
  split
  · exact avoids_ok _ _
  · apply avoids_map
    apply avoids_mapM
    intro txin _
    exact avoids_bind _ _ _ (sound_getOutputFor view txin) fun _ _ => avoids_pure _ _

theorem sound_getValueIn (env : Environment) (view : FlatView) (nHeight nValueIn : Int)
    (vin : List CTxIn) : Sound (getValueIn env view nHeight nValueIn vin) := by
  induction vin generalizing nValueIn with
  | nil => exact avoids_ok _ _
  | cons txin vin ih =>
      apply avoids_bind _ _ _ (sound_getOutputFor view txin)
      intro _ _
      exact avoids_bind _ _ _ (sound_liftScript _) fun _ _ => ih _

theorem sound_addInputValues (env : Environment) (view : FlatView) (nSpendHeight nValueIn : Int)
    (vin : List CTxIn) : Sound (addInputValues env view nSpendHeight nValueIn vin) := by
  induction vin generalizing nValueIn with
  | nil => exact avoids_ok _ _
  | cons txin vin ih =>
      apply avoids_bind
      · rw [addInputValue]
        split
        · simp
        · apply avoids_bind _ _ _ (sound_require _ _)
          intro _ _
          apply avoids_bind _ _ _ (sound_liftScript _)
          intro _ _
          exact avoids_bind _ _ _ (sound_dos _ _ _) fun _ _ => avoids_pure _ _
      · exact fun _ _ => ih _

theorem sound_runScriptCheck (env : Environment) (check : CScriptCheck) :
    Sound (runScriptCheck env check) := by
  rw [runScriptCheck]
  split
  · exact avoids_ok _ _
  · dsimp only
    split <;> simp [dos]

theorem sound_checkInputs (env : Environment) (view : FlatView) (tx : CTransaction)
    (fScriptChecks : Bool) (flags : BitVec 32) (defer : Bool) :
    Sound (checkInputs env view tx fScriptChecks flags defer) := by
  rw [checkInputs]
  split
  · exact avoids_ok _ _
  apply avoids_bind
  · apply avoids_bind _ _ _ (sound_require _ _)
    intro _ _
    apply avoids_bind
    · rw [nextHeight]
      split <;> simp
    intro _ _
    apply avoids_bind _ _ _ (sound_addInputValues _ _ _ _ _)
    intro _ _
    apply avoids_bind _ _ _ (sound_valueOut _ _)
    intro _ _
    exact avoids_bind _ _ _ (sound_dos _ _ _) fun _ _ => sound_dos _ _ _
  · intro _ _
    rw [checkInputScripts]
    split
    · exact avoids_ok _ _
    · split
      · exact avoids_ok _ _
      · apply avoids_map
        exact avoids_each _ _ _ fun check _ => sound_runScriptCheck env check

theorem sound_connectInputs (env : Environment) (context : BlockContext) (st : Connecting)
    (tx : CTransaction) : Sound (connectInputs env context st tx) := by
  rw [connectInputs]
  split
  · exact avoids_ok _ _
  apply avoids_bind _ _ _ (sound_dos _ _ _)
  intro _ _
  apply avoids_bind
  · rw [p2shSigOps]
    split
    · exact sound_getP2SHSigOpCount _ _
    · exact avoids_ok _ _
  intro _ _
  apply avoids_bind _ _ _ (sound_dos _ _ _)
  intro _ _
  apply avoids_bind _ _ _ (sound_getValueIn _ _ _ _ _)
  intro _ _
  apply avoids_bind _ _ _ (sound_valueOut _ _)
  intro _ _
  exact avoids_bind _ _ _ (sound_checkInputs _ _ _ _ _ _) fun _ _ => avoids_pure _ _

/-- Distinct inputs that the loop has found available leave nothing for the assertion. -/
theorem updateCoins_total (env : Environment) (context : BlockContext) (st middle : Connecting)
    (tx : CTransaction) (checked : CheckedTransaction tx)
    (inputs : connectInputs env context st tx = .ok middle) :
    ∃ result, updateCoins env context.nHeight middle.view tx = .ok result := by
  obtain ⟨spends, -, sameView, -⟩ := connectInputs_ok env context st middle tx checked inputs
  have spent : ∃ result, spendInputs middle.view tx.spentInputs = .ok result := by
    rw [sameView, CTransaction.spentInputs]
    cases special : tx.isCoinBase with
    | true => exact ⟨_, rfl⟩
    | false =>
        rw [if_neg Bool.false_ne_true]
        apply spendInputs_total _ _ (names_nodup tx.vin checked.distinct)
        intro txin member
        obtain ⟨nSpendHeight, -, found⟩ := spends special
        obtain ⟨coin, present, -⟩ := found.spends txin member
        exact (haveInput_iff st.view txin).mpr (Option.isSome_iff_exists.mpr ⟨coin, present⟩)
  obtain ⟨⟨txundo, view⟩, spent⟩ := spent
  rw [updateCoins, spent]
  exact ⟨_, rfl⟩

theorem sound_connectTxs (env : Environment) (context : BlockContext) (i : Nat) (st : Connecting)
    (vtx : List CTransaction) (checked : ∀ tx ∈ vtx, CheckedTransaction tx) :
    Sound (connectTxs env context i st vtx) := by
  induction vtx generalizing i st with
  | nil => exact avoids_ok _ _
  | cons tx vtx ih =>
      rw [List.forall_mem_cons] at checked
      apply avoids_bind
      · apply avoids_bind _ _ _ (sound_dos _ _ _)
        intro _ _
        apply avoids_bind _ _ _ (sound_connectInputs _ _ _ _)
        intro middle inputs
        obtain ⟨result, updated⟩ := updateCoins_total env context _ middle tx checked.1 inputs
        rw [updated]
        exact avoids_ok _ _
      · exact fun _ _ => ih _ _ checked.2

theorem connectBlock_asserts_not (env : Environment) (block : CBlock) (pindex : CBlockIndex)
    (view : FlatView) (fJustCheck : Bool) : Sound (connectBlock env block pindex view fJustCheck) := by
  apply avoids_bind _ _ _ (sound_checkBlock _ _ _ _)
  intro _ passed
  apply avoids_bind
  · exact avoids_require _ _ _ (by simp)
  intro _ _
  split
  · rw [connectGenesis]
    split
    · exact avoids_ok _ _
    · split <;> simp
  · have checked := (checkBlock_ok env block _ _ passed).checked
    apply avoids_bind
    · rw [checkBIP30]
      split
      · exact avoids_each _ _ _ fun _ _ => sound_dos _ _ _
      · exact avoids_ok _ _
    intro _ _
    apply avoids_bind _ _ _ (sound_connectTxs _ _ _ _ _ checked)
    intro _ _
    apply avoids_bind _ _ _ (sound_require _ _)
    intro _ _
    rw [finishBlock]
    split
    · exact avoids_ok _ _
    · split <;> simp

end RoiCoin
