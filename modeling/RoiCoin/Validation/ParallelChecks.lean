import RoiCoin.CheckQueueWait
import RoiCoin.Validation.ScriptChecks

/-! Connecting a block with and without threads for the script checks. -/

namespace RoiCoin

open Checked FlatView

def Environment.threaded (env : Environment) (nScriptCheckThreads : Nat) : Environment :=
  { env with nScriptCheckThreads }

/-! ## What does not depend on the threads -/

theorem getValueIn_threaded (env : Environment) (threads : Nat) (view : FlatView)
    (nHeight nValueIn : Int) (vin : List CTxIn) :
    getValueIn (env.threaded threads) view nHeight nValueIn vin =
      getValueIn env view nHeight nValueIn vin := by
  induction vin generalizing nValueIn with
  | nil => rfl
  | cons txin vin ih =>
      simp only [getValueIn, ih]
      rfl

theorem addInputValues_threaded (env : Environment) (threads : Nat) (view : FlatView)
    (nSpendHeight nValueIn : Int) (vin : List CTxIn) :
    addInputValues (env.threaded threads) view nSpendHeight nValueIn vin =
      addInputValues env view nSpendHeight nValueIn vin := by
  induction vin generalizing nValueIn with
  | nil => rfl
  | cons txin vin ih =>
      simp only [addInputValues, ih]
      rfl

theorem checkTxInputs_threaded (env : Environment) (threads : Nat) (view : FlatView)
    (tx : CTransaction) :
    checkTxInputs (env.threaded threads) view tx = checkTxInputs env view tx := by
  simp only [checkTxInputs, addInputValues_threaded]
  rfl

theorem superMajorityLoop_threaded (env : Environment) (threads : Nat) (minVersion : Int)
    (nRequired fuel nFound : Nat) (pstart : Option CBlockIndex) :
    superMajorityLoop (env.threaded threads) minVersion nRequired fuel nFound pstart =
      superMajorityLoop env minVersion nRequired fuel nFound pstart := by
  induction fuel generalizing nFound pstart with
  | zero => rfl
  | succ fuel ih =>
      cases pstart with
      | none => rfl
      | some pindex =>
          simp only [superMajorityLoop, ih]
          rfl

theorem blockContext_threaded (env : Environment) (threads : Nat) (block : CBlock)
    (pindex : CBlockIndex) :
    blockContext (env.threaded threads) block pindex = blockContext env block pindex := by
  simp only [blockContext, upgradeFlag, isSuperMajority, superMajorityLoop_threaded]
  rfl

theorem checkInputs_threaded (env : Environment) (threads : Nat) (view : FlatView)
    (tx : CTransaction) (fScriptChecks : Bool) (flags : BitVec 32) (defer : Bool) :
    checkInputs (env.threaded threads) view tx fScriptChecks flags defer =
      checkInputs env view tx fScriptChecks flags defer := by
  simp only [checkInputs, checkTxInputs_threaded]
  rfl

/-! ## The checks of a transaction, made at once or queued -/

/-- The loop's variables with the checks made at once. -/
def Connecting.unqueued (st : Connecting) : Connecting := { st with control := [] }

/-- Every queued check succeeds. -/
def Connecting.Passes (env : Environment) (st : Connecting) : Prop :=
  ∀ check ∈ st.control, check.failed env = none

theorem unqueued_passes (env : Environment) (st : Connecting) : st.unqueued.Passes env :=
  fun _ member => absurd member List.not_mem_nil

theorem checkInputScripts_queued (env : Environment) (view : FlatView) (tx : CTransaction)
    (fScriptChecks : Bool) (flags : BitVec 32) :
    (∃ vChecks, checkInputScripts env view tx fScriptChecks flags true = .ok vChecks ∧
      ∀ check ∈ vChecks, check.failed env = none) ↔
      checkInputScripts env view tx fScriptChecks flags false = .ok [] := by
  cases fScriptChecks with
  | false => simp [checkInputScripts]
  | true =>
      rw [checkInputScripts_ok]
      simp [checkInputScripts]

theorem checkInputs_queued (env : Environment) (view : FlatView) (tx : CTransaction)
    (fScriptChecks : Bool) (flags : BitVec 32) :
    (∃ vChecks, checkInputs env view tx fScriptChecks flags true = .ok vChecks ∧
      ∀ check ∈ vChecks, check.failed env = none) ↔
      checkInputs env view tx fScriptChecks flags false = .ok [] := by
  rw [checkInputs, checkInputs]
  split
  · simp
  · simp only [bind_ok]
    rw [← checkInputScripts_queued]
    constructor
    · rintro ⟨vChecks, ⟨_, inputs, queued⟩, passes⟩
      exact ⟨(), inputs, vChecks, queued, passes⟩
    · rintro ⟨_, inputs, vChecks, queued, passes⟩
      exact ⟨vChecks, ⟨(), inputs, queued⟩, passes⟩

theorem checkInputs_immediate (env : Environment) (view : FlatView) (tx : CTransaction)
    (fScriptChecks : Bool) (flags : BitVec 32) (vChecks : List CScriptCheck)
    (passed : checkInputs env view tx fScriptChecks flags false = .ok vChecks) : vChecks = [] := by
  rw [checkInputs] at passed
  split at passed
  · cases passed
    rfl
  · rw [bind_ok] at passed
    obtain ⟨_, -, made⟩ := passed
    cases fScriptChecks with
    | false =>
        cases made
        rfl
    | true => exact ((checkInputScripts_ok env view tx flags vChecks).mp made).2

theorem connectInputs_threaded (env : Environment) (threads : Nat) (some_threads : threads ≠ 0)
    (context : BlockContext) (st result : Connecting) (tx : CTransaction) :
    (∃ st', connectInputs (env.threaded threads) context st tx = .ok st' ∧ st'.Passes env ∧
      st'.unqueued = result) ↔
      st.Passes env ∧ connectInputs (env.threaded 0) context st.unqueued tx = .ok result := by
  have queued : ((env.threaded threads).nScriptCheckThreads != 0) = true :=
    bne_iff_ne.mpr some_threads
  have immediate : ((env.threaded 0).nScriptCheckThreads != 0) = false := rfl
  rw [connectInputs]
  simp only [connectInputs, queued, immediate, getValueIn_threaded, checkInputs_threaded]
  split
  · constructor
    · rintro ⟨_, same, passes, rfl⟩
      cases same
      exact ⟨passes, rfl⟩
    · rintro ⟨passes, same⟩
      cases same
      exact ⟨st, rfl, passes, rfl⟩
  · simp only [bind_ok, pure_ok]
    constructor
    · rintro ⟨_, ⟨_, unspent, nP2SH, counted, _, small, nValueIn, valueIn, nValueOut, valueOut,
        vChecks, checked, rfl⟩, passes, rfl⟩
      refine ⟨fun check member => passes check (List.mem_append_left _ member), (), unspent, nP2SH,
        counted, (), small, nValueIn, valueIn, nValueOut, valueOut, [], ?_, rfl⟩
      exact (checkInputs_queued env st.view tx _ _).mp
        ⟨vChecks, checked, fun check member => passes check (List.mem_append_right _ member)⟩
    · rintro ⟨passes, _, unspent, nP2SH, counted, _, small, nValueIn, valueIn, nValueOut, valueOut,
        none_left, checked, rfl⟩
      have nothing := checkInputs_immediate env _ tx _ _ none_left checked
      subst nothing
      obtain ⟨vChecks, queued, succeed⟩ := (checkInputs_queued env st.view tx _ _).mpr checked
      refine ⟨_, ⟨(), unspent, nP2SH, counted, (), small, nValueIn, valueIn, nValueOut, valueOut,
        vChecks, queued, rfl⟩, ?_, rfl⟩
      intro check member
      rcases List.mem_append.mp member with before | own
      · exact passes check before
      · exact succeed check own

theorem connectTx_threaded (env : Environment) (threads : Nat) (some_threads : threads ≠ 0)
    (context : BlockContext) (i : Nat) (st result : Connecting) (tx : CTransaction) :
    (∃ st', connectTx (env.threaded threads) context i st tx = .ok st' ∧ st'.Passes env ∧
      st'.unqueued = result) ↔
      st.Passes env ∧ connectTx (env.threaded 0) context i st.unqueued tx = .ok result := by
  have inputs := fun middle => connectInputs_threaded env threads some_threads context
    { st with nSigOps := st.nSigOps + getLegacySigOpCount tx } middle tx
  simp only [connectTx, bind_ok, pure_ok, Prod.exists]
  constructor
  · rintro ⟨_, ⟨_, counted, middle, connected, txundo, view, updated, rfl⟩, passes, rfl⟩
    obtain ⟨before, first⟩ := (inputs middle.unqueued).mp ⟨middle, connected, passes, rfl⟩
    exact ⟨before, (), counted, middle.unqueued, first, txundo, view, updated, rfl⟩
  · rintro ⟨before, _, counted, _, first, txundo, view, updated, rfl⟩
    obtain ⟨middle, connected, passes, rfl⟩ := (inputs _).mpr ⟨before, first⟩
    exact ⟨_, ⟨(), counted, middle, connected, txundo, view, updated, rfl⟩, passes, rfl⟩

theorem connectTxs_threaded (env : Environment) (threads : Nat) (some_threads : threads ≠ 0)
    (context : BlockContext) (i : Nat) (st result : Connecting) (vtx : List CTransaction) :
    (∃ st', connectTxs (env.threaded threads) context i st vtx = .ok st' ∧ st'.Passes env ∧
      st'.unqueued = result) ↔
      st.Passes env ∧ connectTxs (env.threaded 0) context i st.unqueued vtx = .ok result := by
  induction vtx generalizing i st with
  | nil =>
      constructor
      · rintro ⟨_, same, passes, rfl⟩
        cases same
        exact ⟨passes, rfl⟩
      · rintro ⟨passes, same⟩
        cases same
        exact ⟨st, rfl, passes, rfl⟩
  | cons tx vtx ih =>
      simp only [connectTxs, bind_ok]
      constructor
      · rintro ⟨st', ⟨middle, first, rest⟩, passes, same⟩
        obtain ⟨between, others⟩ := (ih (i + 1) middle).mp ⟨st', rest, passes, same⟩
        obtain ⟨before, own⟩ := (connectTx_threaded env threads some_threads context i st _ tx).mp
          ⟨middle, first, between, rfl⟩
        exact ⟨before, _, own, others⟩
      · rintro ⟨before, _, own, others⟩
        obtain ⟨middle, first, between, rfl⟩ :=
          (connectTx_threaded env threads some_threads context i st _ tx).mpr ⟨before, own⟩
        obtain ⟨st', rest, passes, same⟩ := (ih (i + 1) middle).mpr ⟨between, others⟩
        exact ⟨st', ⟨middle, first, rest⟩, passes, same⟩

theorem connectTransactions_threaded (env : Environment) (threads : Nat)
    (some_threads : threads ≠ 0) (block : CBlock) (pindex : CBlockIndex) (view : FlatView)
    (fJustCheck : Bool) (result : Connected) :
    connectTransactions (env.threaded threads) block pindex view fJustCheck = .ok result ↔
      connectTransactions (env.threaded 0) block pindex view fJustCheck = .ok result := by
  have loops := fun final => connectTxs_threaded env threads some_threads
    (blockContext env block pindex) 0 ⟨view, 0, 0, [], []⟩ final block.vtx
  simp only [connectTransactions, blockContext_threaded, bind_ok, require_ok]
  constructor
  · rintro ⟨_, bip30, st, connected, _, passes, finished⟩
    obtain ⟨-, sequential⟩ := (loops st.unqueued).mp ⟨st, connected, passes, rfl⟩
    exact ⟨(), bip30, st.unqueued, sequential, (), unqueued_passes env st, finished⟩
  · rintro ⟨_, bip30, st, connected, _, -, finished⟩
    obtain ⟨st', parallel, passes, rfl⟩ :=
      (loops st).mpr ⟨unqueued_passes env ⟨view, 0, 0, [], []⟩, connected⟩
    exact ⟨(), bip30, st', parallel, (), passes, finished⟩

/-- A block is connected with script check threads just when it is connected without them, and
with the same result. -/
theorem connectBlock_threaded (env : Environment) (threads : Nat) (block : CBlock)
    (pindex : CBlockIndex) (view : FlatView) (fJustCheck : Bool) (result : Connected) :
    connectBlock (env.threaded threads) block pindex view fJustCheck = .ok result ↔
      connectBlock (env.threaded 0) block pindex view fJustCheck = .ok result := by
  by_cases none_there : threads = 0
  · rw [none_there]
  · have special : (env.threaded threads).blockHash block.header =
        (env.threaded threads).params.hashGenesisBlock ↔
        (env.threaded 0).blockHash block.header = (env.threaded 0).params.hashGenesisBlock := Iff.rfl
    simp only [connectBlock, bind_ok]
    constructor
    · rintro ⟨_, checked, _, best, rest⟩
      refine ⟨(), checked, (), best, ?_⟩
      split
      · rename_i genesis
        rwa [if_pos (special.mpr genesis)] at rest
      · rename_i regular
        rw [if_neg fun genesis => regular (special.mp genesis)] at rest
        exact (connectTransactions_threaded env threads none_there block pindex view _ _).mp rest
    · rintro ⟨_, checked, _, best, rest⟩
      refine ⟨(), checked, (), best, ?_⟩
      split
      · rename_i genesis
        rwa [if_pos (special.mp genesis)] at rest
      · rename_i regular
        rw [if_neg fun genesis => regular (special.mpr genesis)] at rest
        exact (connectTransactions_threaded env threads none_there block pindex view _ _).mpr rest

/-! ## The size of a round -/

theorem scriptChecks_length (view : FlatView) (tx : CTransaction) (flags : BitVec 32) :
    (scriptChecks view tx flags).length = tx.vin.length := by
  rw [scriptChecks, List.length_map, List.length_zipIdx]

theorem checkInputs_length (env : Environment) (view : FlatView) (tx : CTransaction)
    (fScriptChecks : Bool) (flags : BitVec 32) (defer : Bool) (vChecks : List CScriptCheck)
    (passed : checkInputs env view tx fScriptChecks flags defer = .ok vChecks) :
    vChecks.length ≤ tx.vin.length := by
  cases defer with
  | false =>
      rw [checkInputs_immediate env view tx fScriptChecks flags vChecks passed]
      exact Nat.zero_le _
  | true =>
      rw [checkInputs] at passed
      split at passed
      · cases passed
        exact Nat.zero_le _
      · rw [bind_ok] at passed
        obtain ⟨_, -, queued⟩ := passed
        cases fScriptChecks with
        | false =>
            cases queued
            exact Nat.zero_le _
        | true =>
            cases queued
            exact Nat.le_of_eq (scriptChecks_length view tx flags)

theorem connectTx_length (env : Environment) (context : BlockContext) (i : Nat)
    (st st' : Connecting) (tx : CTransaction) (passed : connectTx env context i st tx = .ok st') :
    st'.control.length ≤ st.control.length + tx.vin.length := by
  simp only [connectTx, connectInputs, bind_ok, pure_ok, Prod.exists] at passed
  obtain ⟨_, -, middle, inputs, txundo, view, -, rfl⟩ := passed
  split at inputs
  · cases inputs
    exact Nat.le_add_right _ _
  · simp only [bind_ok, pure_ok] at inputs
    obtain ⟨_, -, nP2SH, -, _, -, nValueIn, -, nValueOut, -, vChecks, checked, rfl⟩ := inputs
    have few := checkInputs_length env _ tx _ _ _ vChecks checked
    simp only [List.length_append]
    omega

theorem connectTxs_length (env : Environment) (context : BlockContext) (i : Nat)
    (st st' : Connecting) (vtx : List CTransaction)
    (connected : connectTxs env context i st vtx = .ok st') :
    st'.control.length ≤ st.control.length + (vtx.map CTransaction.serializeSize).sum := by
  induction vtx generalizing i st with
  | nil =>
      cases connected
      exact Nat.le_add_right _ _
  | cons tx vtx ih =>
      rw [connectTxs, bind_ok] at connected
      obtain ⟨middle, first, rest⟩ := connected
      have own := connectTx_length env context i st middle tx first
      have size := vin_length_le tx
      have others := ih (i + 1) middle rest
      rw [List.map_cons, List.sum_cons]
      omega

/-- The checks of a block do not exhaust the counter of the queue. -/
theorem control_few (env : Environment) (block : CBlock) (fCheckPOW fCheckMerkleRoot : Bool)
    (checked : checkBlock env block fCheckPOW fCheckMerkleRoot = .ok ()) (context : BlockContext)
    (view : FlatView) (st : Connecting)
    (connected : connectTxs env context 0 ⟨view, 0, 0, [], []⟩ block.vtx = .ok st) :
    st.control.length < 2 ^ 32 := by
  simp only [checkBlock, then_ok, require_ok] at checked
  obtain ⟨-, -, ⟨-, -, sized⟩, -⟩ := checked
  have count := connectTxs_length env context 0 _ st block.vtx connected
  rw [CBlock.serializeSize] at sized
  simp only [List.length_nil, maxBlockSize] at count sized
  omega

/-- `Wait` gives the queued checks of a block the answer that connecting the block asks for. -/
theorem block_round (env : Environment) (nBatchSizeIn workers : Nat)
    (actions : List (QueueAction CScriptCheck)) (st : Connecting) (round : Round CScriptCheck)
    (few : Runs.Always (Checkers.step fun check => (check.failed env).isNone)
      (fun s => s.added.length < 2 ^ 32) (.start nBatchSizeIn workers) actions)
    (returned : round ∈ (Runs.run (Checkers.step fun check => (check.failed env).isNone)
      (.start nBatchSizeIn workers) actions).rounds) (whole : round.added = st.control) :
    round.fRet = true ↔ st.Passes env := by
  have reached := Checkers.run_reached _ nBatchSizeIn workers actions few
  rw [(reached.rounds round returned).1, whole, List.all_eq_true]
  simp only [Option.isNone_iff_eq_none, Connecting.Passes]

end RoiCoin
