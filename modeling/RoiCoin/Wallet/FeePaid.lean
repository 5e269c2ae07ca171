import RoiCoin.Wallet.Balance
import RoiCoin.Wallet.CreateTransaction

/-! The fee loop of `CreateTransaction` ends, and what it returns pays the fee it reports. -/

namespace RoiCoin

open Checked Totals

theorem walleting_ok {α : Type} (read : Walleting α) (a : α) :
    walleting read = .ok a ↔ read = .ok a := by
  cases read <;> simp [walleting]

/-! ## The coins on offer -/

section Coins

variable (w : CWalletStore) (node : NodeView)

/-- The outputs of the wallet's transactions by name. -/
def ownCoins (entry : Uint256 × CWalletTx) : List WalletCoin :=
  entry.2.tx.vout.zipIdx.map fun output => (entry.1, output.2)

theorem ownCoins_distinct : (w.mapWallet.flatMap ownCoins).Nodup := by
  have keys : w.mapWallet.Pairwise fun a b => a.1 ≠ b.1 := List.pairwise_map.mp w.distinct
  rw [List.nodup_flatMap]
  refine ⟨fun entry _ => ?_, keys.imp fun other => ?_⟩
  · have indices : (entry.2.tx.vout.zipIdx.map Prod.snd).Nodup := by
      rw [List.zipIdx_map_snd]
      exact List.nodup_range'
    have pairs : ownCoins entry =
        (entry.2.tx.vout.zipIdx.map Prod.snd).map fun i => (entry.1, i) := by
      rw [ownCoins, List.map_map]
      rfl
    rw [pairs]
    exact indices.map fun i j same => (Prod.mk.inj same).2
  · intro coin first second
    obtain ⟨_, -, rfl⟩ := List.mem_map.mp first
    obtain ⟨_, -, same⟩ := List.mem_map.mp second
    exact other (Prod.mk.inj same).1.symm

/-- What `AvailableCoins` makes of an output. -/
theorem availableOutput_some (coinControl : Option CCoinControl) (fIncludeZeroValue : Bool)
    (wtxid : Uint256) (pcoin : CWalletTx) (nDepth : Int) (output : CTxOut × Nat) (out : COutput)
    (returned : w.availableOutput node coinControl fIncludeZeroValue wtxid pcoin nDepth output =
      .ok (some out)) : out.tx = pcoin ∧ out.i = output.2 := by
  rw [CWalletStore.availableOutput, bind_ok] at returned
  obtain ⟨locked, -, returned⟩ := returned
  split at returned
  · cases returned
  · rw [bind_ok] at returned
    obtain ⟨mine, -, returned⟩ := returned
    split at returned
    · cases returned
      exact ⟨rfl, rfl⟩
    · cases returned

theorem outputs_own (fOnlyConfirmed : Bool) (coinControl : Option CCoinControl)
    (fIncludeZeroValue : Bool) (entry : Uint256 × CWalletTx) (keyed : entry.2.hash = entry.1)
    (outputs : List COutput)
    (returned : w.availableOutputs node fOnlyConfirmed coinControl fIncludeZeroValue entry =
      .ok outputs) :
    (outputs.map COutput.coin).Sublist (ownCoins entry) ∧ ∀ out ∈ outputs, out.tx = entry.2 := by
  rw [CWalletStore.availableOutputs, bind_ok] at returned
  obtain ⟨counted, -, returned⟩ := returned
  split at returned
  · simp only [bind_ok, pure_ok] at returned
    obtain ⟨results, found, rfl⟩ := returned
    constructor
    · apply results_sublist COutput.coin (fun output => (entry.1, output.2)) found
      intro output out offered
      obtain ⟨pcoin, position⟩ := availableOutput_some w node _ _ _ _ _ _ _ offered
      rw [COutput.coin, pcoin, position, keyed]
    · intro out member
      obtain ⟨output, -, offered⟩ :=
        mapM_mem found (some out) (List.reduceOption_mem_iff.mp member)
      exact (availableOutput_some w node _ _ _ _ _ _ _ offered).1
  · cases returned
    exact ⟨List.nil_sublist _, fun _ member => absurd member List.not_mem_nil⟩

/-- No coin is offered twice. -/
theorem availableCoins_distinct (fOnlyConfirmed : Bool) (coinControl : Option CCoinControl)
    (fIncludeZeroValue : Bool) (vCoins : List COutput)
    (returned : w.availableCoins node fOnlyConfirmed coinControl fIncludeZeroValue = .ok vCoins) :
    (vCoins.map COutput.coin).Nodup := by
  simp only [CWalletStore.availableCoins, bind_ok, pure_ok] at returned
  obtain ⟨lists, found, rfl⟩ := returned
  have part := flatten_sublist COutput.coin ownCoins found fun entry member outputs offered =>
    (outputs_own w node _ _ _ entry (w.keyed entry member) outputs offered).1
  exact part.nodup (ownCoins_distinct w)

theorem getWalletTx_mem (entry : Uint256 × CWalletTx) (member : entry ∈ w.mapWallet) :
    w.getWalletTx entry.1 = some entry.2 := by
  have distinct := w.distinct
  rw [CWalletStore.getWalletTx]
  generalize w.mapWallet = mapWallet at member distinct
  induction mapWallet with
  | nil => cases member
  | cons first rest ih =>
      rw [List.map_cons, List.nodup_cons] at distinct
      cases member with
      | head => simp
      | tail _ later =>
          have other : (first.1 == entry.1) = false := by
            rw [beq_eq_false_iff_ne]
            intro same
            exact distinct.1 (same ▸ List.mem_map_of_mem later)
          rw [List.find?_cons, other]
          exact ih later distinct.2

theorem availableCoins_own (fOnlyConfirmed : Bool) (coinControl : Option CCoinControl)
    (fIncludeZeroValue : Bool) (vCoins : List COutput)
    (returned : w.availableCoins node fOnlyConfirmed coinControl fIncludeZeroValue = .ok vCoins)
    (out : COutput) (member : out ∈ vCoins) : w.getWalletTx out.tx.hash = some out.tx := by
  simp only [CWalletStore.availableCoins, bind_ok, pure_ok] at returned
  obtain ⟨lists, found, rfl⟩ := returned
  obtain ⟨outputs, listed, there⟩ := List.mem_flatten.mp member
  obtain ⟨entry, owner, offered⟩ := mapM_mem found outputs listed
  have keyed := w.keyed entry owner
  rw [(outputs_own w node _ _ _ entry keyed outputs offered).2 out there, keyed]
  exact getWalletTx_mem w entry owner

/-! ## The coins selected -/

/-- A coin of the wallet with its value in the next block. -/
def WorthNext (coin : ValuedCoin) : Prop :=
  ∃ wtx txout, w.getWalletTx coin.2.1 = some wtx ∧ wtx.output coin.2.2 = .ok txout ∧
    wtx.nextValue node txout = .ok coin.1

/-- The coins of a selection, with their values. -/
def Selects (s : SelectedCoins) : Prop :=
  ∃ coins : List ValuedCoin, s.setCoinsRet = coins.map Prod.snd ∧ (coins.map Prod.snd).Nodup ∧
    (∀ coin ∈ coins, WorthNext w node coin) ∧ s.nValueRet = (coins.map Prod.fst).sum

theorem takeSelected_selects (vCoins : List COutput)
    (own : ∀ out ∈ vCoins, w.getWalletTx out.tx.hash = some out.tx)
    (distinct : (vCoins.map COutput.coin).Nodup) (s result : SelectedCoins)
    (fresh : ∀ out ∈ vCoins, out.coin ∉ s.setCoinsRet) (selects : Selects w node s)
    (returned : takeSelected node vCoins s = .ok result) : Selects w node result := by
  induction vCoins generalizing s with
  | nil =>
      cases returned
      exact selects
  | cons out vCoins ih =>
      rw [List.map_cons, List.nodup_cons] at distinct
      rw [List.forall_mem_cons] at own fresh
      rw [takeSelected] at returned
      split at returned
      · exact ih own.2 distinct.2 s fresh.2 selects returned
      · simp only [SelectedCoins.take, bind_ok, pure_ok, amount_ok] at returned
        obtain ⟨txout, read, value, valued, s', ⟨total, ⟨-, rfl⟩, rfl⟩, returned⟩ := returned
        obtain ⟨coins, set, names, worth, sum⟩ := selects
        have inserted : s.setCoinsRet.insert out.coin = out.coin :: s.setCoinsRet :=
          List.insert_of_not_mem fresh.1
        rw [inserted] at returned
        refine ih own.2 distinct.2 _ ?_ ⟨(value, out.coin) :: coins, ?_, ?_, ?_, ?_⟩ returned
        · intro later member inside
          rcases List.mem_cons.mp inside with same | before
          · exact distinct.1 (same ▸ List.mem_map_of_mem member)
          · exact fresh.2 later member before
        · rw [List.map_cons, set]
        · rw [List.map_cons, List.nodup_cons, ← set]
          exact ⟨fresh.1, set ▸ names⟩
        · exact List.forall_mem_cons.mpr ⟨⟨out.tx, txout, own.1, read, valued⟩, worth⟩
        · rw [List.map_cons, List.sum_cons, ← sum, add_comm]

/-- Coins that pay are worth what they pay. -/
theorem Pays.selects {nTargetValue nConfMine nConfTheirs : Int} {vCoins : List COutput}
    {s : SelectedCoins} (own : ∀ out ∈ vCoins, w.getWalletTx out.tx.hash = some out.tx)
    (pays : Pays w node nTargetValue nConfMine nConfTheirs vCoins s) :
    Selects w node s ∧ nTargetValue ≤ s.nValueRet := by
  obtain ⟨coins, set, distinct, offered, sum, target⟩ := pays
  refine ⟨⟨coins, set, set ▸ distinct, fun coin member => ?_, sum⟩, target⟩
  obtain ⟨out, listed, name, eligible⟩ := offered coin member
  rw [eligibleValue] at eligible
  split at eligible
  · cases eligible
  · rw [bind_ok] at eligible
    obtain ⟨fromMe, -, eligible⟩ := eligible
    have values : ∃ txout, out.tx.output out.i = .ok txout ∧
        out.tx.nextValue node txout = .ok coin.1 := by
      revert eligible
      generalize (if fromMe = true then nConfMine else nConfTheirs) = confirmations
      intro eligible
      split at eligible
      · cases eligible
      · simpa [bind_ok, map_ok] using eligible
    obtain ⟨txout, read, valued⟩ := values
    refine ⟨out.tx, txout, ?_, ?_, valued⟩
    · rw [← name]
      exact own out listed
    · rw [← name]
      exact read

theorem selectCoins_selects (turn : Turn) (nTargetValue : Int)
    (coinControl : Option CCoinControl) (s : SelectedCoins)
    (returned : selectCoins w node turn nTargetValue coinControl = .ok s)
    (enough : s.enough = true) : Selects w node s ∧ nTargetValue ≤ s.nValueRet := by
  rw [selectCoins, bind_ok] at returned
  obtain ⟨vCoins, available, returned⟩ := returned
  have own := availableCoins_own w node _ _ _ vCoins available
  have distinct := availableCoins_distinct w node _ _ _ vCoins available
  have chosen : ∀ nConfMine nConfTheirs getRandInt bits s', s'.enough = true →
      selectCoinsMinConf w node nTargetValue nConfMine nConfTheirs getRandInt bits vCoins =
        .ok s' → Selects w node s' ∧ nTargetValue ≤ s'.nValueRet := by
    intro nConfMine nConfTheirs getRandInt bits s' enough' returned'
    rcases selectCoinsMinConf_returns w node nTargetValue nConfMine nConfTheirs vCoins distinct
      getRandInt bits s' returned' with ⟨-, pays⟩ | ⟨short, -⟩
    · exact Pays.selects w node own pays
    · rw [enough'] at short
      cases short
  split at returned
  · simp only [bind_ok, pure_ok] at returned
    obtain ⟨taken, found, rfl⟩ := returned
    have selects := takeSelected_selects w node vCoins own distinct ⟨true, [], 0⟩ taken
      (fun _ _ => List.not_mem_nil) ⟨[], rfl, List.nodup_nil, by simp, rfl⟩ found
    exact ⟨selects, by simpa using enough⟩
  · rw [bind_ok] at returned
    obtain ⟨first, found, returned⟩ := returned
    split at returned
    · cases returned
      exact chosen _ _ _ _ _ enough found
    · rw [bind_ok] at returned
      obtain ⟨second, found, returned⟩ := returned
      split at returned
      · cases returned
        exact chosen _ _ _ _ _ enough found
      · exact chosen _ _ _ _ _ enough returned

end Coins

/-! ## The outputs -/

section Outputs

variable (minRelayTxFee : CFeeRate)

/-- What a recipient receives, which is its whole amount when it does not pay the fee. -/
structure Receives (recipient : CRecipient) (txout : CTxOut) : Prop where
  script : txout.scriptPubKey = recipient.scriptPubKey
  whole : recipient.fSubtractFeeFromAmount = false → txout.nValue = recipient.nAmount

def Dustless (vout : List CTxOut) : Prop := ∀ txout ∈ vout, txout.isDust minRelayTxFee = .ok false

/-- The outputs are those of the payees, with the change at its position if there is any. -/
def Inserted (paid vout : List CTxOut) (nChangePosRet : Int) : Prop :=
  nChangePosRet = -1 ∧ vout = paid ∨
    ∃ (position : Nat) (change : CTxOut), position ≤ paid.length ∧ nChangePosRet = position ∧
      vout = paid.insertIdx position change

theorem payeeValue_ok (nFeeRet : Int) (nSubtract : Nat) (fFirst : Bool) (recipient : CRecipient)
    (nValue : Int) (valued : payeeValue nFeeRet nSubtract fFirst recipient = .ok nValue) :
    nValue = if recipient.fSubtractFeeFromAmount then
        recipient.nAmount - nFeeRet.tdiv nSubtract - (if fFirst then nFeeRet.tmod nSubtract else 0)
      else recipient.nAmount := by
  rw [payeeValue] at valued
  split at valued
  · rename_i subtracts
    rw [if_pos subtracts]
    simp only [bind_ok, amount_ok] at valued
    obtain ⟨share, ⟨-, rfl⟩, valued⟩ := valued
    cases fFirst with
    | true => exact ((amount_ok _ _).mp valued).2
    | false =>
        cases valued
        simp
  · rename_i keeps
    rw [if_neg keeps]
    exact (Except.ok.inj valued).symm

/-- The loop over the recipients. -/
theorem payees_paid (nFeeRet : Int) (nSubtract : Nat) (fFirst : Bool) (vecSend : List CRecipient)
    (vout : List CTxOut)
    (paid : payees minRelayTxFee nFeeRet nSubtract fFirst vecSend = .ok vout) :
    List.Forall₂ Receives vecSend vout ∧ Dustless minRelayTxFee vout ∧
      (vout.map CTxOut.nValue).sum = (vecSend.map CRecipient.nAmount).sum -
        nSubtractFeeFromAmount vecSend * nFeeRet.tdiv nSubtract -
        (if fFirst = true ∧ 0 < nSubtractFeeFromAmount vecSend then nFeeRet.tmod nSubtract
          else 0) := by
  induction vecSend generalizing fFirst vout with
  | nil =>
      cases paid
      exact ⟨.nil, fun _ member => absurd member List.not_mem_nil, by simp [nSubtractFeeFromAmount]⟩
  | cons recipient vecSend ih =>
      simp only [payees, bind_ok, require_ok, pure_ok, walleting_ok] at paid
      obtain ⟨nValue, valued, dust, tested, -, clean, rest, others, rfl⟩ := paid
      obtain ⟨received, dustless, sum⟩ := ih _ rest others
      have value := payeeValue_ok nFeeRet nSubtract fFirst recipient nValue valued
      rw [clean] at tested
      refine ⟨.cons ⟨rfl, fun keeps => ?_⟩ received,
        List.forall_mem_cons.mpr ⟨tested, dustless⟩, ?_⟩
      · dsimp only
        rw [value, keeps]
        rfl
      · simp only [List.map_cons, List.sum_cons, sum, value, nSubtractFeeFromAmount,
          List.countP_cons]
        cases recipient.fSubtractFeeFromAmount with
        | true =>
            simp only [if_true, Bool.not_true, Bool.and_false, Bool.false_eq_true, false_and,
              if_false, Nat.zero_lt_succ, and_true]
            push_cast
            ring
        | false =>
            simp only [Bool.false_eq_true, if_false, Bool.not_false, Bool.and_true, Nat.add_zero]
            ring

theorem payees_total (nFeeRet : Int) (vecSend : List CRecipient) (vout : List CTxOut)
    (paid : payees minRelayTxFee nFeeRet (nSubtractFeeFromAmount vecSend) true vecSend =
      .ok vout) :
    (vout.map CTxOut.nValue).sum = (vecSend.map CRecipient.nAmount).sum -
      (if nSubtractFeeFromAmount vecSend = 0 then 0 else nFeeRet) := by
  rw [(payees_paid minRelayTxFee nFeeRet _ true vecSend vout paid).2.2]
  by_cases none : nSubtractFeeFromAmount vecSend = 0
  · simp [none]
  · have shares := Int.mul_tdiv_add_tmod nFeeRet (nSubtractFeeFromAmount vecSend)
    rw [if_neg none, if_pos ⟨rfl, Nat.pos_of_ne_zero none⟩]
    omega

theorem takeDust_taken (nDust : Int) (vecSend : List CRecipient) (vout vout' : List CTxOut)
    (received : List.Forall₂ Receives vecSend vout) (dustless : Dustless minRelayTxFee vout)
    (payer : 0 < nSubtractFeeFromAmount vecSend)
    (taken : takeDust minRelayTxFee nDust vecSend vout = .ok vout') :
    List.Forall₂ Receives vecSend vout' ∧ Dustless minRelayTxFee vout' ∧
      (vout'.map CTxOut.nValue).sum = (vout.map CTxOut.nValue).sum - nDust := by
  induction received generalizing vout' with
  | nil => exact absurd payer (by decide)
  | cons first others ih =>
      rename_i recipient txout vecSend vout
      obtain ⟨clean, cleans⟩ := List.forall_mem_cons.mp dustless
      rw [takeDust] at taken
      by_cases subtracts : recipient.fSubtractFeeFromAmount = true
      · rw [if_pos subtracts] at taken
        simp only [bind_ok, require_ok, pure_ok, walleting_ok, amount_ok] at taken
        obtain ⟨nValue, ⟨-, rfl⟩, dust, tested, -, rfl, rfl⟩ := taken
        refine ⟨.cons ⟨first.script, fun keeps => ?_⟩ others,
          List.forall_mem_cons.mpr ⟨tested, cleans⟩, ?_⟩
        · rw [subtracts] at keeps
          cases keeps
        · simp only [List.map_cons, List.sum_cons]
          ring
      · rw [if_neg subtracts, map_ok] at taken
        obtain ⟨rest, found, rfl⟩ := taken
        have later : 0 < nSubtractFeeFromAmount vecSend := by
          rw [nSubtractFeeFromAmount, List.countP_cons, if_neg subtracts] at payer
          exact payer
        obtain ⟨received, dustless', sum⟩ := ih rest cleans later found
        refine ⟨.cons first received, List.forall_mem_cons.mpr ⟨clean, dustless'⟩, ?_⟩
        simp only [List.map_cons, List.sum_cons, sum]
        ring

/-- Raising the change moves value from a recipient to it. -/
theorem raiseChange_raised (vecSend : List CRecipient) (newTxOut newTxOut' : CTxOut)
    (vout vout' : List CTxOut) (received : List.Forall₂ Receives vecSend vout)
    (dustless : Dustless minRelayTxFee vout)
    (raised : raiseChange minRelayTxFee vecSend newTxOut vout = .ok (newTxOut', vout')) :
    List.Forall₂ Receives vecSend vout' ∧ Dustless minRelayTxFee vout' ∧
      newTxOut'.nValue + (vout'.map CTxOut.nValue).sum =
        newTxOut.nValue + (vout.map CTxOut.nValue).sum ∧
      (newTxOut'.isDust minRelayTxFee = .ok true → newTxOut' = newTxOut ∧ vout' = vout) := by
  simp only [raiseChange, bind_ok, walleting_ok] at raised
  obtain ⟨dust, tested, raised⟩ := raised
  split at raised
  · rename_i payer
    simp only [bind_ok, walleting_ok, pure_ok, Prod.mk.injEq] at raised
    obtain ⟨threshold, least, rest, taken, rfl, rfl⟩ := raised
    obtain ⟨received', dustless', sum⟩ := takeDust_taken minRelayTxFee _ vecSend vout rest received
      dustless payer.1 taken
    refine ⟨received', dustless', by rw [sum]; ring, fun still => ?_⟩
    -- the size of an output, and so its threshold, does not depend on the value
    have same : ({ newTxOut with nValue := newTxOut.nValue + (threshold - newTxOut.nValue) } :
        CTxOut).getDustThreshold minRelayTxFee = .ok threshold := least
    rw [CTxOut.isDust, same] at still
    simp [bind, Except.bind, pure, Except.pure] at still
  · cases raised
    exact ⟨received, dustless, rfl, fun _ => ⟨rfl, rfl⟩⟩

/-- What is left goes to the change, or with it to the fee. -/
theorem placeChange_placed (turn : Turn) (vecSend : List CRecipient)
    (coinControl : Option CCoinControl) (nChange nFeeRet : Int) (vout : List CTxOut)
    (filled : Filled) (received : List.Forall₂ Receives vecSend vout)
    (dustless : Dustless minRelayTxFee vout) (nonneg : 0 ≤ nChange)
    (placed : placeChange minRelayTxFee turn vecSend coinControl nChange nFeeRet vout =
      .ok filled) :
    (∃ paid, List.Forall₂ Receives vecSend paid ∧
        Inserted paid filled.vout filled.nChangePosRet) ∧
      Dustless minRelayTxFee filled.vout ∧
      (filled.vout.map CTxOut.nValue).sum + filled.nFeeRet =
        (vout.map CTxOut.nValue).sum + nFeeRet + nChange ∧
      nFeeRet ≤ filled.nFeeRet := by
  rw [placeChange] at placed
  split at placed
  · simp only [bind_ok, walleting_ok, Prod.exists] at placed
    obtain ⟨scriptChange, -, newTxOut, paid, raised, dust, tested, placed⟩ := placed
    obtain ⟨received', dustless', sum, still⟩ := raiseChange_raised minRelayTxFee vecSend _ newTxOut
      vout paid received dustless raised
    split at placed
    · rename_i isDust
      rw [isDust] at tested
      obtain ⟨rfl, rfl⟩ := still tested
      simp only [bind_ok, walleting_ok, amount_ok, pure_ok] at placed
      obtain ⟨fee, ⟨-, rfl⟩, rfl⟩ := placed
      refine ⟨⟨_, received', .inl ⟨rfl, rfl⟩⟩, dustless', ?_, ?_⟩
      · dsimp only
        ring
      · dsimp only
        omega
    · rename_i kept
      cases placed
      have clean : newTxOut.isDust minRelayTxFee = .ok false := by
        rw [tested, Bool.eq_false_iff.mpr kept]
      have within : turn.changePosition % (paid.length + 1) ≤ paid.length :=
        Nat.le_of_lt_succ (Nat.mod_lt _ (Nat.succ_pos _))
      have same := List.perm_insertIdx newTxOut paid within
      refine ⟨⟨paid, received', .inr ⟨_, newTxOut, within, rfl, rfl⟩⟩, ?_, ?_, le_rfl⟩
      · intro txout member
        rcases List.mem_cons.mp (same.subset member) with rfl | inside
        · exact clean
        · exact dustless' txout inside
      · dsimp only
        rw [(same.map CTxOut.nValue).sum_eq, List.map_cons, List.sum_cons, sum]
        ring
  · cases placed
    have zero : nChange = 0 := by omega
    exact ⟨⟨vout, received, .inl ⟨rfl, rfl⟩⟩, dustless, by rw [zero, add_zero], le_rfl⟩

end Outputs

/-! ## The fee -/

/-- No minimum is above the maximum. -/
theorem getMinimumFee_le (policy : FeePolicy) (nTxBytes : Nat) :
    getMinimumFee policy nTxBytes ≤ policy.maxTxFee := by
  simp only [getMinimumFee]
  generalize (if _ < policy.minRelayTxFee.getFee nTxBytes then _ else _) = nFeeNeeded
  split <;> omega

theorem modify_prevouts (vin : List CTxIn) (nIn : Nat) (scriptSig : CScript) :
    (vin.modify nIn fun txin => { txin with scriptSig }).map CTxIn.prevout =
      vin.map CTxIn.prevout := by
  apply List.ext_getElem?
  intro i
  rw [List.getElem?_map, List.getElem?_map, List.getElem?_modify]
  cases vin[i]? with
  | none => rfl
  | some txin =>
      simp only [Option.map_some]
      split <;> rfl

/-- Signing changes neither what is spent nor what is paid. -/
theorem signFrom_keeps (signSignature : WalletCoin → CTransaction → Nat → Option CScript)
    (setCoins : List WalletCoin) (nIn : Nat) (txNew tx : CTransaction)
    (signed : signFrom signSignature setCoins nIn txNew = .ok tx) :
    tx.vin.map CTxIn.prevout = txNew.vin.map CTxIn.prevout ∧ tx.vout = txNew.vout := by
  induction setCoins generalizing nIn txNew with
  | nil =>
      cases signed
      exact ⟨rfl, rfl⟩
  | cons coin setCoins ih =>
      rw [signFrom] at signed
      split at signed
      · cases signed
      · have kept := ih _ _ signed
        rw [modify_prevouts] at kept
        exact kept

section Create

variable (w : CWalletStore) (node : NodeView) (policy : FeePolicy) (vecSend : List CRecipient)
  (coinControl : Option CCoinControl)

theorem sendValueFrom_ok (nValue result : Int)
    (summed : sendValueFrom nValue vecSend = .ok result) :
    result = nValue + (vecSend.map CRecipient.nAmount).sum := by
  induction vecSend generalizing nValue with
  | nil =>
      cases summed
      simp
  | cons recipient vecSend ih =>
      simp only [sendValueFrom, bind_ok, walleting_ok, amount_ok] at summed
      obtain ⟨-, -, next, ⟨-, rfl⟩, summed⟩ := summed
      rw [ih _ summed, List.map_cons, List.sum_cons, add_assoc]

theorem createStart_ok (nValue : Int) (started : createStart node vecSend = .ok nValue) :
    nValue = (vecSend.map CRecipient.nAmount).sum := by
  simp only [createStart, sendValue, bind_ok, pure_ok] at started
  obtain ⟨total, ⟨total', summed, -, -, rfl⟩, -, -, rfl⟩ := started
  rw [sendValueFrom_ok vecSend 0 total' summed, zero_add]

/-- The outpoint of a coin. -/
def coinOutPoint (coin : ValuedCoin) : COutPoint := ⟨coin.2.1, BitVec.ofNat 32 coin.2.2⟩

/-- The inputs are different coins of the wallet; what they are worth in the next block and is not
paid out is the fee. -/
def Conserves (tx : CTransaction) (nFeeRet : Int) : Prop :=
  ∃ coins : List ValuedCoin, (tx.vin.map CTxIn.prevout).Perm (coins.map coinOutPoint) ∧
    (coins.map Prod.snd).Nodup ∧ (∀ coin ∈ coins, WorthNext w node coin) ∧
    (coins.map Prod.fst).sum - tx.outputs = nFeeRet

/-- What `CreateTransaction` promises of what it returns. -/
structure PaysItsFee (created : Created) : Prop where
  conserves : Conserves w node created.wtxNew created.nFeeRet
  received : ∃ paid, List.Forall₂ Receives vecSend paid ∧
    Inserted paid created.wtxNew.vout created.nChangePosRet
  dustless : Dustless policy.minRelayTxFee created.wtxNew.vout
  minimum : created.free = false →
    getMinimumFee policy created.wtxNew.serializeSize ≤ created.nFeeRet
  allowed : created.free = true → policy.fSendFreeTransactions = true ∧
    created.wtxNew.serializeSize ≤ maxFreeTransactionCreateSize

/-- One turn conserves value, whatever the fee it tries. -/
theorem buildTransaction_built (turn : Turn) (nFeeRet : Int) (tx : CTransaction) (filled : Filled)
    (built : buildTransaction w node policy vecSend coinControl turn
      (vecSend.map CRecipient.nAmount).sum nFeeRet = .ok (tx, filled)) :
    Conserves w node tx filled.nFeeRet ∧
      (∃ paid, List.Forall₂ Receives vecSend paid ∧ Inserted paid tx.vout filled.nChangePosRet) ∧
      Dustless policy.minRelayTxFee tx.vout ∧ nFeeRet ≤ filled.nFeeRet := by
  simp only [buildTransaction, bind_ok, walleting_ok, require_ok, pure_ok, amount_ok,
    Prod.mk.injEq] at built
  obtain ⟨nTotalValue, target, vout, paid, selected, found, -, enough, nLeft, ⟨-, rfl⟩, nChange,
    left, filled', placed, tx', signed, rfl, rfl⟩ := built
  obtain ⟨⟨coins, set, distinct, worth, sum⟩, reached⟩ :=
    selectCoins_selects w node turn nTotalValue coinControl selected found enough
  obtain ⟨received, dustless, -⟩ :=
    payees_paid policy.minRelayTxFee nFeeRet _ true vecSend vout paid
  have total := payees_total policy.minRelayTxFee nFeeRet vecSend vout paid
  -- the fee comes out of the change or out of what the recipients get
  have balance : 0 ≤ nChange ∧ (vout.map CTxOut.nValue).sum + nFeeRet + nChange =
      selected.nValueRet := by
    rw [withFee] at target left
    split at target
    · rename_i none
      rw [if_pos none] at left total
      obtain ⟨-, rfl⟩ := (amount_ok _ _).mp target
      obtain ⟨-, rfl⟩ := (amount_ok _ _).mp left
      constructor <;> omega
    · rename_i some
      rw [if_neg some] at left total
      cases target
      cases left
      constructor <;> omega
  obtain ⟨kept, clean, conserved, more⟩ := placeChange_placed policy.minRelayTxFee turn vecSend
    coinControl nChange nFeeRet vout filled' received dustless balance.1 placed
  obtain ⟨inputs, outputs⟩ := signFrom_keeps _ _ _ _ _ signed
  dsimp only at inputs outputs
  rw [outputs]
  refine ⟨⟨coins, ?_, distinct, worth, ?_⟩, kept, clean, more⟩
  · have order : (inSetOrder turn.address selected.setCoinsRet).Perm (coins.map Prod.snd) := by
      rw [← set]
      exact List.perm_insertionSort _ _
    have named := order.map fun coin : WalletCoin => (⟨coin.1, BitVec.ofNat 32 coin.2⟩ : COutPoint)
    rw [List.map_map] at named
    rw [inputs, List.map_map]
    exact named
  · rw [CTransaction.outputs, outputs, ← sum]
    omega

theorem createTurn_next (nValue : Int) (started : createStart node vecSend = .ok nValue)
    (turn : Turn) (nFeeRet nFeeNext : Int)
    (taken : createTurn w node policy vecSend coinControl nValue turn nFeeRet =
      .ok (.inr nFeeNext)) : nFeeRet < nFeeNext ∧ nFeeNext ≤ policy.maxTxFee := by
  rw [createStart_ok node vecSend nValue started] at taken
  simp only [createTurn, bind_ok, Prod.exists, require_ok] at taken
  obtain ⟨tx, filled, built, -, -, taken⟩ := taken
  have more := (buildTransaction_built w node policy vecSend coinControl turn nFeeRet tx filled
    built).2.2.2
  split at taken
  · cases taken
  · simp only [bind_ok, require_ok] at taken
    obtain ⟨-, -, taken⟩ := taken
    split at taken
    · cases taken
    · cases taken
      have most := getMinimumFee_le policy tx.serializeSize
      exact ⟨by omega, most⟩

theorem createTurn_last (nValue : Int) (started : createStart node vecSend = .ok nValue)
    (turn : Turn) (nFeeRet : Int) (created : Created)
    (taken : createTurn w node policy vecSend coinControl nValue turn nFeeRet =
      .ok (.inl created)) : PaysItsFee w node policy vecSend created := by
  rw [createStart_ok node vecSend nValue started] at taken
  simp only [createTurn, bind_ok, Prod.exists, require_ok] at taken
  obtain ⟨tx, filled, built, -, -, taken⟩ := taken
  obtain ⟨conserves, received, dustless, -⟩ :=
    buildTransaction_built w node policy vecSend coinControl turn nFeeRet tx filled built
  split at taken
  · rename_i rule
    cases taken
    exact ⟨conserves, received, dustless, (by simp), fun _ => ⟨rule.1, rule.2.1⟩⟩
  · simp only [bind_ok, require_ok] at taken
    obtain ⟨-, -, taken⟩ := taken
    split at taken
    · rename_i enough
      cases taken
      exact ⟨conserves, received, dustless, fun _ => enough, by simp⟩
    · cases taken

/-- The fee loop ends within as many turns as the maximal fee has units, and a transaction that is
returned pays the fee that is reported. -/
theorem create_transaction_pays_fee (turns : Nat → Turn) (fuel : Nat) :
    (policy.maxTxFee.toNat < fuel →
      createTransaction w node policy vecSend coinControl turns fuel ≠ none) ∧
    ∀ created, createTransaction w node policy vecSend coinControl turns fuel =
      some (.ok created) → PaysItsFee w node policy vecSend created := by
  rw [createTransaction]
  cases started : createStart node vecSend with
  | error stop => simp
  | ok nValue =>
      have next := createTurn_next w node policy vecSend coinControl nValue started
      constructor
      · intro enough
        apply Turns.run_ends _ (fun nFeeRet => (policy.maxTxFee - nFeeRet).toNat) _ fuel 0 0
          (by simpa using enough)
        intro k nFeeRet nFeeNext taken
        have step := next (turns k) nFeeRet nFeeNext taken
        omega
      · intro created returned
        obtain ⟨k, nFeeRet, taken⟩ := Turns.run_returned _ fuel 0 0 created returned
        exact createTurn_last w node policy vecSend coinControl nValue started (turns k) nFeeRet
          created taken

end Create

/-! ## A payment -/

/-- A turn that signs every input and has a key for the change. -/
def signingTurn : Turn where
  getRandInt := fun _ _ => 0
  bits := fun _ _ _ _ => false
  address := fun _ => 0
  changePosition := 1
  reservedKey := some 5
  signSignature := fun _ _ _ => some (List.replicate 107 1)
  priorityIsEnough := fun _ _ => false

def relayPolicy : FeePolicy where
  payTxFee := ⟨0⟩
  fPayAtLeastCustomFee := true
  minTxFee := ⟨1000⟩
  minRelayTxFee := ⟨5000⟩
  maxTxFee := 10000000
  nTxConfirmTarget := 2
  fSendFreeTransactions := false
  estimateFee := fun _ => ⟨0⟩

/-- A recipient that pays the fee and one that does not. -/
def twoRecipients : List CRecipient :=
  [⟨getScriptForDestination (.keyID 7), 100000000, true⟩,
    ⟨getScriptForDestination (.keyID 8), 50000000, false⟩]

theorem create_transaction_two_turns :
    ∃ created, createTransaction (walletWith mixedOutputs) confirmingNode relayPolicy twoRecipients
        none (fun _ => signingTurn) 2 = some (.ok created) ∧ created.nFeeRet = 1300 ∧
      PaysItsFee (walletWith mixedOutputs) confirmingNode relayPolicy twoRecipients created := by
  have run : (createTransaction (walletWith mixedOutputs) confirmingNode relayPolicy twoRecipients
      none (fun _ => signingTurn) 2).map (fun result => result.map Created.nFeeRet) =
        some (.ok 1300) := by
    decide +kernel
  obtain ⟨result, found, fee⟩ := Option.map_eq_some_iff.mp run
  cases result with
  | error stop => cases fee
  | ok created =>
      have pays := create_transaction_pays_fee (walletWith mixedOutputs) confirmingNode relayPolicy
        twoRecipients none (fun _ => signingTurn) 2
      exact ⟨created, found, Except.ok.inj fee, pays.2 created found⟩

end RoiCoin
