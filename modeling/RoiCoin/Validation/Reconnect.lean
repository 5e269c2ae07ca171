import RoiCoin.Validation.UndoBlock

/-! Connecting a block once more, on a view whose coins have been given back, at another time and
with another height of the chain. -/

namespace RoiCoin

open Checked CCoins FlatView

/-- The environment at a time, with the height of the chain that interest is reckoned from. -/
def Environment.moved (env : Environment) (chainHeight adjustedTime : Int) : Environment :=
  { env with chainHeight, adjustedTime }

/-- The same outputs are unspent over the same best block. -/
structure Mirrors (view back : FlatView) : Prop where
  coins : Restores view.utxo back.utxo
  best : back.hashBlock = view.hashBlock

/-! ## What a view shows -/

theorem coin_txout (coins : CCoins) (n : Nat) :
    (coins.coin n).map Coin.txout = coins.output n := by
  rw [CCoins.coin]
  cases coins.output n <;> rfl

theorem restores_none (coins back : Ledger.Coins Uint256 Coin) (restores : Restores coins back)
    (id : Uint256) (n : Nat) : back id n = none ↔ coins id n = none :=
  (rel_none _ _ (restores id n)).symm

theorem restores_some (coins back : Ledger.Coins Uint256 Coin) (restores : Restores coins back)
    (id : Uint256) (n : Nat) (coin : Coin) (present : coins id n = some coin) :
    ∃ coin', back id n = some coin' ∧ CoinBack coin coin' := by
  have related := restores id n
  rw [present] at related
  cases found : back id n with
  | none =>
      rw [found] at related
      cases related
  | some coin' =>
      rw [found] at related
      cases related with
      | some agree => exact ⟨coin', rfl, agree⟩

theorem output_mirrors (view back : FlatView) (restores : Restores view.utxo back.utxo)
    (hash : Uint256) (n : Nat) : (back.record hash).output n = (view.record hash).output n := by
  rw [← coin_txout, ← coin_txout, coin_record, coin_record]
  have related := restores hash n
  revert related
  cases view.utxo hash n with
  | none =>
      cases back.utxo hash n with
      | none => exact fun _ => rfl
      | some coin => intro related; cases related
  | some coin =>
      cases back.utxo hash n with
      | none => intro related; cases related
      | some coin' =>
          intro related
          cases related with
          | some agree => exact congrArg some agree.txout

theorem prevOutput_mirrors (view back : FlatView) (restores : Restores view.utxo back.utxo)
    (txin : CTxIn) : back.prevOutput txin = view.prevOutput txin := by
  rw [prevOutput, prevOutput, output_mirrors view back restores]

theorem getOutputFor_record (view : FlatView) (txin : CTxIn) :
    view.getOutputFor txin =
      match (view.record txin.prevout.hash).output txin.prevout.n.toNat with
      | some txout => .ok txout
      | none => .error (.assertion .outputFor) := by
  rw [getOutputFor, accessCoins, record]
  cases view.coins txin.prevout.hash with
  | none => rfl
  | some coins => rfl

theorem getOutputFor_mirrors (view back : FlatView) (restores : Restores view.utxo back.utxo)
    (txin : CTxIn) : back.getOutputFor txin = view.getOutputFor txin := by
  rw [getOutputFor_record, getOutputFor_record, output_mirrors view back restores]

theorem haveInput_mirrors (view back : FlatView) (restores : Restores view.utxo back.utxo)
    (txin : CTxIn) : back.haveInput txin = view.haveInput txin := by
  have same := restores_none _ _ restores txin.prevout.hash txin.prevout.n.toNat
  rw [Bool.eq_iff_iff, haveInput_iff, haveInput_iff, Option.isSome_iff_ne_none,
    Option.isSome_iff_ne_none]
  exact not_congr same

theorem haveInputs_mirrors (view back : FlatView) (restores : Restores view.utxo back.utxo)
    (tx : CTransaction) : back.haveInputs tx = view.haveInputs tx := by
  have same : back.haveInput = view.haveInput :=
    funext fun txin => haveInput_mirrors view back restores txin
  rw [haveInputs, haveInputs, same]

theorem getP2SHSigOpCount_mirrors (view back : FlatView) (restores : Restores view.utxo back.utxo)
    (tx : CTransaction) : getP2SHSigOpCount back tx = getP2SHSigOpCount view tx := by
  have same : back.getOutputFor = view.getOutputFor :=
    funext fun txin => getOutputFor_mirrors view back restores txin
  rw [getP2SHSigOpCount, getP2SHSigOpCount, same]

theorem scriptChecks_mirrors (view back : FlatView) (restores : Restores view.utxo back.utxo)
    (tx : CTransaction) (flags : BitVec 32) :
    scriptChecks back tx flags = scriptChecks view tx flags := by
  have same : back.prevOutput = view.prevOutput :=
    funext fun txin => prevOutput_mirrors view back restores txin
  rw [scriptChecks, scriptChecks, same]

theorem vacant_mirrors (view back : FlatView) (restores : Restores view.utxo back.utxo)
    (hash : Uint256) (vacant : Ledger.Vacant view.utxo hash) : Ledger.Vacant back.utxo hash :=
  fun n => (restores_none _ _ restores hash n).mpr (vacant n)

/-! ## Values -/

/-- The coins an input refers to are worth the same to both environments. -/
def SameWorth (env env' : Environment) (nHeight : Int) (coins : Ledger.Coins Uint256 Coin)
    (vin : List CTxIn) : Prop :=
  ∀ txin ∈ vin, ∀ coin, coins txin.prevout.hash txin.prevout.n.toNat = some coin →
    coin.worth env nHeight = coin.worth env' nHeight

theorem worth_back (env : Environment) (nHeight : Int) (coin coin' : Coin)
    (agree : CoinBack coin coin') : coin'.worth env nHeight = coin.worth env nHeight := by
  rw [Coin.worth, Coin.worth, agree.txout, agree.nHeight]

/-- Where the script can be read the value is there, whatever the height of the chain. -/
theorem value_moved (pow : Int → Int → Int) (c c' : Int) (txout : CTxOut) (nHeight nSpendHeight
    nValue : Int) (valued : txout.getValueWithInterest pow c nHeight nSpendHeight = .ok nValue) :
    ∃ nValue', txout.getValueWithInterest pow c' nHeight nSpendHeight = .ok nValue' := by
  rw [CTxOut.getValueWithInterest] at valued ⊢
  cases released : getTermDepositReleaseBlock txout.scriptPubKey with
  | error fault =>
      rw [released] at valued
      cases valued
  | ok maturationBlock => exact ⟨_, rfl⟩

/-- The value of an input that both environments value alike, in the view given back. -/
theorem value_mirrors (env : Environment) (c t nSpendHeight nValue : Int) (view back : FlatView)
    (txin : CTxIn) (coins coins' : CCoins)
    (restores : Restores view.utxo back.utxo)
    (found : view.utxo txin.prevout.hash txin.prevout.n.toNat =
      some ⟨view.prevOutput txin, coins.nHeight, coins.fCoinBase, coins.nVersion⟩)
    (found' : back.utxo txin.prevout.hash txin.prevout.n.toNat =
      some ⟨back.prevOutput txin, coins'.nHeight, coins'.fCoinBase, coins'.nVersion⟩)
    (worth : SameWorth env (env.moved c t) nSpendHeight view.utxo [txin])
    (valued : (view.prevOutput txin).getValueWithInterest env.pow env.chainHeight coins.nHeight
      nSpendHeight = .ok nValue) :
    coins'.nHeight = coins.nHeight ∧ coins'.fCoinBase = coins.fCoinBase ∧
      (back.prevOutput txin).getValueWithInterest env.pow c coins'.nHeight nSpendHeight =
        .ok nValue := by
  obtain ⟨coin', present, agree⟩ := restores_some _ _ restores _ _ _ found
  rw [found', Option.some.injEq] at present
  rw [← present] at agree
  have height : coins'.nHeight = coins.nHeight := agree.nHeight
  obtain ⟨nValue', valued'⟩ :=
    value_moved env.pow env.chainHeight c (view.prevOutput txin) _ _ _ valued
  have alike := worth txin List.mem_cons_self _ found
  rw [Coin.worth, Coin.worth, valued] at alike
  simp only [Environment.moved, valued'] at alike
  refine ⟨height, agree.fCoinBase, ?_⟩
  rw [prevOutput_mirrors view back restores, height, valued', alike]

theorem addInputValue_mirrors (env : Environment) (c t : Int) (view back : FlatView)
    (nSpendHeight nValueIn result : Int) (txin : CTxIn) (restores : Restores view.utxo back.utxo)
    (have_it : view.haveInput txin = true)
    (worth : SameWorth env (env.moved c t) nSpendHeight view.utxo [txin])
    (added : addInputValue env view nSpendHeight nValueIn txin = .ok result) :
    addInputValue (env.moved c t) back nSpendHeight nValueIn txin = .ok result := by
  have have_back := haveInput_mirrors view back restores txin
  obtain ⟨coins, access, found⟩ := coin_of_haveInput view txin have_it
  obtain ⟨coins', access', found'⟩ := coin_of_haveInput back txin (have_back.trans have_it)
  rw [addInputValue, access] at added
  simp only [bind_ok, require_ok, liftScript_ok, pure_ok] at added
  obtain ⟨_, mature, nValue, valued, _, amounts, rfl⟩ := added
  obtain ⟨height, coinBase, valued'⟩ :=
    value_mirrors env c t nSpendHeight nValue view back txin coins coins' restores found found'
      worth valued
  rw [addInputValue, access']
  simp only [bind_ok, require_ok, liftScript_ok, pure_ok, height, coinBase]
  rw [height] at valued'
  rw [prevOutput_mirrors view back restores] at valued' ⊢
  exact ⟨(), mature, nValue, valued', (), amounts, rfl⟩

theorem addInputValues_mirrors (env : Environment) (c t : Int) (view back : FlatView)
    (nSpendHeight nValueIn result : Int) (vin : List CTxIn)
    (restores : Restores view.utxo back.utxo)
    (have_all : ∀ txin ∈ vin, view.haveInput txin = true)
    (worth : SameWorth env (env.moved c t) nSpendHeight view.utxo vin)
    (added : addInputValues env view nSpendHeight nValueIn vin = .ok result) :
    addInputValues (env.moved c t) back nSpendHeight nValueIn vin = .ok result := by
  induction vin generalizing nValueIn with
  | nil => exact added
  | cons txin vin ih =>
      rw [List.forall_mem_cons] at have_all
      rw [SameWorth, List.forall_mem_cons] at worth
      rw [addInputValues, bind_ok] at added ⊢
      obtain ⟨middle, first, others⟩ := added
      have here : SameWorth env (env.moved c t) nSpendHeight view.utxo [txin] := by
        rw [SameWorth, List.forall_mem_singleton]
        exact worth.1
      exact ⟨middle, addInputValue_mirrors env c t view back nSpendHeight nValueIn middle txin
        restores have_all.1 here first, ih middle have_all.2 worth.2 others⟩

theorem getValueIn_mirrors (env : Environment) (c t : Int) (view back : FlatView)
    (nHeight nValueIn result : Int) (vin : List CTxIn)
    (restores : Restores view.utxo back.utxo)
    (have_all : ∀ txin ∈ vin, view.haveInput txin = true)
    (worth : SameWorth env (env.moved c t) nHeight view.utxo vin)
    (summed : getValueIn env view nHeight nValueIn vin = .ok result) :
    getValueIn (env.moved c t) back nHeight nValueIn vin = .ok result := by
  induction vin generalizing nValueIn with
  | nil => exact summed
  | cons txin vin ih =>
      rw [List.forall_mem_cons] at have_all
      rw [SameWorth, List.forall_mem_cons] at worth
      have here : SameWorth env (env.moved c t) nHeight view.utxo [txin] := by
        rw [SameWorth, List.forall_mem_singleton]
        exact worth.1
      simp only [getValueIn, bind_ok, liftScript_ok] at summed ⊢
      obtain ⟨txout, output, nValue, valued, others⟩ := summed
      have have_back := haveInput_mirrors view back restores txin
      obtain ⟨coins, access, found⟩ := coin_of_haveInput view txin have_all.1
      obtain ⟨coins', access', found'⟩ :=
        coin_of_haveInput back txin (have_back.trans have_all.1)
      have own : view.record txin.prevout.hash = coins := by
        rw [record, ← accessCoins, access, Option.getD_some]
      have own' : back.record txin.prevout.hash = coins' := by
        rw [record, ← accessCoins, access', Option.getD_some]
      have shown : txout = view.prevOutput txin := by
        rw [prevOutput, (getOutputFor_ok view txin txout).mp output, Option.getD_some]
      rw [own, shown] at valued
      obtain ⟨-, -, valued'⟩ :=
        value_mirrors env c t nHeight nValue view back txin coins coins' restores found found'
          here valued
      rw [← own', prevOutput_mirrors view back restores, ← shown] at valued'
      exact ⟨txout, (getOutputFor_mirrors view back restores txin).trans output, nValue, valued',
        ih _ have_all.2 worth.2 others⟩

/-! ## One transaction -/

theorem checkTxInputs_mirrors (env : Environment) (c t nSpendHeight : Int) (view back : FlatView)
    (tx : CTransaction) (mirrors : Mirrors view back)
    (height : nextHeight env view = .ok nSpendHeight) (regular : tx.isCoinBase = false)
    (worth : SameWorth env (env.moved c t) nSpendHeight view.utxo tx.vin)
    (passed : checkTxInputs env view tx = .ok ()) :
    checkTxInputs (env.moved c t) back tx = .ok () := by
  have height' : nextHeight (env.moved c t) back = nextHeight env view := by
    rw [nextHeight, nextHeight, mirrors.best]
    rfl
  simp only [checkTxInputs, bind_ok, require_ok, height', height, Except.ok.injEq] at passed ⊢
  obtain ⟨_, available, _, rfl, nValueIn, added, nValueOut, valued, rule⟩ := passed
  refine ⟨(), (haveInputs_mirrors view back mirrors.coins tx).trans available, nSpendHeight, rfl,
    nValueIn, ?_, nValueOut, valued, rule⟩
  rw [haveInputs, regular, Bool.false_or, List.all_eq_true] at available
  exact addInputValues_mirrors env c t view back nSpendHeight 0 nValueIn tx.vin mirrors.coins
    available worth added

theorem checkInputScripts_mirrors (env : Environment) (c t : Int) (view back : FlatView)
    (tx : CTransaction) (restores : Restores view.utxo back.utxo) (fScriptChecks : Bool)
    (flags : BitVec 32) (defer : Bool) :
    checkInputScripts (env.moved c t) back tx fScriptChecks flags defer =
      checkInputScripts env view tx fScriptChecks flags defer := by
  rw [checkInputScripts, checkInputScripts, scriptChecks_mirrors view back restores]
  rfl

/-- The loops over two views side by side; the undo data may differ. -/
structure Alongside (st back : Connecting) : Prop where
  view : Mirrors st.view back.view
  nFees : back.nFees = st.nFees
  nSigOps : back.nSigOps = st.nSigOps
  control : back.control = st.control

theorem connectInputs_mirrors (env : Environment) (c t : Int) (context : BlockContext)
    (st st' back : Connecting) (tx : CTransaction) (alongside : Alongside st back)
    (height : nextHeight env st.view = .ok context.nHeight)
    (worth : SameWorth env (env.moved c t) context.nHeight st.view.utxo tx.spentInputs)
    (connected : connectInputs env context st tx = .ok st') :
    ∃ back', connectInputs (env.moved c t) context back tx = .ok back' ∧
      Alongside st' back' ∧ st'.view = st.view ∧ back'.view = back.view := by
  have restores := alongside.view.coins
  rw [connectInputs] at connected ⊢
  cases special : tx.isCoinBase with
  | true =>
      rw [special, if_pos rfl] at connected
      cases connected
      exact ⟨back, rfl, alongside, rfl, rfl⟩
  | false =>
      rw [special, if_neg Bool.false_ne_true] at connected
      rw [if_neg Bool.false_ne_true]
      rw [CTransaction.spentInputs, special, if_neg Bool.false_ne_true] at worth
      simp only [bind_ok, require_ok, pure_ok, checkInputs, special, Bool.false_eq_true,
        if_false] at connected ⊢
      obtain ⟨_, available, nP2SH, sigOps, _, few, nValueIn, valueIn, nValueOut, valueOut,
        vChecks, ⟨_, inputs, scripts⟩, rfl⟩ := connected
      have have_all := available
      rw [haveInputs, special, Bool.false_or, List.all_eq_true] at have_all
      have sigOps' : p2shSigOps context back.view tx = .ok nP2SH := by
        rw [p2shSigOps, getP2SHSigOpCount_mirrors st.view back.view restores]
        exact sigOps
      refine ⟨_, ⟨(), (haveInputs_mirrors st.view back.view restores tx).trans available, nP2SH,
        sigOps', (), alongside.nSigOps ▸ few, nValueIn,
        getValueIn_mirrors env c t st.view back.view context.nHeight 0 nValueIn tx.vin restores
          have_all worth valueIn, nValueOut, valueOut, vChecks,
        ⟨(), checkTxInputs_mirrors env c t context.nHeight st.view back.view tx alongside.view
          height special worth inputs,
          (checkInputScripts_mirrors env c t st.view back.view tx restores _ _ _).trans scripts⟩,
        rfl⟩, ⟨alongside.view, ?_, ?_, ?_⟩, rfl, rfl⟩
      · rw [alongside.nFees]
      · rw [alongside.nSigOps]
      · rw [alongside.control]

theorem restores_spendAll (coins back : Ledger.Coins Uint256 Coin) (inputs : List (Uint256 × Nat))
    (restores : Restores coins back) :
    Restores (Ledger.spendAll coins inputs) (Ledger.spendAll back inputs) := by
  intro id n
  rw [Ledger.spendAll, Ledger.spendAll]
  split
  · exact .none
  · exact restores id n

theorem restores_apply (coins back : Ledger.Coins Uint256 Coin) (entry : Ledger.Entry Uint256 Coin)
    (restores : Restores coins back) :
    Restores (Ledger.apply coins entry) (Ledger.apply back entry) := by
  intro id n
  by_cases own : id = entry.id
  · rw [own, Ledger.apply_id, Ledger.apply_id]
    cases entry.outputs n with
    | none => exact .none
    | some coin => exact .some ⟨rfl, rfl, rfl, fun _ => rfl⟩
  · rw [Ledger.apply_other _ _ _ _ own, Ledger.apply_other _ _ _ _ own]
    exact restores_spendAll coins back entry.inputs restores id n

theorem spendInputs_mirrors (vin : List CTxIn) (view view' back : FlatView) (txundo : CTxUndo)
    (restores : Restores view.utxo back.utxo)
    (spent : spendInputs view vin = .ok (txundo, view')) :
    ∃ txundo' back', spendInputs back vin = .ok (txundo', back') := by
  induction vin generalizing view txundo back with
  | nil => exact ⟨_, _, rfl⟩
  | cons txin vin ih =>
      simp only [spendInputs, bind_ok, pure_ok, Prod.exists, Prod.mk.injEq] at spent ⊢
      obtain ⟨undo, middle, first, rest, last, others, rfl, rfl⟩ := spent
      obtain ⟨txout, output, -, -⟩ := (spendInput_ok view middle txin undo).mp first
      have output' := (output_mirrors view back restores _ _).trans output
      have first' := (spendInput_ok back _ txin _).mpr ⟨txout, output', rfl, rfl⟩
      have related := restores_spendAll view.utxo back.utxo [txin.prevout.name] restores
      rw [← (utxo_spendInput view middle txin undo first).1,
        ← (utxo_spendInput back _ txin _ first').1] at related
      obtain ⟨rest', last', others'⟩ := ih middle _ rest related others
      exact ⟨_, _, _, _, first', rest', last', others', rfl, rfl⟩

theorem updateCoins_mirrors (env : Environment) (c t nHeight : Int) (view view' back : FlatView)
    (tx : CTransaction) (txundo : CTxUndo) (restores : Restores view.utxo back.utxo)
    (updated : updateCoins env nHeight view tx = .ok (txundo, view')) :
    ∃ txundo' back', updateCoins (env.moved c t) nHeight back tx = .ok (txundo', back') := by
  simp only [updateCoins, bind_ok, pure_ok, Prod.exists, Prod.mk.injEq] at updated ⊢
  obtain ⟨undo, middle, spent, -, -⟩ := updated
  obtain ⟨undo', middle', spent'⟩ :=
    spendInputs_mirrors tx.spentInputs view middle back undo restores spent
  exact ⟨_, _, _, _, spent', rfl, rfl⟩

/-- What two connections of a transaction leave behind, however they valued it. -/
theorem updated_mirrors (env : Environment) (c t nHeight : Int) (view view' back back' : FlatView)
    (tx : CTransaction) (txundo txundo' : CTxUndo) (mirrors : Mirrors view back)
    (updated : updateCoins env nHeight view tx = .ok (txundo, view'))
    (updated' : updateCoins (env.moved c t) nHeight back tx = .ok (txundo', back')) :
    Mirrors view' back' := by
  obtain ⟨utxo, best⟩ := utxo_updateCoins env nHeight view view' tx txundo updated
  obtain ⟨utxo', best'⟩ := utxo_updateCoins (env.moved c t) nHeight back back' tx txundo' updated'
  constructor
  · rw [utxo, utxo']
    exact restores_apply view.utxo back.utxo _ mirrors.coins
  · rw [best, best', mirrors.best]

theorem connectTx_mirrors (env : Environment) (c t : Int) (context : BlockContext) (i : Nat)
    (st st' back : Connecting) (tx : CTransaction) (alongside : Alongside st back)
    (height : nextHeight env st.view = .ok context.nHeight)
    (worth : SameWorth env (env.moved c t) context.nHeight st.view.utxo tx.spentInputs)
    (connected : connectTx env context i st tx = .ok st') :
    ∃ back', connectTx (env.moved c t) context i back tx = .ok back' ∧ Alongside st' back' := by
  simp only [connectTx, bind_ok, require_ok, pure_ok, Prod.exists] at connected ⊢
  obtain ⟨_, few, middle, inputs, txundo, view', updated, rfl⟩ := connected
  have counted : Alongside { st with nSigOps := st.nSigOps + getLegacySigOpCount tx }
      { back with nSigOps := back.nSigOps + getLegacySigOpCount tx } :=
    ⟨alongside.view, alongside.nFees, by rw [alongside.nSigOps], alongside.control⟩
  obtain ⟨middle', inputs', agree, kept, kept'⟩ :=
    connectInputs_mirrors env c t context _ middle _ tx counted height worth inputs
  obtain ⟨txundo', back', updated'⟩ := updateCoins_mirrors env c t context.nHeight middle.view view'
    middle'.view tx txundo agree.view.coins updated
  have mirrors := updated_mirrors env c t context.nHeight middle.view view' middle'.view back' tx
    txundo txundo' agree.view updated updated'
  exact ⟨_, ⟨(), alongside.nSigOps ▸ few, middle', inputs', txundo', back', updated', rfl⟩,
    mirrors, agree.nFees, agree.nSigOps, agree.control⟩

/-! ## The transactions of a block -/

/-- The values that the transaction loop gives the inputs, transaction by transaction. -/
def connectValues (env : Environment) (context : BlockContext) (i : Nat) (st : Connecting) :
    List CTransaction → List (List Int)
  | [] => []
  | tx :: vtx =>
      tx.spentInputs.map (inputWorth env context.nHeight st.view.utxo) ::
        match connectTx env context i st tx with
        | .ok st => connectValues env context (i + 1) st vtx
        | .error _ => []

/-- Every coin was there at the start, or is one of the block itself. -/
def Origin (start : Ledger.Coins Uint256 Coin) (nHeight : Int)
    (coins : Ledger.Coins Uint256 Coin) : Prop :=
  ∀ id n coin, coins id n = some coin →
    start id n = some coin ∨ (coin.nHeight = nHeight ∧ Ledger.Vacant start id)

theorem origin_apply (getHash : CTransaction → Uint256) (nHeight : Int)
    (start coins : Ledger.Coins Uint256 Coin) (tx : CTransaction)
    (vacant : Ledger.Vacant start (getHash tx)) (origin : Origin start nHeight coins) :
    Origin start nHeight (Ledger.apply coins (ledgerEntry getHash nHeight tx)) := by
  intro id n coin present
  by_cases own : id = (ledgerEntry getHash nHeight tx).id
  · rw [own, Ledger.apply_id] at present
    obtain ⟨txout, -, rfl⟩ := Option.map_eq_some_iff.mp present
    exact .inr ⟨rfl, own ▸ vacant⟩
  · rw [Ledger.apply_other _ _ _ _ own, Ledger.spendAll] at present
    split at present
    · cases present
    · exact origin id n coin present

/-- A coin of the block itself has earned nothing, whatever the height of the chain. -/
theorem worth_own_height (env : Environment) (c t nHeight : Int) (coin : Coin)
    (amount : moneyRange coin.txout.nValue = true) (own : coin.nHeight = nHeight) :
    coin.worth env nHeight = coin.worth (env.moved c t) nHeight := by
  have nonneg := ((moneyRange_iff _).mp amount).1
  rw [Coin.worth, Coin.worth, CTxOut.getValueWithInterest, CTxOut.getValueWithInterest]
  cases getTermDepositReleaseBlock coin.txout.scriptPubKey with
  | error fault => rfl
  | ok maturationBlock =>
      simp only [Except.map, Environment.moved]
      rw [own, getInterest_same_height env.pow env.chainHeight _ _ _ nonneg,
        getInterest_same_height env.pow c _ _ _ nonneg]

/-- What a transaction spends has an amount in range. -/
theorem spent_amounts (env : Environment) (context : BlockContext) (i : Nat) (st st' : Connecting)
    (tx : CTransaction) (checked : CheckedTransaction tx)
    (connected : connectTx env context i st tx = .ok st') :
    ∀ txin ∈ tx.spentInputs, ∃ coin,
      st.view.utxo txin.prevout.hash txin.prevout.n.toNat = some coin ∧
        moneyRange coin.txout.nValue = true := by
  intro txin member
  obtain ⟨txundo, step⟩ := connectTx_ok env context i st st' tx checked connected
  obtain ⟨_, coin, -, present, ok⟩ := spent_coins env context i st st' tx txundo step txin member
  exact ⟨coin, present, ok.amount⟩

theorem sameWorth_origin (env : Environment) (c t nHeight : Int)
    (start coins : Ledger.Coins Uint256 Coin) (vin : List CTxIn)
    (origin : Origin start nHeight coins)
    (amounts : ∀ txin ∈ vin, ∃ coin, coins txin.prevout.hash txin.prevout.n.toNat = some coin ∧
      moneyRange coin.txout.nValue = true)
    (worth : SameWorth env (env.moved c t) nHeight start vin) :
    SameWorth env (env.moved c t) nHeight coins vin := by
  intro txin member coin present
  rcases origin _ _ coin present with older | ⟨own, -⟩
  · exact worth txin member coin older
  · obtain ⟨coin', present', amount⟩ := amounts txin member
    rw [present, Option.some.injEq] at present'
    exact worth_own_height env c t nHeight coin (present' ▸ amount) own

theorem inputWorth_mirrors (env env' : Environment) (nHeight : Int) (view back : FlatView)
    (txin : CTxIn) (restores : Restores view.utxo back.utxo) (coin : Coin)
    (present : view.utxo txin.prevout.hash txin.prevout.n.toNat = some coin) :
    inputWorth env nHeight view.utxo txin = coin.worth env nHeight ∧
      inputWorth env' nHeight back.utxo txin = coin.worth env' nHeight := by
  obtain ⟨coin', present', agree⟩ := restores_some _ _ restores _ _ coin present
  rw [inputWorth, inputWorth, present, present', Option.map_some, Option.map_some,
    Option.getD_some, Option.getD_some, worth_back env' nHeight coin coin' agree]
  exact ⟨rfl, rfl⟩

/-- The values given to the inputs of one transaction are equal exactly when its coins are worth
the same. -/
theorem values_iff_sameWorth (env env' : Environment) (nHeight : Int) (view back : FlatView)
    (vin : List CTxIn) (restores : Restores view.utxo back.utxo)
    (present : ∀ txin ∈ vin, ∃ coin,
      view.utxo txin.prevout.hash txin.prevout.n.toNat = some coin) :
    vin.map (inputWorth env' nHeight back.utxo) = vin.map (inputWorth env nHeight view.utxo) ↔
      SameWorth env env' nHeight view.utxo vin := by
  rw [List.map_inj_left, SameWorth]
  constructor
  · intro same txin member coin found
    obtain ⟨first, second⟩ :=
      inputWorth_mirrors env env' nHeight view back txin restores coin found
    rw [← first, ← second, same txin member]
  · intro worth txin member
    obtain ⟨coin, found⟩ := present txin member
    obtain ⟨first, second⟩ :=
      inputWorth_mirrors env env' nHeight view back txin restores coin found
    rw [first, second, worth txin member coin found]

/-- What the second run through the transactions of a block starts from. -/
structure Replaying (env : Environment) (context : BlockContext)
    (start : Ledger.Coins Uint256 Coin) (st : Connecting) (vtx : List CTransaction) : Prop where
  height : nextHeight env st.view = .ok context.nHeight
  origin : Origin start context.nHeight st.view.utxo
  vacant : ∀ tx ∈ vtx, Ledger.Vacant start (env.getHash tx)
  checked : ∀ tx ∈ vtx, CheckedTransaction tx

theorem replaying_next (env : Environment) (context : BlockContext) (i : Nat)
    (start : Ledger.Coins Uint256 Coin) (st middle : Connecting) (tx : CTransaction)
    (vtx : List CTransaction) (replaying : Replaying env context start st (tx :: vtx))
    (connected : connectTx env context i st tx = .ok middle) :
    Replaying env context start middle vtx := by
  have vacant := List.forall_mem_cons.mp replaying.vacant
  have checked := List.forall_mem_cons.mp replaying.checked
  obtain ⟨txundo, step⟩ := connectTx_ok env context i st middle tx checked.1 connected
  refine ⟨?_, ?_, vacant.2, checked.2⟩
  · rw [nextHeight_connectTx env context i st middle tx txundo step]
    exact replaying.height
  · rw [(utxo_updateCoins env _ st.view middle.view tx txundo step.updated).1]
    exact origin_apply env.getHash context.nHeight start st.view.utxo tx vacant.1 replaying.origin

/-- With the coins before the block worth the same, the transactions connect again with the same
values. -/
theorem connectTxs_mirrors (env : Environment) (c t : Int) (context : BlockContext) (i : Nat)
    (start : Ledger.Coins Uint256 Coin) (vtx : List CTransaction) (st st' back : Connecting)
    (replaying : Replaying env context start st vtx) (alongside : Alongside st back)
    (worth : ∀ tx ∈ vtx, SameWorth env (env.moved c t) context.nHeight start tx.spentInputs)
    (connected : connectTxs env context i st vtx = .ok st') :
    ∃ back', connectTxs (env.moved c t) context i back vtx = .ok back' ∧ Alongside st' back' ∧
      connectValues (env.moved c t) context i back vtx = connectValues env context i st vtx := by
  induction vtx generalizing i st back with
  | nil =>
      cases connected
      exact ⟨back, rfl, alongside, rfl⟩
  | cons tx vtx ih =>
      rw [connectTxs, bind_ok] at connected
      obtain ⟨middle, first, others⟩ := connected
      rw [List.forall_mem_cons] at worth
      have amounts := spent_amounts env context i st middle tx
        (replaying.checked tx List.mem_cons_self) first
      have here := sameWorth_origin env c t context.nHeight start st.view.utxo tx.spentInputs
        replaying.origin amounts worth.1
      obtain ⟨middle', first', agree⟩ :=
        connectTx_mirrors env c t context i st middle back tx alongside replaying.height here first
      obtain ⟨back', others', agree', values⟩ := ih (i + 1) middle middle'
        (replaying_next env context i start st middle tx vtx replaying first) agree worth.2 others
      have present : ∀ txin ∈ tx.spentInputs, ∃ coin,
          st.view.utxo txin.prevout.hash txin.prevout.n.toNat = some coin :=
        fun txin member => (amounts txin member).imp fun _ found => found.1
      refine ⟨back', ?_, agree', ?_⟩
      · rw [connectTxs, bind_ok]
        exact ⟨middle', first', others'⟩
      · rw [connectValues, connectValues, first, first']
        dsimp only
        rw [values, (values_iff_sameWorth env (env.moved c t) context.nHeight st.view back.view
          tx.spentInputs alongside.view.coins present).mpr here]

/-- Two runs that have given every input the same value found the coins before the block worth the
same; and whatever the values, they end with the same coins. -/
theorem connectTxs_values (env : Environment) (c t : Int) (context : BlockContext) (i : Nat)
    (start : Ledger.Coins Uint256 Coin) (vtx : List CTransaction) (st st' back back' : Connecting)
    (replaying : Replaying env context start st vtx) (mirrors : Mirrors st.view back.view)
    (connected : connectTxs env context i st vtx = .ok st')
    (again : connectTxs (env.moved c t) context i back vtx = .ok back') :
    Mirrors st'.view back'.view ∧
      (connectValues (env.moved c t) context i back vtx = connectValues env context i st vtx →
        ∀ tx ∈ vtx, SameWorth env (env.moved c t) context.nHeight start tx.spentInputs) := by
  induction vtx generalizing i st back with
  | nil =>
      cases connected
      cases again
      exact ⟨mirrors, by simp⟩
  | cons tx vtx ih =>
      rw [connectTxs, bind_ok] at connected again
      obtain ⟨middle, first, others⟩ := connected
      obtain ⟨middle', first', others'⟩ := again
      have checked := replaying.checked tx List.mem_cons_self
      obtain ⟨txundo, step⟩ := connectTx_ok env context i st middle tx checked first
      obtain ⟨txundo', step'⟩ := connectTx_ok (env.moved c t) context i back middle' tx checked
        first'
      have next := updated_mirrors env c t context.nHeight st.view middle.view back.view
        middle'.view tx txundo txundo' mirrors step.updated step'.updated
      obtain ⟨final, rest⟩ := ih (i + 1) middle middle'
        (replaying_next env context i start st middle tx vtx replaying first) next others others'
      refine ⟨final, ?_⟩
      intro values
      rw [connectValues, connectValues, first, first'] at values
      obtain ⟨here, later⟩ := List.cons.inj values
      have amounts := spent_amounts env context i st middle tx checked first
      have present : ∀ txin ∈ tx.spentInputs, ∃ coin,
          st.view.utxo txin.prevout.hash txin.prevout.n.toNat = some coin :=
        fun txin member => (amounts txin member).imp fun _ found => found.1
      have worth := (values_iff_sameWorth env (env.moved c t) context.nHeight st.view back.view
        tx.spentInputs mirrors.coins present).mp here
      rw [List.forall_mem_cons]
      refine ⟨?_, rest later⟩
      intro txin member coin older
      obtain ⟨spent, found⟩ := present txin member
      rcases replaying.origin _ _ spent found with same | ⟨-, vacant⟩
      · rw [older, Option.some.injEq] at same
        exact worth txin member coin (same ▸ found)
      · rw [vacant] at older
        cases older

/-! ## The block -/

/-- The values that `ConnectBlock` gives the inputs of a block. -/
def blockValues (env : Environment) (block : CBlock) (pindex : CBlockIndex) (view : FlatView) :
    List (List Int) :=
  connectValues env (blockContext env block pindex) 0 ⟨view, 0, 0, [], []⟩ block.vtx

theorem superMajorityLoop_moved (env : Environment) (c t minVersion : Int) (nRequired fuel : Nat)
    (nFound : Nat) (pstart : Option CBlockIndex) :
    superMajorityLoop (env.moved c t) minVersion nRequired fuel nFound pstart =
      superMajorityLoop env minVersion nRequired fuel nFound pstart := by
  induction fuel generalizing nFound pstart with
  | zero => cases pstart <;> rfl
  | succ fuel ih =>
      cases pstart with
      | none => rfl
      | some pindex =>
          rw [superMajorityLoop, superMajorityLoop, ih]
          rfl

theorem blockContext_moved (env : Environment) (c t : Int) (block : CBlock)
    (pindex : CBlockIndex) :
    blockContext (env.moved c t) block pindex = blockContext env block pindex := by
  have flag : ∀ minVersion flag, upgradeFlag (env.moved c t) block pindex minVersion flag =
      upgradeFlag env block pindex minVersion flag := by
    intro minVersion flag
    rw [upgradeFlag, upgradeFlag, isSuperMajority, isSuperMajority, superMajorityLoop_moved]
    rfl
  rw [blockContext, blockContext, flag, flag]
  rfl

/-- A block that `ConnectBlock` has accepted once, as it looks to the transaction loop. -/
theorem block_replaying (env : Environment) (block : CBlock) (pindex : CBlockIndex)
    (view : FlatView) (result : Connected) (st : Connecting)
    (passed : BlockConnected env block pindex view false result st)
    (bip30 : enforceBIP30 pindex = true) (height : nextHeight env view = .ok pindex.nHeight) :
    Replaying env (blockContext env block pindex) view.utxo ⟨view, 0, 0, [], []⟩ block.vtx :=
  ⟨height, fun _ _ _ present => .inl present, passed.bip30 bip30, passed.checked.checked⟩

theorem checkBIP30_mirrors (env : Environment) (c t : Int) (pindex : CBlockIndex)
    (view back : FlatView) (vtx : List CTransaction) (restores : Restores view.utxo back.utxo)
    (passed : checkBIP30 env pindex view vtx = .ok ()) :
    checkBIP30 (env.moved c t) pindex back vtx = .ok () := by
  rw [checkBIP30] at passed ⊢
  split
  · rename_i enforced
    rw [if_pos enforced, each_ok] at passed
    rw [each_ok]
    intro tx member
    have pruned := passed tx member
    rw [require_ok] at pruned ⊢
    have vacant := (vacant_iff_pruned view _).mpr pruned
    exact (vacant_iff_pruned back _).mp (vacant_mirrors view back restores _ vacant)
  · rfl

/-- With the coins before the block worth the same, the block connects again with the same
values. -/
theorem connectBlock_again (env : Environment) (c t : Int) (block : CBlock) (pindex : CBlockIndex)
    (view back : FlatView) (result : Connected)
    (regular : env.blockHash block.header ≠ env.params.hashGenesisBlock)
    (bip30 : enforceBIP30 pindex = true) (height : nextHeight env view = .ok pindex.nHeight)
    (mirrors : Mirrors view back) (checked : checkBlock (env.moved c t) block true true = .ok ())
    (worth : ∀ tx ∈ block.vtx,
      SameWorth env (env.moved c t) pindex.nHeight view.utxo tx.spentInputs)
    (accepted : connectBlock env block pindex view false = .ok result) :
    ∃ result', connectBlock (env.moved c t) block pindex back false = .ok result' ∧
      blockValues (env.moved c t) block pindex back = blockValues env block pindex view := by
  obtain ⟨st, passed⟩ := connectBlock_ok env block pindex view false result regular accepted
  have replaying := block_replaying env block pindex view result st passed bip30 height
  obtain ⟨back', connected, alongside, values⟩ := connectTxs_mirrors env c t
    (blockContext env block pindex) 0 view.utxo block.vtx ⟨view, 0, 0, [], []⟩ st
    ⟨back, 0, 0, [], []⟩ replaying ⟨mirrors, rfl, rfl, rfl⟩ worth passed.connected
  obtain ⟨parent, hash, previous, own, -⟩ := finishBlock_view _ _ _ _ passed.finished
  rw [connectBlock, if_neg regular] at accepted
  simp only [connectTransactions, bind_ok, require_ok] at accepted
  obtain ⟨_, -, _, best, _, duplicates, st', again, _, control, -⟩ := accepted
  rw [passed.connected, Except.ok.injEq] at again
  rw [← again] at control
  have regular' : (env.moved c t).blockHash block.header ≠
      (env.moved c t).params.hashGenesisBlock := regular
  have best' : pindex.pprev.getD 0 = back.hashBlock := best.trans mirrors.best.symm
  have duplicates' :=
    checkBIP30_mirrors env c t pindex view back block.vtx mirrors.coins duplicates
  have control' : ∀ check ∈ back'.control, check.failed (env.moved c t) = none := by
    rw [alongside.control]
    exact control
  refine ⟨⟨back'.view.setBestBlock hash, some back'.vtxundo,
    wrap64 (back'.nFees + getBlockSubsidy pindex.nHeight + 1000)⟩, ?_, ?_⟩
  · rw [connectBlock, if_neg regular']
    simp only [connectTransactions, bind_ok, require_ok, blockContext_moved, finishBlock,
      Bool.false_eq_true, if_false, previous, own, Bool.not_false]
    exact ⟨(), checked, (), previous ▸ best', (), duplicates', back', connected, (), control', rfl⟩
  · rw [blockValues, blockValues, blockContext_moved]
    exact values

/-- Connecting the block again leaves the same coins behind, and where every input got the same
value the coins before the block are worth the same. -/
theorem connectBlock_values (env : Environment) (c t : Int) (block : CBlock)
    (pindex : CBlockIndex) (view back : FlatView) (result result' : Connected)
    (regular : env.blockHash block.header ≠ env.params.hashGenesisBlock)
    (bip30 : enforceBIP30 pindex = true) (height : nextHeight env view = .ok pindex.nHeight)
    (mirrors : Mirrors view back)
    (accepted : connectBlock env block pindex view false = .ok result)
    (again : connectBlock (env.moved c t) block pindex back false = .ok result') :
    Mirrors result.view result'.view ∧
      (blockValues (env.moved c t) block pindex back = blockValues env block pindex view →
        ∀ tx ∈ block.vtx,
          SameWorth env (env.moved c t) pindex.nHeight view.utxo tx.spentInputs) := by
  obtain ⟨st, passed⟩ := connectBlock_ok env block pindex view false result regular accepted
  obtain ⟨back', passed'⟩ :=
    connectBlock_ok (env.moved c t) block pindex back false result' regular again
  have replaying := block_replaying env block pindex view result st passed bip30 height
  have connected' := passed'.connected
  rw [blockContext_moved] at connected'
  obtain ⟨final, worth⟩ := connectTxs_values env c t (blockContext env block pindex) 0 view.utxo
    block.vtx ⟨view, 0, 0, [], []⟩ st ⟨back, 0, 0, [], []⟩ back' replaying mirrors
    passed.connected connected'
  obtain ⟨_, hash, -, own, shape⟩ := finishBlock_view _ _ _ _ passed.finished
  obtain ⟨_, hash', -, own', shape'⟩ := finishBlock_view _ _ _ _ passed'.finished
  rw [own, Option.some.injEq] at own'
  refine ⟨?_, ?_⟩
  · rw [shape, shape', own']
    exact ⟨final.coins, rfl⟩
  · rw [blockValues, blockValues, blockContext_moved]
    exact worth

end RoiCoin
