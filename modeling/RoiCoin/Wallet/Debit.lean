import RoiCoin.Validation.CheckInputs
import RoiCoin.Wallet.Balance

/-! What a wallet transaction spent, against the values its inputs had in its block.

`CWallet::GetDebit` takes the height of an output and of its valuation for the tip height less the
depth, which is one block below both. -/

namespace RoiCoin

open Checked FlatView Totals

/-! ## The debit -/

/-- `GetValueOut` as the wallet calls it. -/
def walletValueOut (tx : CTransaction) : Walleting Int :=
  match tx.getValueOut with
  | .ok nValueOut => .ok nValueOut
  | .error _ => .error (.valueOutOfRange "CTransaction::GetValueOut(): value out of range")

namespace CWalletStore

variable (w : CWalletStore) (node : NodeView) (filter : IsMineFilter)

/-- `CWalletTx::GetDebit`; nothing sets the flags of its caches. -/
def getDebit (wtx : CWalletTx) (addInterest : Bool) : Walleting Int :=
  if wtx.tx.vin = [] then .ok 0
  else do
    let nDepth := if addInterest then wtx.getDepthInMainChain node else 0
    let spendable ←
      if filter = .watchOnly then .ok 0 else w.debitFrom node .spendable nDepth 0 wtx.tx.vin
    let watchOnly ←
      if filter = .spendable then .ok 0 else w.debitFrom node .watchOnly nDepth 0 wtx.tx.vin
    amount (spendable + watchOnly)

/-- `nFee` of `GetAmounts`. -/
def reportedFee (wtx : CWalletTx) : Walleting Int := do
  let nDebit ← w.getDebit node filter wtx true
  if nDebit > 0 then
    let nValueOut ← walletValueOut wtx.tx
    amount (nDebit - nValueOut)
  else return 0

/-! ## A confirmed transaction -/

/-- The wallet has the transaction in the block of the active chain at a height. -/
structure ConfirmedAt (wtx : CWalletTx) (nHeight : Int) : Prop where
  named : wtx.hashBlock ≠ 0
  placed : wtx.nIndex ≠ -1
  index : ∃ root, node.mapBlockIndex wtx.hashBlock = some ⟨nHeight, root, true⟩ ∧
    (wtx.fMerkleVerified = false →
      root = CWalletTx.checkMerkleBranch node wtx.hash wtx.vMerkleBranch wtx.nIndex)
  below : nHeight ≤ node.height

/-- An input spends an output of a wallet transaction that its block gave the view. -/
structure SpendsConfirmed (view : FlatView) (txin : CTxIn) (prev : CWalletTx) (coin : Coin) :
    Prop where
  owner : w.getWalletTx txin.prevout.hash = some prev
  confirmed : ConfirmedAt node prev coin.nHeight
  created : createdCoin coin.nHeight prev.tx txin.prevout.n.toNat = some coin
  unspent : view.utxo txin.prevout.hash txin.prevout.n.toNat = some coin

/-- What `CheckInputs` did for a transaction when its block was connected, and what the wallet has
of it later. -/
structure ConfirmedSpend (env : Environment) (view : FlatView) (wtx : CWalletTx)
    (nSpendHeight nValueIn nValueOut : Int) : Prop where
  samePow : node.pow = env.pow
  height : nextHeight env view = .ok nSpendHeight
  tip : nSpendHeight - 1 ≤ env.chainHeight
  valueIn : addInputValues env view nSpendHeight 0 wtx.tx.vin = .ok nValueIn
  valueOut : wtx.tx.getValueOut = .ok nValueOut
  confirmed : ConfirmedAt node wtx nSpendHeight
  spends : ∀ txin ∈ wtx.tx.vin, ∃ prev coin, w.SpendsConfirmed node view txin prev coin

/-! ## Heights one block too low -/

/-- The filter lets the output pass. -/
def passesFilter (txout : CTxOut) : Bool :=
  match w.isMine txout with
  | .ok mine => mine.passes filter
  | .error _ => false

/-- What an output is worth when its height and that of the valuation are one lower. -/
def lowerWorth (env : Environment) (nSpendHeight : Int) (coin : Coin) : Int :=
  { coin with nHeight := coin.nHeight - 1 }.worth env (nSpendHeight - 1)

/-- What an input loses when both heights are one lower, which is all of an output that the filter
stops. -/
def heightSlip (env : Environment) (nSpendHeight : Int) (coin : Coin) : Int :=
  coin.worth env nSpendHeight -
    if w.passesFilter filter coin.txout then lowerWorth env nSpendHeight coin else 0

def inputSlip (env : Environment) (view : FlatView) (nSpendHeight : Int) (txin : CTxIn) : Int :=
  ((view.utxo txin.prevout.hash txin.prevout.n.toNat).map
    (w.heightSlip filter env nSpendHeight)).getD 0

/-- `IsMine` returns on the output that an input spends. -/
def Recognised (view : FlatView) (txin : CTxIn) : Prop :=
  ∀ coin, view.utxo txin.prevout.hash txin.prevout.n.toNat = some coin →
    ∃ mine, w.isMine coin.txout = .ok mine

/-- When the debit is what the inputs were worth. -/
structure DebitExact (env : Environment) (view : FlatView) (tx : CTransaction)
    (nSpendHeight nValueOut : Int) : Prop where
  recognised : ∀ txin ∈ tx.vin, w.Recognised view txin
  /-- The losses of the inputs cancel out. -/
  level : (tx.vin.map (w.inputSlip filter env view nSpendHeight)).sum = 0
  /-- The fee is left out for a debit of zero. -/
  paying : nValueOut ≠ 0 → ∃ txin ∈ tx.vin, inputWorth env nSpendHeight view.utxo txin ≠ 0

end CWalletStore

/-- The interest reads nothing of the heights but their difference. -/
def HeightBlind (outputBlockHeight valuationHeight maturationBlock : Int) : Prop :=
  maturationBlock ≥ 500000000 ∨ valuationHeight ≤ outputBlockHeight ∨
    (fork1Height < outputBlockHeight ∧ outputBlockHeight ≠ twoYears ∧
      (maturationBlock ≤ 0 ∨ maturationBlock - outputBlockHeight < 720 * 2 ∨
        oneYear ≤ maturationBlock - outputBlockHeight))

theorem getInterest_lower (pow : Int → Int → Int) (chainHeight nValue outputBlockHeight
    valuationHeight maturationBlock : Int) (money : moneyRange nValue = true)
    (reached : valuationHeight ≤ chainHeight)
    (blind : HeightBlind outputBlockHeight valuationHeight maturationBlock) :
    getInterest pow chainHeight nValue (outputBlockHeight - 1) (valuationHeight - 1)
        maturationBlock =
      getInterest pow chainHeight nValue outputBlockHeight valuationHeight maturationBlock := by
  have fork : fork1Height = 25000 := rfl
  have year : oneYear = 262800 := rfl
  have years : twoYears = 525600 := rfl
  have inside := (moneyRange_iff nValue).mp money
  have most : maxMoney = 600000000000000000 := rfl
  have kept : validateCoins (wrap64 nValue) = nValue := by
    rw [wrap64_of_fits nValue (by omega) (by omega), validateCoins, if_neg (by omega), money]
    rfl
  by_cases outside : maturationBlock ≥ 500000000 ∨ valuationHeight < outputBlockHeight
  · rw [getInterest, getInterest, if_pos (by omega), if_pos (by omega)]
  · by_cases same : valuationHeight = outputBlockHeight
    · rw [same, getInterest_same_height pow chainHeight nValue _ _ inside.1,
        getInterest_same_height pow chainHeight nValue _ _ inside.1, kept, ite_self, ite_self]
    · have late : fork1Height < outputBlockHeight ∧ outputBlockHeight ≠ twoYears ∧
          (maturationBlock ≤ 0 ∨ maturationBlock - outputBlockHeight < 720 * 2 ∨
            oneYear ≤ maturationBlock - outputBlockHeight) := by
        rcases blind with far | early | late
        · omega
        · omega
        · exact late
      obtain ⟨after, notTwoYears, term⟩ := late
      have past : ∀ height, fork1Height ≤ height → belowFork1 height = false := by
        intro height above
        simp only [belowFork1, Bool.and_eq_false_iff, decide_eq_false_iff_not]
        omega
      have blocks : interestBlocks (outputBlockHeight - 1) (valuationHeight - 1) maturationBlock =
          interestBlocks outputBlockHeight valuationHeight maturationBlock := by
        have gap : valuationHeight - 1 - (outputBlockHeight - 1) =
            valuationHeight - outputBlockHeight := by omega
        rw [interestBlocks, interestBlocks, gap]
      have bonus : decide (outputBlockHeight - 1 < twoYears) =
          decide (outputBlockHeight < twoYears) := by
        rw [decide_eq_decide]
        omega
      have deposit : ∀ am,
          termDepositInterest chainHeight (outputBlockHeight - 1) maturationBlock am =
            termDepositInterest chainHeight outputBlockHeight maturationBlock am := by
        intro am
        simp only [termDepositInterest, past chainHeight (by omega),
          past outputBlockHeight (by omega), past (outputBlockHeight - 1) (by omega)]
        rcases term with none | short | long
        · rw [if_neg (by omega), if_neg (by omega)]
        · rw [if_neg (by omega), if_neg (by omega)]
        · rw [min_eq_left (show oneYear ≤ maturationBlock - (outputBlockHeight - 1) by omega),
            min_eq_left long]
      rw [getInterest, getInterest, if_neg (by omega), if_neg (by omega)]
      simp only [blocks, deposit, standardInterest, bonusInterest, bonus,
        past chainHeight (by omega), past outputBlockHeight (by omega),
        past (outputBlockHeight - 1) (by omega), Bool.or_false, Bool.and_false,
        Bool.false_eq_true, if_false]

theorem spendable_output (tx : CTransaction) (n : Nat) (txout : CTxOut)
    (created : CCoins.spendable tx n = some txout) : tx.vout[n]? = some txout := by
  rw [CCoins.spendable, Option.filter_eq_some_iff, Option.bind_eq_some_iff] at created
  obtain ⟨⟨other, here, present⟩, -⟩ := created
  rw [CTxOut.unspent, Option.ite_none_left_eq_some, Option.some.injEq] at present
  rw [here, present.2]

theorem createdCoin_output (nHeight : Int) (tx : CTransaction) (n : Nat) (coin : Coin)
    (created : createdCoin nHeight tx n = some coin) : tx.vout[n]? = some coin.txout := by
  rw [createdCoin, Option.map_eq_some_iff] at created
  obtain ⟨txout, spendable, rfl⟩ := created
  exact spendable_output tx n txout spendable

theorem valueOutFrom_money (vout : List CTxOut) (nValueOut result : Int)
    (start : moneyRange nValueOut = true) (summed : valueOutFrom nValueOut vout = .ok result) :
    moneyRange result = true := by
  induction vout generalizing nValueOut with
  | nil =>
      cases summed
      exact start
  | cons txout vout ih =>
      simp only [valueOutFrom, then_ok, require_ok] at summed
      exact ih _ summed.1.2 summed.2

namespace CWalletStore

variable (w : CWalletStore) (node : NodeView) (filter : IsMineFilter)

theorem ConfirmedAt.depth {node : NodeView} {wtx : CWalletTx} {nHeight : Int}
    (confirmed : ConfirmedAt node wtx nHeight) :
    wtx.getDepthInMainChain node = node.height - nHeight + 1 := by
  obtain ⟨named, placed, ⟨root, index, verified⟩, below⟩ := confirmed
  have internal : wtx.getDepthInternal node = node.height - nHeight + 1 := by
    have found : ¬ (¬ wtx.fMerkleVerified = true ∧
        root ≠ CWalletTx.checkMerkleBranch node wtx.hash wtx.vMerkleBranch wtx.nIndex) := by
      intro given
      exact given.2 (verified (Bool.eq_false_of_not_eq_true given.1))
    simp only [CWalletTx.getDepthInternal, index, Bool.not_true, Bool.false_eq_true, if_false,
      if_neg found, named, placed, or_self]
  simp only [CWalletTx.getDepthInMainChain, internal]
  rw [if_neg (by omega)]

/-- What an input adds to the debit. -/
def debitWorth (env : Environment) (view : FlatView) (nSpendHeight : Int) (txin : CTxIn) : Int :=
  ((view.utxo txin.prevout.hash txin.prevout.n.toNat).map fun coin =>
    if w.passesFilter filter coin.txout then lowerWorth env nSpendHeight coin else 0).getD 0

theorem inputSlip_eq (env : Environment) (view : FlatView) (nSpendHeight : Int) (txin : CTxIn) :
    w.inputSlip filter env view nSpendHeight txin =
      inputWorth env nSpendHeight view.utxo txin -
        w.debitWorth filter env view nSpendHeight txin := by
  rw [inputSlip, inputWorth, debitWorth]
  cases view.utxo txin.prevout.hash txin.prevout.n.toNat with
  | none => rfl
  | some coin => rfl

theorem slips_total (env : Environment) (view : FlatView) (nSpendHeight : Int) (vin : List CTxIn) :
    (vin.map (w.inputSlip filter env view nSpendHeight)).sum =
      inputsWorth env nSpendHeight view.utxo vin -
        (vin.map (w.debitWorth filter env view nSpendHeight)).sum := by
  induction vin with
  | nil => rfl
  | cons txin vin ih =>
      rw [inputsWorth] at ih ⊢
      simp only [List.map_cons, List.sum_cons, ih, inputSlip_eq]
      omega

/-- An output passes at most one of the filters for one kind. -/
theorem passesFilter_kinds (txout : CTxOut) :
    (w.passesFilter .all txout = false ∧ w.passesFilter .spendable txout = false ∧
        w.passesFilter .watchOnly txout = false) ∨
      (w.passesFilter .all txout = true ∧ w.passesFilter .spendable txout = true ∧
        w.passesFilter .watchOnly txout = false) ∨
      (w.passesFilter .all txout = true ∧ w.passesFilter .spendable txout = false ∧
        w.passesFilter .watchOnly txout = true) := by
  simp only [passesFilter]
  cases w.isMine txout with
  | error fault => simp
  | ok mine => cases mine <;> simp [IsMineType.passes]

/-- The filter for both kinds adds up what the filters for one kind let pass. -/
theorem debitWorth_all (env : Environment) (view : FlatView) (nSpendHeight : Int) (txin : CTxIn) :
    w.debitWorth .all env view nSpendHeight txin =
      w.debitWorth .spendable env view nSpendHeight txin +
        w.debitWorth .watchOnly env view nSpendHeight txin := by
  simp only [debitWorth]
  cases view.utxo txin.prevout.hash txin.prevout.n.toNat with
  | none => rfl
  | some coin =>
      simp only [Option.map_some, Option.getD_some]
      rcases w.passesFilter_kinds coin.txout with kinds | kinds | kinds
      · simp [kinds]
      · simp [kinds]
      · simp [kinds]

section Confirmed

variable {w node} {env : Environment} {view : FlatView} {nSpendHeight : Int}

theorem SpendsConfirmed.money {txin : CTxIn} {prev : CWalletTx} {coin : Coin}
    (spends : w.SpendsConfirmed node view txin prev coin) :
    moneyRange coin.txout.nValue = true :=
  prev.inRange _ (List.mem_of_getElem? (createdCoin_output _ _ _ coin spends.created))

theorem lowerWorth_money (coin : Coin) (money : moneyRange coin.txout.nValue = true) :
    moneyRange (lowerWorth env nSpendHeight coin) = true :=
  worth_range env (nSpendHeight - 1) { coin with nHeight := coin.nHeight - 1 } money

theorem SpendsConfirmed.debitWorth_money {txin : CTxIn} {prev : CWalletTx} {coin : Coin}
    (spends : w.SpendsConfirmed node view txin prev coin) :
    moneyRange (w.debitWorth filter env view nSpendHeight txin) = true := by
  simp only [debitWorth, spends.unspent, Option.map_some, Option.getD_some]
  split
  · exact lowerWorth_money coin spends.money
  · rfl

/-- The wallet values an owned input at both heights one lower. -/
theorem debitValue_lower {txin : CTxIn} {prev : CWalletTx} {coin : Coin} {depth : Int}
    (spends : w.SpendsConfirmed node view txin prev coin) (samePow : node.pow = env.pow)
    (tip : nSpendHeight - 1 ≤ env.chainHeight) (below : nSpendHeight ≤ node.height)
    (deep : depth = node.height - nSpendHeight + 1) (release : Int)
    (read : getTermDepositReleaseBlock coin.txout.scriptPubKey = .ok release) :
    debitValue node prev depth coin.txout = .ok (lowerWorth env nSpendHeight coin) := by
  have money := (moneyRange_iff _).mp spends.money
  have output : node.height - prev.getDepthInMainChain node = coin.nHeight - 1 := by
    rw [spends.confirmed.depth]
    omega
  have valuation : node.height - depth = nSpendHeight - 1 := by omega
  have later := interest_ignores_chain_height env.pow coin.txout.nValue (coin.nHeight - 1)
    (nSpendHeight - 1) release node.height env.chainHeight money.1 (by omega) (by omega)
  rw [debitValue, if_neg (by omega), output, valuation, CWalletTx.valueWithInterest, samePow,
    CTxOut.getValueWithInterest, read, lowerWorth, Coin.worth, CTxOut.getValueWithInterest, read]
  simp only [Except.map, liftFault, later]

theorem inputDebit_ok {txin : CTxIn} {prev : CWalletTx} {coin : Coin} {depth : Int}
    (spends : w.SpendsConfirmed node view txin prev coin) (samePow : node.pow = env.pow)
    (tip : nSpendHeight - 1 ≤ env.chainHeight) (below : nSpendHeight ≤ node.height)
    (deep : depth = node.height - nSpendHeight + 1) (release : Int)
    (read : getTermDepositReleaseBlock coin.txout.scriptPubKey = .ok release) (debit : Int) :
    w.inputDebit node filter depth txin = .ok debit ↔
      (∃ mine, w.isMine coin.txout = .ok mine) ∧
        debit = w.debitWorth filter env view nSpendHeight txin := by
  have value := debitValue_lower spends samePow tip below deep release read
  simp only [inputDebit, spends.owner, createdCoin_output _ _ _ coin spends.created, debitWorth,
    spends.unspent, Option.map_some, Option.getD_some]
  cases owned : w.isMine coin.txout with
  | error fault => simp [bind, Except.bind]
  | ok mine =>
      have passes : w.passesFilter filter coin.txout = mine.passes filter := by
        rw [passesFilter, owned]
      simp only [bind, Except.bind, Except.ok.injEq, exists_eq', true_and, passes]
      split
      · rw [value, Except.ok.injEq, eq_comm]
      · simp only [pure, Except.pure, Except.ok.injEq, eq_comm]

end Confirmed

/-- The debit is the sum over the inputs when the sum is an amount. -/
theorem debitFrom_ok (depth : Int) (worth : CTxIn → Int) (reads : CTxIn → Prop) (vin : List CTxIn)
    (each : ∀ txin ∈ vin, ∀ debit,
      w.inputDebit node filter depth txin = .ok debit ↔ reads txin ∧ debit = worth txin)
    (nonneg : ∀ txin ∈ vin, 0 ≤ worth txin) (nDebit result : Int)
    (start : moneyRange nDebit = true) :
    w.debitFrom node filter depth nDebit vin = .ok result ↔
      (∀ txin ∈ vin, reads txin) ∧ result = nDebit + (vin.map worth).sum ∧
        moneyRange result = true := by
  induction vin generalizing nDebit with
  | nil =>
      simp only [debitFrom, Except.ok.injEq, List.map_nil, List.sum_nil, Int.add_zero,
        List.not_mem_nil, false_implies, implies_true, true_and]
      constructor
      · intro same
        exact ⟨same.symm, same ▸ start⟩
      · intro given
        exact given.1.symm
  | cons txin vin ih =>
      rw [List.forall_mem_cons] at each nonneg
      have rest := ih each.2 nonneg.2
      have later := total_nonneg worth vin nonneg.2
      have most : maxMoney = 600000000000000000 := rfl
      have before := (moneyRange_iff nDebit).mp start
      have positive := nonneg.1
      simp only [debitFrom, bind_ok, require_ok, each.1, amount_ok, List.forall_mem_cons,
        List.map_cons, List.sum_cons]
      constructor
      · intro given
        obtain ⟨debit, ⟨read, rfl⟩, sum, ⟨-, rfl⟩, -, money, others⟩ := given
        obtain ⟨all, total, inside⟩ := (rest _ money).mp others
        exact ⟨⟨read, all⟩, by omega, inside⟩
      · intro given
        obtain ⟨⟨read, all⟩, total, inside⟩ := given
        have bounds := (moneyRange_iff result).mp inside
        have money : moneyRange (nDebit + worth txin) = true := by
          rw [moneyRange_iff]
          omega
        have fits : fitsAmount (nDebit + worth txin) := by
          rw [fitsAmount]
          omega
        exact ⟨_, ⟨read, rfl⟩, _, ⟨fits, rfl⟩, (), money,
          (rest _ money).mpr ⟨all, by omega, inside⟩⟩

section Confirmed

variable {w node} {env : Environment} {view : FlatView} {wtx : CWalletTx}
variable {nSpendHeight nValueIn nValueOut : Int}

/-- `CheckInputs` read the output of an input and added its worth up. -/
theorem ConfirmedSpend.total
    (spend : w.ConfirmedSpend node env view wtx nSpendHeight nValueIn nValueOut) :
    (∀ txin ∈ wtx.tx.vin, view.haveInput txin = true) ∧
      nValueIn = inputsWorth env nSpendHeight view.utxo wtx.tx.vin ∧
      moneyRange nValueIn = true := by
  have available : ∀ txin ∈ wtx.tx.vin, view.haveInput txin = true := by
    intro txin member
    obtain ⟨prev, coin, spends⟩ := spend.spends txin member
    rw [haveInput_iff, spends.unspent]
    rfl
  have added := addInputValues_ok env view nSpendHeight wtx.tx.vin 0 nValueIn available
    (by decide) spend.valueIn
  exact ⟨available, by simpa using added.2.1, added.2.2⟩

theorem addInputValues_read (vin : List CTxIn) (start result : Int)
    (added : addInputValues env view nSpendHeight start vin = .ok result) :
    ∀ txin ∈ vin, ∃ release,
      getTermDepositReleaseBlock (view.prevOutput txin).scriptPubKey = .ok release := by
  induction vin generalizing start with
  | nil => simp
  | cons txin vin ih =>
      simp only [addInputValues, bind_ok] at added
      obtain ⟨middle, first, others⟩ := added
      rw [List.forall_mem_cons]
      constructor
      · rw [addInputValue] at first
        split at first
        · cases first
        · simp only [bind_ok, liftScript_ok, CTxOut.getValueWithInterest] at first
          obtain ⟨-, -, nValue, valued, -⟩ := first
          cases read : getTermDepositReleaseBlock (view.prevOutput txin).scriptPubKey with
          | error fault =>
              rw [read] at valued
              cases valued
          | ok release => exact ⟨release, rfl⟩
      · exact ih middle others

theorem ConfirmedSpend.inputDebit
    (spend : w.ConfirmedSpend node env view wtx nSpendHeight nValueIn nValueOut) :
    ∀ txin ∈ wtx.tx.vin,
      moneyRange (w.debitWorth filter env view nSpendHeight txin) = true ∧
        ∀ debit, w.inputDebit node filter (wtx.getDepthInMainChain node) txin = .ok debit ↔
          w.Recognised view txin ∧ debit = w.debitWorth filter env view nSpendHeight txin := by
  intro txin member
  obtain ⟨prev, coin, spends⟩ := spend.spends txin member
  obtain ⟨release, read⟩ := addInputValues_read wtx.tx.vin 0 nValueIn spend.valueIn txin member
  obtain ⟨coins, -, found⟩ := coin_of_haveInput view txin (spend.total.1 txin member)
  have output : view.prevOutput txin = coin.txout := by
    rw [spends.unspent, Option.some.injEq] at found
    rw [found]
  rw [output] at read
  refine ⟨spends.debitWorth_money filter, fun debit => ?_⟩
  rw [inputDebit_ok filter spends spend.samePow spend.tip spend.confirmed.below
    spend.confirmed.depth release read, Recognised, spends.unspent]
  simp only [Option.some.injEq, forall_eq']

theorem ConfirmedSpend.debitFrom
    (spend : w.ConfirmedSpend node env view wtx nSpendHeight nValueIn nValueOut) (result : Int) :
    w.debitFrom node filter (wtx.getDepthInMainChain node) 0 wtx.tx.vin = .ok result ↔
      (∀ txin ∈ wtx.tx.vin, w.Recognised view txin) ∧
        result = (wtx.tx.vin.map (w.debitWorth filter env view nSpendHeight)).sum ∧
          moneyRange result = true := by
  rw [w.debitFrom_ok node filter _ (w.debitWorth filter env view nSpendHeight)
    (w.Recognised view) wtx.tx.vin (fun txin member => (spend.inputDebit filter txin member).2)
    (fun txin member => ((moneyRange_iff _).mp (spend.inputDebit filter txin member).1).1) 0 result
    (by decide), Int.zero_add]

theorem ConfirmedSpend.getDebit
    (spend : w.ConfirmedSpend node env view wtx nSpendHeight nValueIn nValueOut) (result : Int)
    (money : moneyRange result = true) :
    w.getDebit node filter wtx true = .ok result ↔
      (∀ txin ∈ wtx.tx.vin, w.Recognised view txin) ∧
        result = (wtx.tx.vin.map (w.debitWorth filter env view nSpendHeight)).sum := by
  have most : maxMoney = 600000000000000000 := rfl
  have inside := (moneyRange_iff result).mp money
  have fits : fitsAmount result := by
    rw [fitsAmount]
    omega
  have nonneg : ∀ kind, 0 ≤ (wtx.tx.vin.map (w.debitWorth kind env view nSpendHeight)).sum := by
    intro kind
    apply total_nonneg
    intro txin member
    exact ((moneyRange_iff _).mp (spend.inputDebit kind txin member).1).1
  rw [CWalletStore.getDebit]
  by_cases empty : wtx.tx.vin = []
  · simp [empty, eq_comm]
  · cases filter with
    | watchOnly =>
        simp only [if_neg empty, if_true, bind_ok, Except.ok.injEq, exists_eq_left', Int.zero_add,
          reduceCtorEq, if_false, spend.debitFrom, amount_ok]
        constructor
        · intro given
          obtain ⟨debit, ⟨read, sum, -⟩, -, rfl⟩ := given
          exact ⟨read, sum⟩
        · intro given
          exact ⟨result, ⟨given.1, given.2, money⟩, fits, rfl⟩
    | spendable =>
        simp only [if_neg empty, if_true, bind_ok, Except.ok.injEq, exists_eq_left', Int.add_zero,
          reduceCtorEq, if_false, spend.debitFrom, amount_ok]
        constructor
        · intro given
          obtain ⟨debit, ⟨read, sum, -⟩, -, rfl⟩ := given
          exact ⟨read, sum⟩
        · intro given
          exact ⟨result, ⟨given.1, given.2, money⟩, fits, rfl⟩
    | all =>
        have both : (wtx.tx.vin.map (w.debitWorth .all env view nSpendHeight)).sum =
            (wtx.tx.vin.map (w.debitWorth .spendable env view nSpendHeight)).sum +
              (wtx.tx.vin.map (w.debitWorth .watchOnly env view nSpendHeight)).sum := by
          have kinds := funext (w.debitWorth_all env view nSpendHeight)
          rw [kinds, List.sum_map_add]
        have spendable := nonneg .spendable
        have watchOnly := nonneg .watchOnly
        simp only [if_neg empty, if_true, bind_ok, reduceCtorEq, if_false, spend.debitFrom,
          amount_ok, both, moneyRange_iff]
        constructor
        · intro given
          obtain ⟨first, ⟨read, rfl, -⟩, second, ⟨-, rfl, -⟩, -, rfl⟩ := given
          exact ⟨read, rfl⟩
        · intro given
          obtain ⟨read, rfl⟩ := given
          exact ⟨_, ⟨read, rfl, by omega⟩, _, ⟨read, rfl, by omega⟩, fits, rfl⟩

theorem reportedFee_ok (wtx : CWalletTx) (nDebit nValueOut : Int)
    (debit : w.getDebit node filter wtx true = .ok nDebit)
    (valueOut : wtx.tx.getValueOut = .ok nValueOut) (money : moneyRange nDebit = true) :
    w.reportedFee node filter wtx = .ok (nDebit - nValueOut) ↔ (nValueOut ≠ 0 → nDebit ≠ 0) := by
  have most : maxMoney = 600000000000000000 := rfl
  have spent := (moneyRange_iff nDebit).mp money
  have paid := (moneyRange_iff nValueOut).mp
    (valueOutFrom_money wtx.tx.vout 0 nValueOut (by decide) valueOut)
  have fits : fitsAmount (nDebit - nValueOut) := by
    rw [fitsAmount]
    omega
  rw [reportedFee, debit, ok_then]
  by_cases spends : nDebit > 0
  · simp only [if_pos spends, walletValueOut, valueOut, ok_then, amount_of _ fits, true_iff]
    omega
  · simp only [if_neg spends, pure_ok]
    omega

end Confirmed

end CWalletStore

/-! ## One output spent ten blocks after it was created -/

/-- An ordinary output of ten million coins. -/
def tenMillion : CTxOut :=
  ⟨1000000000000000, [opDup, opHash160, 0x14] ++ List.replicate 20 7 ++ [opEqualverify, opChecksig]⟩

def walletTxOf (hash hashBlock : Uint256) (vin : List CTxIn) : CWalletTx where
  tx := ⟨1, vin, [tenMillion], 0⟩
  hash := hash
  hashBlock := hashBlock
  vMerkleBranch := []
  nIndex := 0
  fMerkleVerified := true
  inRange := fun txout member => by
    rw [List.mem_singleton.mp member]
    decide

def funding : CWalletTx := walletTxOf 9 1 [⟨⟨5, 0⟩, [], 0⟩]

def spending : CWalletTx := walletTxOf 10 2 [⟨⟨9, 0⟩, [], 0⟩]

def spendingWallet : CWalletStore where
  mapWallet := [(9, funding), (10, spending)]
  mapTxSpends := [(⟨9, 0⟩, 10)]
  setLockedCoins := []
  keystore := ⟨fun _ => true, fun _ => false, []⟩
  hash160 := fun _ => 0
  fDatacarrier := true
  nMaxDatacarrierBytes := 40
  bSpendZeroConfChange := true
  distinct := by decide
  keyed := by decide

/-- The node a hundred blocks later. -/
def nodeSpending (nHeight : Int) : NodeView where
  pow := fun amount _ => amount
  hash256 := fun _ => []
  height := nHeight + 110
  adjustedTime := 0
  mapBlockIndex := fun hash =>
    if hash = 1 then some ⟨nHeight, 0, true⟩
    else if hash = 2 then some ⟨nHeight + 10, 0, true⟩ else none
  mempoolExists := fun _ => false

/-- Consensus while the second block is connected. -/
def connecting (nHeight : Int) : Environment :=
  { plainEnvironment with
    chainHeight := nHeight + 9
    mapBlockIndex := fun _ => some { genesisIndex with nHeight := nHeight + 9 } }

def viewSpending (nHeight : Int) : FlatView :=
  ⟨fun hash => if hash = 9 then some (.fromTx funding.tx nHeight) else none, 3⟩

theorem spending_confirmed (nHeight nValueIn : Int)
    (valueIn : addInputValues (connecting nHeight) (viewSpending nHeight) (nHeight + 10) 0
      spending.tx.vin = .ok nValueIn) :
    spendingWallet.ConfirmedSpend (nodeSpending nHeight) (connecting nHeight)
      (viewSpending nHeight) spending (nHeight + 10) nValueIn 1000000000000000 where
  samePow := rfl
  height := by
    have next : nHeight + 9 + 1 = nHeight + 10 := by omega
    simp only [nextHeight, connecting, next]
  tip := by
    show nHeight + 10 - 1 ≤ nHeight + 9
    omega
  valueIn := valueIn
  valueOut := by decide
  confirmed := by
    refine ⟨by decide, by decide, ⟨0, rfl, fun unverified => ?_⟩, ?_⟩
    · cases unverified
    · show nHeight + 10 ≤ nHeight + 110
      omega
  spends := by
    intro txin member
    rw [List.mem_singleton.mp member]
    refine ⟨funding, ⟨tenMillion, nHeight, false, 1⟩, by decide, ?_, rfl, rfl⟩
    refine ⟨by decide, by decide, ⟨0, rfl, fun unverified => ?_⟩, ?_⟩
    · cases unverified
    · show nHeight ≤ nHeight + 110
      omega

end RoiCoin
