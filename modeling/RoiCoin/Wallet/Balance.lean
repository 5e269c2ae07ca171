import RoiCoin.Lib.Totals
import RoiCoin.Script.Recognisers
import RoiCoin.Wallet.SelectionSound

/-! The balance against the coins that can be spent.

`GetBalance` leaves out the deposits that the recogniser of consensus finds locked, `AvailableCoins`
those that `Solver` does. -/

namespace RoiCoin

open Checked Totals

theorem liftFault_ok {α : Type} (read : Except ScriptFault α) (a : α) :
    liftFault read = .ok a ↔ read = .ok a := by
  cases read <;> simp [liftFault]

/-- An empty output earns nothing when the power of zero is zero. -/
theorem getInterest_nothing (pow : Int → Int → Int) (chainHeight : Int)
    (outputBlockHeight valuationHeight maturationBlock : Int)
    (nothing : ∀ periods, pow 0 periods = 0) :
    getInterest pow chainHeight 0 outputBlockHeight valuationHeight maturationBlock = 0 := by
  have table : ∀ table periods, tableInterest table periods 0 = 0 := by
    intro table periods
    rw [tableInterest, Int.zero_mul, Int.zero_tdiv, getuint64_zero]
    rfl
  have standard : ∀ blocks, standardInterest pow chainHeight 0 outputBlockHeight blocks = 0 := by
    intro blocks
    rw [standardInterest, getPostRateForAmount, getRateForAmount, table, nothing]
    split
    · rfl
    · split <;> rfl
  have bonus : ∀ blocks, bonusInterest chainHeight 0 outputBlockHeight blocks = 0 := by
    intro blocks
    simp only [bonusInterest, getBonusForAmount, table, Int.zero_mul, Int.zero_tdiv, Int.sub_zero,
      getuint64_zero]
    split
    · rfl
    · split <;> rfl
  rw [getInterest]
  split
  · rfl
  · simp only [standard, bonus, termDepositInterest_zero, add_zero]
    rfl

namespace CWalletStore

variable (w : CWalletStore) (node : NodeView)

/-- The value of a coin that can be spent. -/
def coinValue (out : COutput) : Walleting Int :=
  if out.fSpendable then do
    let txout ← out.tx.output out.i
    out.tx.nextValue node txout
  else .ok 0

/-- The balance is the value of the spendable coins among those that `AvailableCoins` returns. -/
def BalanceMatches : Prop :=
  ∃ vCoins values, w.availableCoins node true none false = .ok vCoins ∧
    vCoins.mapM (coinValue node) = .ok values ∧ w.getBalance node = .ok values.sum

/-! ## What counts -/

/-- A transaction whose outputs count for both. -/
def counts (wtx : CWalletTx) : Bool :=
  match w.isTrusted node wtx with
  | .ok trusted => trusted && !(wtx.tx.isCoinBase && decide (wtx.getBlocksToMaturity node > 0))
  | .error _ => false

def worth (wtx : CWalletTx) (txout : CTxOut) : Int :=
  match wtx.nextValue node txout with
  | .ok value => value
  | .error _ => 0

/-- What an output adds to the balance. -/
def creditWorth (wtx : CWalletTx) (output : CTxOut × Nat) : Int :=
  match w.availableCredit node wtx output with
  | .ok (some credit) => credit
  | _ => 0

def transactionCredit (wtx : CWalletTx) : Int :=
  if w.counts node wtx then (wtx.tx.vout.zipIdx.map (w.creditWorth node wtx)).sum else 0

/-- The recogniser of consensus reads a release after the tip. -/
def LockedForConsensus (script : CScript) : Prop :=
  ∃ release, getTermDepositReleaseBlock script = .ok release ∧ node.height < release

/-- A deposit of value that `Solver` finds locked is locked for consensus too. -/
def LocksAgree (wtx : CWalletTx) (output : CTxOut × Nat) : Prop :=
  w.isSpent node wtx.hash output.2 = false → w.isMine output.1 = .ok .spendable →
    worth node wtx output.1 ≠ 0 → w.depositLocked node output.1 = .ok true →
      LockedForConsensus node output.1.scriptPubKey

/-- When the balance is that of the coins. -/
structure Agrees : Prop where
  trust : ∀ entry ∈ w.mapWallet, ∃ trusted, w.isTrusted node entry.2 = .ok trusted
  owned : ∀ entry ∈ w.mapWallet, w.counts node entry.2 = true → ∀ txout ∈ entry.2.tx.vout,
    ∃ mine, w.isMine txout = .ok mine
  inside : ∀ entry ∈ w.mapWallet, w.counts node entry.2 = true →
    ∀ output ∈ entry.2.tx.vout.zipIdx, w.isSpent node entry.2.hash output.2 = false →
      ¬ OverrunsTests output.1.scriptPubKey
  money : ∀ entry ∈ w.mapWallet, w.transactionCredit node entry.2 ≤ maxMoney
  total : fitsAmount (w.mapWallet.map fun entry => w.transactionCredit node entry.2).sum
  locks : ∀ entry ∈ w.mapWallet, w.counts node entry.2 = true →
    ∀ output ∈ entry.2.tx.vout.zipIdx, w.LocksAgree node entry.2 output

/-! ## The balance -/

theorem availableCredit_range (wtx : CWalletTx) (output : CTxOut × Nat) (credit : Int)
    (found : w.availableCredit node wtx output = .ok (some credit)) :
    0 ≤ credit ∧ credit ≤ maxMoney := by
  have most : maxMoney = 600000000000000000 := rfl
  rw [availableCredit] at found
  split at found
  · cases found
  · simp only [bind_ok] at found
    obtain ⟨release, -, found⟩ := found
    split at found
    · cases found
    · simp only [getCredit, map_ok, bind_ok, require_ok, pure_ok, Option.some.injEq,
        exists_eq_right] at found
      obtain ⟨value, -, -, inside, mine, -, rfl⟩ := found
      have range := (moneyRange_iff value).mp inside
      split <;> omega

theorem creditWorth_range (wtx : CWalletTx) (output : CTxOut × Nat) :
    0 ≤ w.creditWorth node wtx output ∧ w.creditWorth node wtx output ≤ maxMoney := by
  have most : maxMoney = 600000000000000000 := rfl
  rw [creditWorth]
  split
  · rename_i credit found
    exact w.availableCredit_range node wtx output credit found
  · omega

theorem transactionCredit_nonneg (wtx : CWalletTx) : 0 ≤ w.transactionCredit node wtx := by
  rw [transactionCredit]
  split
  · exact total_nonneg _ _ fun output _ => (w.creditWorth_range node wtx output).1
  · exact le_rfl

/-- The loop over the outputs of a transaction. -/
theorem availableCreditFrom_ok (wtx : CWalletTx) (vout : List (CTxOut × Nat)) (nCredit result : Int)
    (least : 0 ≤ nCredit) (most : nCredit ≤ maxMoney) :
    w.availableCreditFrom node wtx nCredit vout = .ok result ↔
      (∀ output ∈ vout, ∃ credit, w.availableCredit node wtx output = .ok credit) ∧
        result = nCredit + (vout.map (w.creditWorth node wtx)).sum ∧ result ≤ maxMoney := by
  have largest : maxMoney = 600000000000000000 := rfl
  induction vout generalizing nCredit with
  | nil =>
      simp only [availableCreditFrom, Except.ok.injEq, List.map_nil, List.sum_nil, add_zero]
      constructor
      · intro same
        exact ⟨fun _ member => absurd member List.not_mem_nil, same.symm, same ▸ most⟩
      · intro given
        obtain ⟨-, same, -⟩ := given
        exact same.symm
  | cons output vout ih =>
      have range := w.creditWorth_range node wtx output
      have rest := total_nonneg (w.creditWorth node wtx) vout
        fun output _ => (w.creditWorth_range node wtx output).1
      rw [availableCreditFrom, List.forall_mem_cons, List.map_cons, List.sum_cons]
      cases found : w.availableCredit node wtx output with
      | error fault => simp [bind, Except.bind]
      | ok credit =>
          have worth : w.creditWorth node wtx output = credit.getD 0 := by
            rw [creditWorth, found]
            cases credit <;> rfl
          rw [worth] at range ⊢
          simp only [bind, Except.bind, Except.ok.injEq, exists_eq', true_and]
          cases credit with
          | none =>
              rw [Option.getD_none, zero_add]
              exact ih nCredit least most
          | some credit =>
              rw [Option.getD_some] at range ⊢
              dsimp only
              rw [amount_of _ ⟨by omega, by omega⟩, ← add_assoc]
              dsimp only
              by_cases inside : nCredit + credit ≤ maxMoney
              · rw [require_of _ _ ((moneyRange_iff _).mpr ⟨by omega, inside⟩)]
                exact ih (nCredit + credit) (by omega) inside
              · have outside : ¬ moneyRange (nCredit + credit) = true :=
                  fun within => inside ((moneyRange_iff _).mp within).2
                simp only [require, if_neg outside, reduceCtorEq, false_iff]
                intro given
                obtain ⟨-, same, within⟩ := given
                omega

theorem getAvailableCredit_ok (wtx : CWalletTx) (trusted : w.isTrusted node wtx = .ok true)
    (result : Int) :
    w.getAvailableCredit node wtx = .ok result ↔
      (w.counts node wtx = true → ∀ output ∈ wtx.tx.vout.zipIdx,
        ∃ credit, w.availableCredit node wtx output = .ok credit) ∧
        result = w.transactionCredit node wtx ∧ result ≤ maxMoney := by
  have largest : (0 : Int) ≤ maxMoney := by decide
  rw [getAvailableCredit, transactionCredit]
  by_cases immature : wtx.tx.isCoinBase = true ∧ wtx.getBlocksToMaturity node > 0
  · have uncounted : w.counts node wtx = false := by
      simp [counts, trusted, immature.1, immature.2]
    rw [if_pos immature, uncounted]
    simp only [Bool.false_eq_true, false_imp_iff, if_false, true_and, Except.ok.injEq]
    constructor
    · intro same
      exact ⟨same.symm, same ▸ largest⟩
    · intro given
      obtain ⟨same, -⟩ := given
      exact same.symm
  · have counted : w.counts node wtx = true := by
      have mature : wtx.tx.isCoinBase = false ∨ wtx.getBlocksToMaturity node ≤ 0 := by
        by_contra neither
        exact immature (by simpa using neither)
      rw [counts, trusted]
      simpa using mature
    rw [if_neg immature, counted, availableCreditFrom_ok w node wtx _ 0 result le_rfl largest]
    simp

/-- The loop over the wallet. -/
theorem balanceFrom_ok (l : List (Uint256 × CWalletTx)) (nTotal result : Int) (least : 0 ≤ nTotal)
    (fits : fitsAmount nTotal) :
    w.balanceFrom node nTotal l = .ok result ↔
      ((∀ entry ∈ l, ∃ trusted, w.isTrusted node entry.2 = .ok trusted) ∧
        (∀ entry ∈ l, w.counts node entry.2 = true → ∀ output ∈ entry.2.tx.vout.zipIdx,
          ∃ credit, w.availableCredit node entry.2 output = .ok credit) ∧
        ∀ entry ∈ l, w.transactionCredit node entry.2 ≤ maxMoney) ∧
      result = nTotal + (l.map fun entry => w.transactionCredit node entry.2).sum ∧
        fitsAmount result := by
  have most : (0 : Int) ≤ maxMoney := by decide
  induction l generalizing nTotal with
  | nil =>
      simp only [balanceFrom, Except.ok.injEq, List.map_nil, List.sum_nil, add_zero]
      constructor
      · intro same
        exact ⟨⟨by simp, by simp, by simp⟩, same.symm, same ▸ fits⟩
      · intro given
        obtain ⟨-, same, -⟩ := given
        exact same.symm
  | cons entry l ih =>
      have own := w.transactionCredit_nonneg node entry.2
      have rest := total_nonneg (fun entry => w.transactionCredit node entry.2) l
        fun entry _ => w.transactionCredit_nonneg node entry.2
      simp only [balanceFrom, List.forall_mem_cons, List.map_cons, List.sum_cons]
      cases trusts : w.isTrusted node entry.2 with
      | error fault => simp [bind, Except.bind]
      | ok trusted =>
          simp only [bind, Except.bind, Except.ok.injEq, exists_eq', true_and]
          cases trusted with
          | false =>
              have uncounted : w.counts node entry.2 = false := by rw [counts, trusts]; rfl
              have nothing : w.transactionCredit node entry.2 = 0 := by
                rw [transactionCredit, uncounted]
                rfl
              simp only [uncounted, nothing, most, Bool.false_eq_true, if_false, false_imp_iff,
                true_and, zero_add]
              exact ih nTotal least fits
          | true =>
              have credited := w.getAvailableCredit_ok node entry.2 trusts
              rw [if_pos rfl]
              cases found : w.getAvailableCredit node entry.2 with
              | error fault =>
                  simp only [reduceCtorEq, false_iff]
                  intro given
                  obtain ⟨⟨-, readable, within⟩, -⟩ := given
                  have returned := (credited _).mpr ⟨readable.1, rfl, within.1⟩
                  rw [found] at returned
                  cases returned
              | ok credit =>
                  obtain ⟨readable, rfl, within⟩ := (credited credit).mp found
                  dsimp only
                  by_cases inside : fitsAmount (nTotal + w.transactionCredit node entry.2)
                  · rw [amount_of _ inside]
                    dsimp only
                    have later := ih (nTotal + w.transactionCredit node entry.2) (by omega) inside
                    rw [add_assoc] at later
                    refine later.trans ?_
                    constructor
                    · intro given
                      obtain ⟨⟨trusts, others, small⟩, same⟩ := given
                      exact ⟨⟨trusts, ⟨readable, others⟩, within, small⟩, same⟩
                    · intro given
                      obtain ⟨⟨trusts, others, small⟩, same⟩ := given
                      exact ⟨⟨trusts, others.2, small.2⟩, same⟩
                  · have overflow : amount (nTotal + w.transactionCredit node entry.2) =
                        .error .overflow := by
                      rw [amount, if_neg inside]
                    rw [overflow]
                    simp only [reduceCtorEq, false_iff]
                    intro given
                    obtain ⟨-, same, small⟩ := given
                    exact inside ⟨by omega, lt_of_le_of_lt (by omega) small.2⟩

theorem getBalance_ok (result : Int) :
    w.getBalance node = .ok result ↔
      ((∀ entry ∈ w.mapWallet, ∃ trusted, w.isTrusted node entry.2 = .ok trusted) ∧
        (∀ entry ∈ w.mapWallet, w.counts node entry.2 = true →
          ∀ output ∈ entry.2.tx.vout.zipIdx,
            ∃ credit, w.availableCredit node entry.2 output = .ok credit) ∧
        ∀ entry ∈ w.mapWallet, w.transactionCredit node entry.2 ≤ maxMoney) ∧
      result = (w.mapWallet.map fun entry => w.transactionCredit node entry.2).sum ∧
        fitsAmount result := by
  rw [getBalance, balanceFrom_ok w node _ 0 result le_rfl (by decide), zero_add]

/-! ## The two lock tests -/

/-- What is spendable matches a template. -/
theorem isMine_solved (txout : CTxOut) (mine : IsMineType) (owned : w.isMine txout = .ok mine) :
    ∃ solved, w.solve txout.scriptPubKey = .ok solved ∧
      (mine = .spendable → solved.found = true) := by
  rw [isMine] at owned
  unfold isMineWithin at owned
  rw [bind_ok] at owned
  obtain ⟨solved, found, owned⟩ := owned
  refine ⟨solved, found, fun spendable => ?_⟩
  cases matched : solved.found with
  | true => rfl
  | false =>
      rw [matched, spendable] at owned
      simp only [Bool.not_false, if_true, watchOnlyOrNo, pure_ok] at owned
      split at owned <;> cases owned

theorem depositLocked_solved (txout : CTxOut) (solved : Solved)
    (found : w.solve txout.scriptPubKey = .ok solved) :
    w.depositLocked node txout = .ok (decide (solved.typeRet = .checklocktimeverify ∧
      node.height < solved.cltvReleaseBlock.getD 0)) := by
  rw [depositLocked, isOutputTermDeposit, depositReleaseBlock, found]
  simp only [bind, Except.bind, pure, Except.pure]
  by_cases deposit : solved.typeRet = .checklocktimeverify
  · simp [deposit]
  · simp [deposit]

theorem release_read (txout : CTxOut) (mine : IsMineType) (owned : w.isMine txout = .ok mine) :
    (∃ release, getTermDepositReleaseBlock txout.scriptPubKey = .ok release) ↔
      ¬ OverrunsTests txout.scriptPubKey := by
  obtain ⟨solved, found, -⟩ := w.isMine_solved txout mine owned
  rw [solve, liftFault_ok] at found
  have plain := (solver_ok_iff _ _ _).mp ⟨solved, found⟩
  exact ⟨fun released overruns => overrun_faults _ overruns released,
    fun inside => release_block_ok _ inside plain⟩

/-- A spendable deposit that consensus finds locked is one that `Solver` does. -/
theorem consensus_lock_solved (txout : CTxOut) (tip : -1 ≤ node.height)
    (owned : w.isMine txout = .ok .spendable)
    (locked : LockedForConsensus node txout.scriptPubKey) :
    w.depositLocked node txout = .ok true := by
  obtain ⟨release, released, later⟩ := locked
  obtain ⟨num, code, lock, minimal, value, -⟩ :=
    (deposit_read_iff txout.scriptPubKey release (by omega)).mp released
  obtain ⟨solved, found, matched⟩ := w.isMine_solved txout .spendable owned
  rw [w.depositLocked_solved node txout solved found]
  have leads := lockedCode_some _ _ _ lock
  have short := (number_length _ _ _ leads).2.1
  have reading := solver_leading w.fDatacarrier w.nMaxDatacarrierBytes _ _ _ leads
  rw [scriptNum_minimal num short minimal] at reading
  rw [solve, liftFault_ok] at found
  dsimp only at reading
  split at reading
  · rw [reading] at found
    cases found
    cases matched rfl
  · rw [reading] at found
    cases found
    simp [value, later]

/-! ## The coins -/

/-- What an output adds to the value of the coins. -/
def coinWorth (wtx : CWalletTx) (output : CTxOut × Nat) : Int :=
  match w.availableOutput node none false wtx.hash wtx (wtx.getDepthInMainChain node) output with
  | .ok (some out) => if out.fSpendable then worth node wtx output.1 else 0
  | _ => 0

def transactionCoins (wtx : CWalletTx) : Int :=
  if w.counts node wtx then (wtx.tx.vout.zipIdx.map (w.coinWorth node wtx)).sum else 0

/-- `AvailableCoins` looks at the outputs of a transaction when they count for the balance. -/
theorem available_counts (wtx : CWalletTx) (counted : Bool) :
    w.available node true wtx = .ok counted ↔
      (∃ trusted, w.isTrusted node wtx = .ok trusted) ∧ counted = w.counts node wtx := by
  have trusts : ∀ trusted, w.isTrusted node wtx = .ok trusted →
      w.available node true wtx = .ok (w.counts node wtx) := by
    intro trusted trusts
    rw [available, counts, trusts]
    cases final : wtx.checkFinalTx node with
    | false =>
        rw [isTrusted, final] at trusts
        cases trusts
        rfl
    | true =>
        cases trusted with
        | false => rfl
        | true =>
            have deep : ¬ wtx.getDepthInMainChain node < 0 := by
              intro less
              rw [isTrusted, final] at trusts
              have young : ¬ wtx.getDepthInMainChain node ≥ 1 := by omega
              simp [young, less] at trusts
            simp [bind, Except.bind, pure, Except.pure, deep]
  constructor
  · intro returned
    have readable : ∃ trusted, w.isTrusted node wtx = .ok trusted := by
      cases final : wtx.checkFinalTx node with
      | false => exact ⟨false, by rw [isTrusted, final]; rfl⟩
      | true =>
          rw [available, final] at returned
          simp only [Bool.not_true, Bool.false_eq_true, if_false, if_true, bind_ok] at returned
          obtain ⟨trusted, trusts, -⟩ := returned
          exact ⟨trusted, trusts⟩
    obtain ⟨trusted, found⟩ := readable
    rw [trusts trusted found] at returned
    exact ⟨⟨trusted, found⟩, (Except.ok.inj returned).symm⟩
  · intro given
    obtain ⟨⟨trusted, found⟩, same⟩ := given
    rw [trusts trusted found, same]

theorem availableOutput_read (unlocked : w.setLockedCoins = []) (wtx : CWalletTx)
    (output : CTxOut × Nat) (mine : IsMineType) (owned : w.isMine output.1 = .ok mine) :
    ∃ locked, w.depositLocked node output.1 = .ok locked ∧
      w.availableOutput node none false wtx.hash wtx (wtx.getDepthInMainChain node) output =
        .ok (if locked = false ∧ w.isSpent node wtx.hash output.2 = false ∧ mine ≠ .no ∧
            output.1.nValue > 0 then
          some ⟨wtx, output.2, wtx.getDepthInMainChain node, mine == .spendable⟩ else none) := by
  obtain ⟨solved, found, -⟩ := w.isMine_solved output.1 mine owned
  refine ⟨_, w.depositLocked_solved node output.1 solved found, ?_⟩
  rw [availableOutput, w.depositLocked_solved node output.1 solved found]
  have free : w.isLockedCoin wtx.hash output.2 = false := by rw [isLockedCoin, unlocked]; rfl
  generalize decide (solved.typeRet = .checklocktimeverify ∧
    node.height < solved.cltvReleaseBlock.getD 0) = locked
  cases locked with
  | true => rfl
  | false =>
      simp only [bind, Except.bind, owned, free, pure, Except.pure]
      by_cases listed : w.isSpent node wtx.hash output.2 = false ∧ mine ≠ .no ∧
          output.1.nValue > 0
      · simp [listed]
      · simp [listed]

/-! ## Credits against coins -/

theorem nextValue_ok (wtx : CWalletTx) (txout : CTxOut) (value : Int) :
    wtx.nextValue node txout = .ok value ↔
      ∃ release, getTermDepositReleaseBlock txout.scriptPubKey = .ok release ∧
        value = getInterest node.pow node.height txout.nValue
          (node.height + 1 - wtx.getDepthInMainChain node) (node.height + 1) release := by
  rw [CWalletTx.nextValue, CWalletTx.valueWithInterest, liftFault_ok, CTxOut.getValueWithInterest]
  cases getTermDepositReleaseBlock txout.scriptPubKey <;> simp [Except.map, eq_comm]

/-- An output whose script is read is worth an amount, and nothing when it is empty. -/
theorem worth_read (wtx : CWalletTx) (txout : CTxOut) (member : txout ∈ wtx.tx.vout)
    (nothing : ∀ periods, node.pow 0 periods = 0) (release : Int)
    (read : getTermDepositReleaseBlock txout.scriptPubKey = .ok release) :
    wtx.nextValue node txout = .ok (worth node wtx txout) ∧
      moneyRange (worth node wtx txout) = true ∧
        (txout.nValue ≤ 0 → worth node wtx txout = 0) := by
  have valued := (nextValue_ok node wtx txout _).mpr ⟨release, read, rfl⟩
  have inside := wtx.inRange txout member
  rw [worth, valued]
  refine ⟨rfl, getInterest_range _ _ _ _ _ _ inside, fun empty => ?_⟩
  have zero : txout.nValue = 0 := by
    have range := (moneyRange_iff _).mp inside
    omega
  dsimp only
  rw [zero, getInterest_nothing _ _ _ _ _ nothing]

theorem availableCredit_read (nothing : ∀ periods, node.pow 0 periods = 0) (wtx : CWalletTx)
    (output : CTxOut × Nat) (member : output.1 ∈ wtx.tx.vout) (mine : IsMineType)
    (owned : w.isMine output.1 = .ok mine)
    (inside : w.isSpent node wtx.hash output.2 = false → ¬ OverrunsTests output.1.scriptPubKey) :
    ∃ credit, w.availableCredit node wtx output = .ok credit := by
  rw [availableCredit]
  cases spent : w.isSpent node wtx.hash output.2 with
  | true => exact ⟨none, rfl⟩
  | false =>
      obtain ⟨release, read⟩ := (w.release_read output.1 mine owned).mpr (inside spent)
      obtain ⟨valued, range, -⟩ := worth_read node wtx output.1 member nothing release read
      rw [read, getCredit, valued, owned]
      simp only [Bool.false_eq_true, if_false, liftFault, bind, Except.bind,
        require_of _ _ range, pure, Except.pure, Functor.map, Except.map]
      split <;> exact ⟨_, rfl⟩

/-- The coins are at most the balance, output by output. -/
theorem coinWorth_creditWorth (unlocked : w.setLockedCoins = []) (tip : -1 ≤ node.height)
    (nothing : ∀ periods, node.pow 0 periods = 0) (wtx : CWalletTx) (output : CTxOut × Nat)
    (member : output.1 ∈ wtx.tx.vout) (mine : IsMineType) (owned : w.isMine output.1 = .ok mine)
    (readable : ∃ credit, w.availableCredit node wtx output = .ok credit) :
    w.coinWorth node wtx output ≤ w.creditWorth node wtx output ∧
      (w.coinWorth node wtx output = w.creditWorth node wtx output ↔
        w.LocksAgree node wtx output) := by
  obtain ⟨locked, tested, listed⟩ := w.availableOutput_read node unlocked wtx output mine owned
  rw [LocksAgree, owned, tested]
  cases spent : w.isSpent node wtx.hash output.2 with
  | true =>
      have coin : w.coinWorth node wtx output = 0 := by
        rw [coinWorth, listed, spent]
        simp
      have credit : w.creditWorth node wtx output = 0 := by
        rw [creditWorth, availableCredit, spent]
        rfl
      simp [coin, credit]
  | false =>
      obtain ⟨credit, credited⟩ := readable
      rw [availableCredit, spent] at credited
      simp only [Bool.false_eq_true, if_false, bind_ok, liftFault_ok] at credited
      obtain ⟨release, read, -⟩ := credited
      obtain ⟨valued, inside, empty⟩ := worth_read node wtx output.1 member nothing release read
      have least := ((moneyRange_iff _).mp inside).1
      have coin : w.coinWorth node wtx output =
          if locked = false ∧ mine = .spendable then worth node wtx output.1 else 0 := by
        rw [coinWorth, listed, spent]
        by_cases positive : output.1.nValue > 0
        · cases locked <;> cases mine <;> simp [positive]
        · simp [positive, empty (by omega)]
      have credit : w.creditWorth node wtx output =
          if release ≤ node.height ∧ mine = .spendable then worth node wtx output.1 else 0 := by
        rw [creditWorth, availableCredit, spent, read, getCredit, valued, owned]
        by_cases later : release > node.height
        · simp [liftFault, bind, Except.bind, later, pure, Except.pure]
        · simp only [Bool.false_eq_true, if_false, liftFault, bind, Except.bind, if_neg later,
            require_of _ _ inside, pure, Except.pure, Functor.map, Except.map]
          cases mine <;> simp [IsMineType.passes, not_lt.mp later]
      have for_consensus : LockedForConsensus node output.1.scriptPubKey ↔
          node.height < release := by
        simp [LockedForConsensus, read]
      rw [coin, credit, for_consensus]
      by_cases spendable : mine = .spendable
      · rw [spendable] at owned
        by_cases later : node.height < release
        · have both := w.consensus_lock_solved node output.1 tip owned ⟨release, read, later⟩
          rw [tested] at both
          cases both
          simp [later, not_le.mpr later]
        · cases locked with
          | true => simp [spendable, later, not_lt.mp later, least, eq_comm]
          | false => simp [spendable, not_lt.mp later]
      · simp [spendable]

/-! ## All the coins -/

theorem availableOutput_owned (coinControl : Option CCoinControl) (fIncludeZeroValue : Bool)
    (wtxid : Uint256) (wtx : CWalletTx) (nDepth : Int) (output : CTxOut × Nat)
    (result : Option COutput)
    (returned : w.availableOutput node coinControl fIncludeZeroValue wtxid wtx nDepth output =
      .ok result) : ∃ mine, w.isMine output.1 = .ok mine := by
  rw [availableOutput, bind_ok] at returned
  obtain ⟨locked, tested, returned⟩ := returned
  cases locked with
  | false =>
      simp only [Bool.false_eq_true, if_false, bind_ok] at returned
      obtain ⟨mine, owned, -⟩ := returned
      exact ⟨mine, owned⟩
  | true =>
      -- a deposit that `Solver` finds locked is a pay to a key hash, so `IsMine` looks that up
      simp only [depositLocked, isOutputTermDeposit, bind_ok, pure_ok] at tested
      obtain ⟨deposit, ⟨solved, found, kind⟩, tested⟩ := tested
      cases deposit with
      | false => cases tested
      | true =>
          rw [isMine]
          unfold isMineWithin
          rw [found]
          simp only [bind, Except.bind, of_decide_eq_true kind]
          split
          · exact ⟨_, rfl⟩
          · split <;> exact ⟨_, rfl⟩

theorem mem_zipIdx_vout {wtx : CWalletTx} {output : CTxOut × Nat}
    (member : output ∈ wtx.tx.vout.zipIdx) :
    output.1 ∈ wtx.tx.vout ∧ wtx.output output.2 = .ok output.1 := by
  have here := List.mem_zipIdx_iff_getElem?.mp member
  exact ⟨List.mem_of_getElem? here, by rw [CWalletTx.output, here]⟩

/-- The value of a coin found for an output. -/
theorem coin_found (unlocked : w.setLockedCoins = []) (wtx : CWalletTx) (output : CTxOut × Nat)
    (member : output ∈ wtx.tx.vout.zipIdx) (result : Option COutput)
    (returned : w.availableOutput node none false wtx.hash wtx (wtx.getDepthInMainChain node)
      output = .ok result) :
    ∀ out, result = some out → w.isSpent node wtx.hash output.2 = false ∧
      coinValue node out = if out.fSpendable then wtx.nextValue node output.1 else .ok 0 := by
  obtain ⟨mine, owned⟩ := w.availableOutput_owned node _ _ _ _ _ _ _ returned
  obtain ⟨locked, -, listed⟩ := w.availableOutput_read node unlocked wtx output mine owned
  rw [listed] at returned
  intro out there
  rw [there] at returned
  simp only [Except.ok.injEq, Option.ite_none_right_eq_some, Option.some.injEq] at returned
  obtain ⟨⟨-, unspent, -⟩, rfl⟩ := returned
  refine ⟨unspent, ?_⟩
  rw [coinValue]
  simp only [(mem_zipIdx_vout member).2, bind, Except.bind]

/-- The value that a coin has when it can be read. -/
def knownValue (out : COutput) : Int :=
  match coinValue node out with
  | .ok value => value
  | .error _ => 0

theorem transaction_coins (unlocked : w.setLockedCoins = []) (entry : Uint256 × CWalletTx)
    (keyed : entry.2.hash = entry.1) (outputs : List COutput)
    (returned : w.availableOutputs node true none false entry = .ok outputs) :
    (outputs.map (knownValue node)).sum = w.transactionCoins node entry.2 := by
  simp only [availableOutputs, bind_ok, available_counts] at returned
  obtain ⟨counted, ⟨-, rfl⟩, returned⟩ := returned
  rw [transactionCoins]
  split at returned
  · rename_i counted
    rw [if_pos counted]
    simp only [bind_ok, pure_ok] at returned
    obtain ⟨results, found, rfl⟩ := returned
    rw [total_reduceOption]
    apply total_results _ _ _ ((mapM_ok _ _ _).mp found)
    intro output member result listed
    rw [← keyed] at listed
    rw [coinWorth, listed]
    cases result with
    | none => rfl
    | some out =>
        have value := (w.coin_found node unlocked entry.2 output member _ listed out rfl).2
        rw [Option.elim_some, knownValue, value]
        dsimp only
        by_cases spendable : out.fSpendable = true
        · simp only [if_pos spendable, worth]
        · simp only [if_neg spendable]
  · rename_i uncounted
    rw [if_neg uncounted]
    cases returned
    rfl

theorem coins_total (unlocked : w.setLockedCoins = []) (vCoins : List COutput)
    (values : List Int) (returned : w.availableCoins node true none false = .ok vCoins)
    (valued : vCoins.mapM (coinValue node) = .ok values) :
    values.sum = (w.mapWallet.map fun entry => w.transactionCoins node entry.2).sum := by
  simp only [availableCoins, bind_ok, pure_ok] at returned
  obtain ⟨lists, found, rfl⟩ := returned
  have known := total_results _ id (knownValue node) ((mapM_ok _ _ _).mp valued) (by
    intro out _ value read
    rw [knownValue, read]
    rfl)
  have parts := total_results _ (fun outputs => (outputs.map (knownValue node)).sum)
    (fun entry => w.transactionCoins node entry.2) ((mapM_ok _ _ _).mp found)
    fun entry member outputs listed =>
      w.transaction_coins node unlocked entry (w.keyed entry member) outputs listed
  rw [← parts, ← List.map_id values, known, List.map_flatten, List.sum_flatten, List.map_map]
  rfl

/-- The coins and their values are read when the trust, ownership and lock tests are. -/
theorem coins_read (unlocked : w.setLockedCoins = []) :
    (∃ vCoins, w.availableCoins node true none false = .ok vCoins) ↔
      (∀ entry ∈ w.mapWallet, ∃ trusted, w.isTrusted node entry.2 = .ok trusted) ∧
        ∀ entry ∈ w.mapWallet, w.counts node entry.2 = true → ∀ txout ∈ entry.2.tx.vout,
          ∃ mine, w.isMine txout = .ok mine := by
  have whole : (∃ vCoins, w.availableCoins node true none false = .ok vCoins) ↔
      ∀ entry ∈ w.mapWallet, ∃ outputs, w.availableOutputs node true none false entry =
        .ok outputs := by
    rw [← mapM_returns]
    simp only [availableCoins, bind_ok, pure_ok]
    constructor
    · intro returned
      obtain ⟨-, lists, found, -⟩ := returned
      exact ⟨lists, found⟩
    · intro returned
      obtain ⟨lists, found⟩ := returned
      exact ⟨_, lists, found, rfl⟩
  rw [whole, ← forall₂_and]
  apply forall₂_congr
  intro entry member
  have named := w.keyed entry member
  simp only [availableOutputs, bind_ok, available_counts]
  constructor
  · intro given
    obtain ⟨outputs, counted, ⟨trusts, same⟩, returned⟩ := given
    refine ⟨trusts, fun counts txout inside => ?_⟩
    rw [same, counts, if_pos rfl] at returned
    simp only [bind_ok] at returned
    obtain ⟨results, found, -⟩ := returned
    obtain ⟨i, here⟩ := List.getElem?_of_mem inside
    obtain ⟨result, listed⟩ := (mapM_returns _ _).mp ⟨results, found⟩ (txout, i)
      (List.mem_zipIdx_iff_getElem?.mpr here)
    exact w.availableOutput_owned node _ _ _ _ _ _ _ listed
  · intro given
    obtain ⟨trusts, owned⟩ := given
    cases counts : w.counts node entry.2 with
    | false => exact ⟨[], false, ⟨trusts, rfl⟩, rfl⟩
    | true =>
        obtain ⟨results, found⟩ := (mapM_returns (w.availableOutput node none false entry.1 entry.2
          (entry.2.getDepthInMainChain node)) entry.2.tx.vout.zipIdx).mpr (by
            intro output inside
            obtain ⟨mine, own⟩ := owned counts output.1 (mem_zipIdx_vout inside).1
            obtain ⟨locked, -, listed⟩ :=
              w.availableOutput_read node unlocked entry.2 output mine own
            exact ⟨_, named ▸ listed⟩)
        refine ⟨results.reduceOption, true, ⟨trusts, rfl⟩, ?_⟩
        simp only [if_true, found, bind_ok, pure_ok, Except.ok.injEq, exists_eq_left']

theorem coin_values_read (unlocked : w.setLockedCoins = []) (vCoins : List COutput)
    (returned : w.availableCoins node true none false = .ok vCoins)
    (inside : ∀ entry ∈ w.mapWallet, w.counts node entry.2 = true →
      ∀ output ∈ entry.2.tx.vout.zipIdx, w.isSpent node entry.2.hash output.2 = false →
        ¬ OverrunsTests output.1.scriptPubKey) :
    ∃ values, vCoins.mapM (coinValue node) = .ok values := by
  rw [mapM_returns]
  intro out member
  simp only [availableCoins, bind_ok, pure_ok] at returned
  obtain ⟨lists, found, rfl⟩ := returned
  obtain ⟨outputs, listed, there⟩ := List.mem_flatten.mp member
  obtain ⟨entry, owner, returned⟩ := mapM_mem found outputs listed
  have named := w.keyed entry owner
  simp only [availableOutputs, bind_ok, available_counts] at returned
  obtain ⟨counted, ⟨-, rfl⟩, returned⟩ := returned
  split at returned
  · rename_i counted
    simp only [bind_ok, pure_ok] at returned
    obtain ⟨results, collected, rfl⟩ := returned
    obtain ⟨output, placed, offered⟩ :=
      mapM_mem collected (some out) (List.reduceOption_mem_iff.mp there)
    obtain ⟨mine, owned⟩ := w.availableOutput_owned node _ _ _ _ _ _ _ offered
    rw [← named] at offered
    obtain ⟨unspent, value⟩ := w.coin_found node unlocked entry.2 output placed _ offered out rfl
    rw [value]
    split
    · obtain ⟨release, read⟩ := (w.release_read output.1 mine owned).mpr
        (inside entry owner counted output placed unspent)
      exact ⟨_, (nextValue_ok node entry.2 output.1 _).mpr ⟨release, read, rfl⟩⟩
    · exact ⟨0, rfl⟩
  · cases returned
    cases there

theorem transactionCoins_transactionCredit (unlocked : w.setLockedCoins = [])
    (tip : -1 ≤ node.height) (nothing : ∀ periods, node.pow 0 periods = 0) (wtx : CWalletTx)
    (owned : w.counts node wtx = true → ∀ txout ∈ wtx.tx.vout, ∃ mine, w.isMine txout = .ok mine)
    (readable : w.counts node wtx = true → ∀ output ∈ wtx.tx.vout.zipIdx,
      ∃ credit, w.availableCredit node wtx output = .ok credit) :
    w.transactionCoins node wtx ≤ w.transactionCredit node wtx ∧
      (w.transactionCoins node wtx = w.transactionCredit node wtx ↔
        (w.counts node wtx = true → ∀ output ∈ wtx.tx.vout.zipIdx,
          w.LocksAgree node wtx output)) := by
  rw [transactionCoins, transactionCredit]
  cases counts : w.counts node wtx with
  | false => simp
  | true =>
      have compare : ∀ output ∈ wtx.tx.vout.zipIdx,
          w.coinWorth node wtx output ≤ w.creditWorth node wtx output ∧
            (w.coinWorth node wtx output = w.creditWorth node wtx output ↔
              w.LocksAgree node wtx output) := by
        intro output member
        have inside := (mem_zipIdx_vout member).1
        obtain ⟨mine, own⟩ := owned counts output.1 inside
        exact w.coinWorth_creditWorth node unlocked tip nothing wtx output inside mine own
          (readable counts output member)
      have most := fun output member => (compare output member).1
      simp only [if_true, true_imp_iff]
      refine ⟨total_le _ _ _ most, (total_eq_iff _ _ _ most).trans ?_⟩
      exact forall₂_congr fun output member => (compare output member).2

/-- The balance is that of the spendable coins exactly when both can be computed and no deposit of
value that `Solver` finds locked is free for consensus. -/
theorem balance_matches_iff (unlocked : w.setLockedCoins = []) (tip : -1 ≤ node.height)
    (nothing : ∀ periods, node.pow 0 periods = 0) :
    w.BalanceMatches node ↔ w.Agrees node := by
  have compare := w.transactionCoins_transactionCredit node unlocked tip nothing
  constructor
  · intro given
    obtain ⟨vCoins, values, returned, valued, balance⟩ := given
    obtain ⟨trust, owned⟩ := (w.coins_read node unlocked).mp ⟨vCoins, returned⟩
    obtain ⟨⟨-, readable, money⟩, same, fits⟩ := (w.getBalance_ok node values.sum).mp balance
    rw [w.coins_total node unlocked vCoins values returned valued] at same fits
    have each := (total_eq_iff _ _ _ fun entry member =>
      (compare entry.2 (owned entry member) (readable entry member)).1).mp same
    refine ⟨trust, owned, ?_, money, same ▸ fits, ?_⟩
    · intro entry member counts output inside unspent
      obtain ⟨mine, own⟩ := owned entry member counts output.1 (mem_zipIdx_vout inside).1
      obtain ⟨credit, credited⟩ := readable entry member counts output inside
      rw [availableCredit, unspent] at credited
      simp only [Bool.false_eq_true, if_false, bind_ok, liftFault_ok] at credited
      obtain ⟨release, read, -⟩ := credited
      exact (w.release_read output.1 mine own).mp ⟨release, read⟩
    · intro entry member
      exact (compare entry.2 (owned entry member) (readable entry member)).2.mp (each entry member)
  · intro agrees
    have readable : ∀ entry ∈ w.mapWallet, w.counts node entry.2 = true →
        ∀ output ∈ entry.2.tx.vout.zipIdx,
          ∃ credit, w.availableCredit node entry.2 output = .ok credit := by
      intro entry member counts output inside
      obtain ⟨mine, own⟩ := agrees.owned entry member counts output.1 (mem_zipIdx_vout inside).1
      exact w.availableCredit_read node nothing entry.2 output (mem_zipIdx_vout inside).1 mine own
        (agrees.inside entry member counts output inside)
    obtain ⟨vCoins, returned⟩ := (w.coins_read node unlocked).mpr ⟨agrees.trust, agrees.owned⟩
    obtain ⟨values, valued⟩ := w.coin_values_read node unlocked vCoins returned agrees.inside
    have same := (total_eq_iff _ _ _ fun entry member =>
      (compare entry.2 (agrees.owned entry member) (readable entry member)).1).mpr
        fun entry member =>
          (compare entry.2 (agrees.owned entry member) (readable entry member)).2.mpr
            (agrees.locks entry member)
    refine ⟨vCoins, values, returned, valued, (w.getBalance_ok node values.sum).mpr
      ⟨⟨agrees.trust, readable, agrees.money⟩, ?_, ?_⟩⟩
    · rw [w.coins_total node unlocked vCoins values returned valued, same]
    · rw [w.coins_total node unlocked vCoins values returned valued, same]
      exact agrees.total

end CWalletStore

/-! ## A confirmed transaction -/

/-- A deposit to a key hash with the given push of its lock number. -/
def lockScript (number : Bytes) : CScript :=
  UInt8.ofNat number.length :: number ++ lockOpcodes ++ [0x14] ++ List.replicate 20 7 ++
    [opEqualverify, opChecksig]

/-- A node at height 100 with a block at height 90. -/
def confirmingNode : NodeView where
  pow := fun amount _ => amount
  hash256 := fun _ => []
  height := 100
  adjustedTime := 0
  mapBlockIndex := fun hash => if hash = 1 then some ⟨90, 0, true⟩ else none
  mempoolExists := fun _ => false

/-- One transaction in that block. -/
def confirmed (vout : List CTxOut) (inRange : ∀ txout ∈ vout, moneyRange txout.nValue = true) :
    CWalletTx where
  tx := ⟨1, [⟨⟨5, 0⟩, [], 0⟩], vout, 0⟩
  hash := 9
  hashBlock := 1
  vMerkleBranch := []
  nIndex := 0
  fMerkleVerified := true
  inRange := inRange

/-- A wallet with that transaction and every key. -/
def walletWith (wtx : CWalletTx) : CWalletStore where
  mapWallet := [(wtx.hash, wtx)]
  mapTxSpends := []
  setLockedCoins := []
  keystore := ⟨fun _ => true, fun _ => false, []⟩
  hash160 := fun _ => 0
  fDatacarrier := true
  nMaxDatacarrierBytes := 40
  bSpendZeroConfChange := true
  distinct := List.nodup_singleton _
  keyed := fun _ member => by rw [List.mem_singleton.mp member]

/-- A deposit whose lock number has five bytes. -/
def wideDeposit : CWalletTx := confirmed [⟨500000000, lockScript [0, 0, 0, 0, 1]⟩] (by decide)

/-- A deposit locked until block 200, one released at block 50 and an ordinary output. -/
def mixedOutputs : CWalletTx :=
  confirmed [⟨500000000, lockScript [0xc8, 0]⟩, ⟨300000000, lockScript [0x32]⟩,
    ⟨7, [opDup, opHash160, 0x14] ++ List.replicate 20 7 ++ [opEqualverify, opChecksig]⟩] (by decide)

/-- The balance counts a deposit that is no coin: consensus reads at most four bytes of number. -/
theorem balance_counts_wide_deposit :
    (walletWith wideDeposit).setLockedCoins = [] ∧
      (walletWith wideDeposit).getBalance confirmingNode = .ok 500021039 ∧
      (walletWith wideDeposit).availableCoins confirmingNode true none false = .ok [] ∧
      ¬ (walletWith wideDeposit).BalanceMatches confirmingNode := by
  have balance : (walletWith wideDeposit).getBalance confirmingNode = .ok 500021039 := by
    decide +kernel
  have coins : (walletWith wideDeposit).availableCoins confirmingNode true none false = .ok [] := by
    decide +kernel
  refine ⟨rfl, balance, coins, ?_⟩
  intro given
  obtain ⟨vCoins, values, returned, valued, same⟩ := given
  rw [coins] at returned
  cases returned
  cases valued
  rw [balance] at same
  cases same

theorem balance_matches_mixed : (walletWith mixedOutputs).Agrees confirmingNode := by
  have coins : (walletWith mixedOutputs).availableCoins confirmingNode true none false =
      .ok [⟨mixedOutputs, 1, 11, true⟩, ⟨mixedOutputs, 2, 11, true⟩] := by
    decide +kernel
  have values : [(⟨mixedOutputs, 1, 11, true⟩ : COutput), ⟨mixedOutputs, 2, 11, true⟩].mapM
      (CWalletStore.coinValue confirmingNode) = .ok [300012623, 7] := by
    decide +kernel
  have balance : (walletWith mixedOutputs).getBalance confirmingNode =
      .ok [300012623, 7].sum := by
    decide +kernel
  exact ((walletWith mixedOutputs).balance_matches_iff confirmingNode rfl (by decide)
    fun _ => rfl).mp ⟨_, _, coins, values, balance⟩

end RoiCoin
