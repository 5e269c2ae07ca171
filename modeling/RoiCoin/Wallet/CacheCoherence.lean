import RoiCoin.Lib.Runs
import RoiCoin.Wallet.Balance
import RoiCoin.Wallet.CreditCaches
import RoiCoin.Wallet.FeePaid

/-! When the cached credits are those that would be computed.

Only notices about a transaction, or about one that spends it, clear its caches, and nothing clears
that of `GetImmatureCredit`. -/

namespace RoiCoin

open Checked Runs Totals

/-! ## What a getter reads -/

/-- The getter leaves spent outputs out. -/
def CreditGetter.skipsSpent : CreditGetter → Bool
  | .immature | .immatureWatchOnly => false
  | .available | .availableWatchOnly => true

namespace CWalletStore

variable (w : CWalletStore) (node : NodeView) (getter : CreditGetter)

/-- The deposit of an output is found locked by `GetAvailableCredit`. -/
def locksDeposit (txout : CTxOut) : Bool :=
  match getTermDepositReleaseBlock txout.scriptPubKey with
  | .ok release => decide (release > node.height)
  | .error _ => false

/-- The getter asks for the value of an output. -/
def counted (wtx : CWalletTx) (output : CTxOut × Nat) : Bool :=
  !(getter.skipsSpent && w.isSpent node wtx.hash output.2) &&
    !(getter == .available && locksDeposit node output.1)

theorem outputCredit_counted (wtx : CWalletTx) (output : CTxOut × Nat) :
    w.outputCredit node getter wtx output =
      if w.counted node getter wtx output then
        some <$> w.getCredit node wtx output.1 getter.filter
      else .ok none := by
  cases getter with
  | immature => rfl
  | immatureWatchOnly => rfl
  | availableWatchOnly =>
      by_cases spent : w.isSpent node wtx.hash output.2 = true
      · simp [outputCredit, availableWatchOnlyCredit, counted, CreditGetter.skipsSpent, spent]
      · simp [outputCredit, availableWatchOnlyCredit, counted, CreditGetter.filter, spent]
  | available =>
      by_cases spent : w.isSpent node wtx.hash output.2 = true
      · simp [outputCredit, availableCredit, counted, CreditGetter.skipsSpent, spent, pure,
          Except.pure]
      · cases read : getTermDepositReleaseBlock output.1.scriptPubKey with
        | error fault =>
            -- the value of the output reads the script too
            simp [outputCredit, availableCredit, counted, locksDeposit, spent, read, liftFault,
              getCredit, CWalletTx.nextValue, CWalletTx.valueWithInterest,
              CTxOut.getValueWithInterest, bind, Except.bind, Except.map, Functor.map]
        | ok release =>
            by_cases later : release > node.height
            · simp [outputCredit, availableCredit, counted, locksDeposit, spent, read, liftFault,
                bind, Except.bind, later, pure, Except.pure]
            · simp [outputCredit, availableCredit, counted, locksDeposit, spent, read, liftFault,
                bind, Except.bind, later, CreditGetter.filter]

/-- What an output adds to the amount. -/
def outputWorth (wtx : CWalletTx) (output : CTxOut × Nat) : Int :=
  match w.outputCredit node getter wtx output with
  | .ok (some credit) => credit
  | _ => 0

theorem getCredit_nonneg (wtx : CWalletTx) (txout : CTxOut) (filter : IsMineFilter) (credit : Int)
    (returned : w.getCredit node wtx txout filter = .ok credit) : 0 ≤ credit := by
  simp only [getCredit, bind_ok, require_ok, pure_ok] at returned
  obtain ⟨value, -, -, money, mine, -, rfl⟩ := returned
  split
  · exact ((moneyRange_iff value).mp money).1
  · exact le_rfl

theorem outputWorth_nonneg (wtx : CWalletTx) (output : CTxOut × Nat) :
    0 ≤ w.outputWorth node getter wtx output := by
  rw [outputWorth]
  split
  · rename_i credit found
    rw [outputCredit_counted] at found
    split at found
    · simp only [map_ok, Option.some.injEq, exists_eq_right] at found
      exact w.getCredit_nonneg node wtx output.1 getter.filter credit found
    · cases found
  · exact le_rfl

theorem addCredit_ok (wtx : CWalletTx) (output : CTxOut × Nat) (n result : Int) (least : 0 ≤ n)
    (inside : n ≤ maxMoney) :
    w.addCredit node getter wtx n output = .ok result ↔
      (∃ credit, w.outputCredit node getter wtx output = .ok credit) ∧
        result = n + w.outputWorth node getter wtx output ∧ result ≤ maxMoney := by
  have nonneg := w.outputWorth_nonneg node getter wtx output
  have most : maxMoney = 600000000000000000 := rfl
  rw [addCredit]
  cases found : w.outputCredit node getter wtx output with
  | error fault => simp [bind, Except.bind]
  | ok credit =>
      rw [ok_then]
      cases credit with
      | none =>
          have worth : w.outputWorth node getter wtx output = 0 := by rw [outputWorth, found]
          simp only [pure_ok, worth, Int.add_zero, Except.ok.injEq, exists_eq', true_and]
          constructor
          · intro same
            exact ⟨same.symm, same ▸ inside⟩
          · intro given
            exact given.1.symm
      | some credit =>
          have worth : w.outputWorth node getter wtx output = credit := by rw [outputWorth, found]
          rw [worth] at nonneg ⊢
          simp only [bind_ok, amount_ok, require_ok, pure_ok, moneyRange_iff, Except.ok.injEq,
            exists_eq', true_and]
          constructor
          · intro given
            obtain ⟨sum, ⟨-, rfl⟩, -, money, rfl⟩ := given
            exact ⟨rfl, money.2⟩
          · intro given
            obtain ⟨rfl, bounded⟩ := given
            have fits : fitsAmount (n + credit) := by
              rw [fitsAmount]
              omega
            exact ⟨_, ⟨fits, rfl⟩, (), ⟨by omega, bounded⟩, rfl⟩

/-- A getter computes the sum over the outputs when that is an amount. -/
theorem credit_ok (wtx : CWalletTx) (result : Int) :
    w.credit node getter wtx = .ok result ↔
      (∀ output ∈ wtx.tx.vout.zipIdx,
        ∃ credit, w.outputCredit node getter wtx output = .ok credit) ∧
        result = (wtx.tx.vout.zipIdx.map (w.outputWorth node getter wtx)).sum ∧
          result ≤ maxMoney := by
  have folded := foldlM_total (w.addCredit node getter wtx)
    (fun output => ∃ credit, w.outputCredit node getter wtx output = .ok credit)
    (w.outputWorth node getter wtx) maxMoney wtx.tx.vout.zipIdx
    (fun output _ n result => w.addCredit_ok node getter wtx output n result)
    (fun output _ => w.outputWorth_nonneg node getter wtx output) 0 result le_rfl (by decide)
  rwa [Int.zero_add] at folded

/-- The output is not the wallet's in the sense of the getter, and both scripts tests return. -/
def Foreign (txout : CTxOut) : Prop :=
  (∃ mine, w.isMine txout = .ok mine ∧ mine.passes getter.filter = false) ∧
    ∃ release, getTermDepositReleaseBlock txout.scriptPubKey = .ok release

theorem nextValue_money (wtx : CWalletTx) (txout : CTxOut) (member : txout ∈ wtx.tx.vout)
    (value : Int) (returned : wtx.nextValue node txout = .ok value) : moneyRange value = true := by
  rw [CWalletTx.nextValue, CWalletTx.valueWithInterest, CTxOut.getValueWithInterest] at returned
  cases read : getTermDepositReleaseBlock txout.scriptPubKey with
  | error fault =>
      rw [read] at returned
      cases returned
  | ok release =>
      rw [read] at returned
      cases returned
      exact getInterest_range _ _ _ _ _ _ (wtx.inRange txout member)

/-- An output of another adds nothing, whether it counts or not. -/
theorem outputCredit_foreign (wtx : CWalletTx) (output : CTxOut × Nat)
    (member : output.1 ∈ wtx.tx.vout) (foreign : w.Foreign getter output.1) :
    (∃ credit, w.outputCredit node getter wtx output = .ok credit) ∧
      w.outputWorth node getter wtx output = 0 := by
  obtain ⟨⟨mine, owner, stops⟩, release, read⟩ := foreign
  have nothing : w.getCredit node wtx output.1 getter.filter = .ok 0 := by
    have valued : ∃ value, wtx.nextValue node output.1 = .ok value := by
      simp [CWalletTx.nextValue, CWalletTx.valueWithInterest, CTxOut.getValueWithInterest, read,
        Except.map, liftFault]
    obtain ⟨value, valued⟩ := valued
    have money := nextValue_money node wtx output.1 member value valued
    simp only [getCredit, valued, ok_then, require_of _ _ money, owner, stops, Bool.false_eq_true,
      if_false]
    rfl
  rw [outputWorth, outputCredit_counted, nothing]
  split <;> simp [Functor.map, Except.map]

end CWalletStore

/-! ## What a step leaves -/

namespace WalletState

/-- What an output adds to the amount of a getter does not depend on the step. -/
def Undisturbed (st st' : WalletState) (getter : CreditGetter) (wtx wtx' : CWalletTx)
    (output : CTxOut × Nat) : Prop :=
  st.store.Foreign getter output.1 ∨
    st.store.counted st.node getter wtx output = st'.store.counted st'.node getter wtx' output ∧
      (st.store.counted st.node getter wtx output = true →
        wtx.nextValue st.node output.1 = wtx'.nextValue st'.node output.1)

/-- Of the transactions whose cache the step leaves set, it disturbs no output. -/
def LeavesCredits (st : WalletState) (event : WalletEvent) : Prop :=
  ∀ entry ∈ st.store.mapWallet, ∀ entry' ∈ (st.step event).store.mapWallet, entry'.1 = entry.1 →
    ∀ getter, (st.cached entry.1 getter).isSome = true →
      ((st.step event).cached entry.1 getter).isSome = true →
        ∀ output ∈ entry.2.tx.vout.zipIdx,
          st.Undisturbed (st.step event) getter entry.2 entry'.2 output

/-- Every getter returns the same amount with its cache and without. -/
def Reports (st : WalletState) : Prop :=
  ∀ entry ∈ st.store.mapWallet, ∀ getter,
    Prod.fst <$> st.creditOf getter entry.2 true = Prod.fst <$> st.creditOf getter entry.2 false

/-- The caches that are set hold what the getters compute. -/
def Coherent (st : WalletState) : Prop :=
  ∀ entry ∈ st.store.mapWallet, ∀ getter n, st.cached entry.1 getter = some n →
    st.store.credit st.node getter entry.2 = .ok n

theorem Coherent.reports {st : WalletState} (coherent : st.Coherent) : st.Reports := by
  intro entry member getter
  have known := coherent entry member getter
  rw [← st.store.keyed entry member] at known
  simp only [creditOf]
  split
  · rfl
  · simp only [if_true, Bool.false_eq_true, if_false]
    cases cached : st.cached entry.2.hash getter with
    | none => rfl
    | some n => simp [known n cached, bind, Except.bind, pure, Except.pure, Functor.map, Except.map]

/-- The outputs of a transaction add up to the same amount. -/
theorem credit_undisturbed (st st' : WalletState) (getter : CreditGetter) (wtx wtx' : CWalletTx)
    (same : wtx'.tx = wtx.tx) (owner : st'.store.isMine = st.store.isMine)
    (undisturbed : ∀ output ∈ wtx.tx.vout.zipIdx, st.Undisturbed st' getter wtx wtx' output)
    (n : Int) (computed : st.store.credit st.node getter wtx = .ok n) :
    st'.store.credit st'.node getter wtx' = .ok n := by
  rw [CWalletStore.credit_ok] at computed ⊢
  obtain ⟨read, sum, most⟩ := computed
  have each : ∀ output ∈ wtx.tx.vout.zipIdx,
      (∃ credit, st'.store.outputCredit st'.node getter wtx' output = .ok credit) ∧
        st'.store.outputWorth st'.node getter wtx' output =
          st.store.outputWorth st.node getter wtx output := by
    intro output member
    have inside := (CWalletStore.mem_zipIdx_vout member).1
    rcases undisturbed output member with foreign | ⟨count, value⟩
    · have foreign' : st'.store.Foreign getter output.1 := by
        rw [CWalletStore.Foreign, owner]
        exact foreign
      have before := st.store.outputCredit_foreign st.node getter wtx output inside foreign
      have after := st'.store.outputCredit_foreign st'.node getter wtx' output
        (by rwa [same]) foreign'
      exact ⟨after.1, after.2.trans before.2.symm⟩
    · have equal : st'.store.outputCredit st'.node getter wtx' output =
          st.store.outputCredit st.node getter wtx output := by
        rw [CWalletStore.outputCredit_counted, CWalletStore.outputCredit_counted, ← count]
        split
        · rename_i counts
          rw [CWalletStore.getCredit, CWalletStore.getCredit, value counts, owner]
        · rfl
      rw [CWalletStore.outputWorth, CWalletStore.outputWorth, equal]
      exact ⟨read output member, rfl⟩
  refine ⟨?_, ?_, most⟩
  · rw [same]
    exact fun output member => (each output member).1
  · rw [same, sum]
    exact congrArg List.sum (List.map_congr_left fun output member => (each output member).2.symm)

/-! ## Steps other than a getter's -/

/-- No cache is set that was not, and the transactions with a cache are the same. -/
structure Follows (st st' : WalletState) : Prop where
  owner : st'.store.isMine = st.store.isMine
  kept : ∀ hash getter n, st'.cached hash getter = some n → st.cached hash getter = some n
  same : ∀ entry' ∈ st'.store.mapWallet, ∀ getter n, st'.cached entry'.1 getter = some n →
    ∃ entry ∈ st.store.mapWallet, entry.1 = entry'.1 ∧ entry'.2.tx = entry.2.tx

theorem Follows.refl (st : WalletState) : st.Follows st :=
  ⟨rfl, fun _ _ _ set => set, fun entry member _ _ _ => ⟨entry, member, rfl, rfl⟩⟩

theorem Follows.trans {first second third : WalletState} (one : first.Follows second)
    (two : second.Follows third) : first.Follows third := by
  refine ⟨two.owner.trans one.owner, ?_, ?_⟩
  · intro hash getter n set
    exact one.kept hash getter n (two.kept hash getter n set)
  · intro entry'' member getter n set
    obtain ⟨entry', member', key', tx'⟩ := two.same entry'' member getter n set
    have set' := two.kept _ getter n set
    rw [← key'] at set'
    obtain ⟨entry, inside, key, tx⟩ := one.same entry' member' getter n set'
    exact ⟨entry, inside, key.trans key', tx'.trans tx⟩

theorem isMine_congr (w w' : CWalletStore) (keystore : w'.keystore = w.keystore)
    (hash160 : w'.hash160 = w.hash160) (carrier : w'.fDatacarrier = w.fDatacarrier)
    (bytes : w'.nMaxDatacarrierBytes = w.nMaxDatacarrierBytes) : w'.isMine = w.isMine := by
  have solve : w'.solve = w.solve := by
    funext script
    rw [CWalletStore.solve, CWalletStore.solve, carrier, bytes]
  have watchOnly : w'.watchOnlyOrNo = w.watchOnlyOrNo := by
    funext script
    rw [CWalletStore.watchOnlyOrNo, CWalletStore.watchOnlyOrNo, keystore]
  have keyID : w'.pubKeyID = w.pubKeyID := by
    funext vch
    rw [CWalletStore.pubKeyID, CWalletStore.pubKeyID, hash160]
  have keys : w'.haveKeys = w.haveKeys := by
    funext pubkeys
    rw [CWalletStore.haveKeys, CWalletStore.haveKeys, keystore, keyID]
  have scripts : w'.getCScript = w.getCScript := by
    funext scriptID
    rw [CWalletStore.getCScript, CWalletStore.getCScript, keystore]
  have within : ∀ depth, w'.isMineWithin depth = w.isMineWithin depth := by
    intro depth
    induction depth with
    | zero =>
        funext script
        unfold CWalletStore.isMineWithin
        rw [solve, watchOnly, keyID, keys, scripts, keystore]
    | succ depth ih =>
        funext script
        unfold CWalletStore.isMineWithin
        dsimp only
        rw [solve, watchOnly, keyID, keys, scripts, keystore, ih]
  funext txout
  rw [CWalletStore.isMine, CWalletStore.isMine, within, keystore]

theorem follows_node (st : WalletState) (node : NodeView) : st.Follows { st with node } :=
  ⟨rfl, fun _ _ _ set => set, fun entry member _ _ _ => ⟨entry, member, rfl, rfl⟩⟩

theorem markDirty_le (cached : CachedCredits) (getter : CreditGetter) (n : Int)
    (set : cached.markDirty getter = some n) : cached getter = some n := by
  rw [CachedCredits.markDirty] at set
  split at set
  · exact set
  · cases set

theorem follows_markDirty (st : WalletState) : st.Follows st.markDirty :=
  ⟨rfl, fun hash getter n set => markDirty_le (st.cached hash) getter n set,
    fun entry member _ _ _ => ⟨entry, member, rfl, rfl⟩⟩

theorem follows_markTxDirty (st : WalletState) (hash : Uint256) :
    st.Follows (st.markTxDirty hash) := by
  refine ⟨rfl, ?_, fun entry member _ _ _ => ⟨entry, member, rfl, rfl⟩⟩
  intro other getter n set
  simp only [markTxDirty, setCached] at set
  split at set
  · rename_i here
    rw [here]
    exact markDirty_le _ getter n set
  · exact set

theorem follows_markInputsDirty (vin : List CTxIn) (st : WalletState) :
    st.Follows (st.markInputsDirty vin) := by
  induction vin generalizing st with
  | nil => exact Follows.refl st
  | cons txin vin ih => exact (follows_markTxDirty st txin.prevout.hash).trans (ih _)

theorem follows_put (st : WalletState) (wtx : CWalletTx) :
    st.Follows ({ st with store := (st.put wtx).addToSpends wtx }.setCached wtx.hash
      fun _ => none) := by
  have owner : ((st.put wtx).addToSpends wtx).isMine = st.store.isMine := by
    have put : (st.put wtx).isMine = st.store.isMine := by
      rw [WalletState.put]
      split
      · exact isMine_congr _ _ rfl rfl rfl rfl
      · exact isMine_congr _ _ rfl rfl rfl rfl
    rw [← put, CWalletStore.addToSpends]
    split
    · rfl
    · exact isMine_congr _ _ rfl rfl rfl rfl
  have others : ∀ entry' ∈ ((st.put wtx).addToSpends wtx).mapWallet, entry'.1 ≠ wtx.hash →
      entry' ∈ st.store.mapWallet := by
    have wallet : ((st.put wtx).addToSpends wtx).mapWallet = (st.put wtx).mapWallet := by
      rw [CWalletStore.addToSpends]
      split <;> rfl
    rw [wallet, WalletState.put]
    intro entry' member other
    split at member
    · rcases List.mem_cons.mp member with rfl | later
      · exact absurd rfl other
      · exact later
    · obtain ⟨entry, inside, rfl⟩ := List.mem_map.mp member
      split at other
      · exact absurd rfl other
      · rename_i elsewhere
        rwa [if_neg elsewhere]
  refine ⟨owner, ?_, ?_⟩
  · intro hash getter n set
    simp only [setCached] at set
    split at set
    · cases set
    · exact set
  · intro entry' member getter n set
    simp only [setCached] at set
    split at set
    · cases set
    · rename_i other
      exact ⟨entry', others entry' member other, rfl, rfl⟩

theorem follows_assign (st : WalletState) (hash : Uint256) (wtx wtx' : CWalletTx)
    (found : st.store.getWalletTx hash = some wtx) (key : wtx'.hash = hash)
    (tx : wtx'.tx = wtx.tx) : st.Follows { st with store := st.store.assign wtx' } := by
  have there : (hash, wtx) ∈ st.store.mapWallet := by
    rw [CWalletStore.getWalletTx, Option.map_eq_some_iff] at found
    obtain ⟨entry, first, rfl⟩ := found
    have same : entry.1 = hash := by simpa using List.find?_some first
    rw [← same]
    exact List.mem_of_find?_eq_some first
  refine ⟨isMine_congr _ _ rfl rfl rfl rfl, fun _ _ _ set => set, ?_⟩
  intro entry' member getter n _
  obtain ⟨entry, inside, rfl⟩ := List.mem_map.mp member
  split
  · exact ⟨(hash, wtx), there, key.symm, tx⟩
  · exact ⟨entry, inside, rfl, rfl⟩

theorem merged_tx (wtx wtxIn : CWalletTx) :
    (CWalletStore.merged wtx wtxIn).tx = wtx.tx ∧
      (CWalletStore.merged wtx wtxIn).hash = wtx.hash := by
  rw [CWalletStore.merged]
  split <;> split <;> exact ⟨rfl, rfl⟩

theorem getWalletTx_hash (w : CWalletStore) (hash : Uint256) (wtx : CWalletTx)
    (found : w.getWalletTx hash = some wtx) : wtx.hash = hash := by
  rw [CWalletStore.getWalletTx, Option.map_eq_some_iff] at found
  obtain ⟨entry, first, rfl⟩ := found
  rw [w.keyed entry (List.mem_of_find?_eq_some first)]
  simpa using List.find?_some first

theorem follows_addToWallet (st : WalletState) (wtxIn : CWalletTx)
    (fFromLoadWallet written : Bool) :
    st.Follows (st.addToWallet wtxIn fFromLoadWallet written).2 := by
  rw [addToWallet]
  split
  · exact follows_put st wtxIn
  · split
    · exact follows_put st wtxIn
    · rename_i wtx found
      obtain ⟨tx, hash⟩ := merged_tx wtx wtxIn
      exact (follows_assign st wtxIn.hash wtx _ found
        (hash.trans (getWalletTx_hash st.store _ wtx found)) tx).trans
          (follows_markTxDirty _ wtxIn.hash)

theorem follows_syncTransaction (st st' : WalletState) (tx : NoticedTx)
    (pblock : Option NoticedBlock) (written : Bool)
    (synced : st.syncTransaction tx pblock written = .ok st') : st.Follows st' := by
  simp only [syncTransaction, addIfInvolvingMe, bind_ok] at synced
  obtain ⟨⟨ours, middle⟩, ⟨involved, -, added⟩, marked⟩ := synced
  have first : st.Follows middle := by
    split at added
    · rw [pure_ok] at added
      have follows := follows_addToWallet st (st.walletTx tx pblock) false written
      rwa [added] at follows
    · rw [pure_ok] at added
      cases added
      exact Follows.refl st
  dsimp only at marked
  split at marked
  · rw [pure_ok] at marked
    rw [← marked]
    exact first.trans (follows_markInputsDirty tx.tx.vin middle)
  · rw [pure_ok] at marked
    rw [← marked]
    exact first

theorem follows_notify (written : Uint256 → Bool) (notices : List (NoticedTx × Option NoticedBlock))
    (st : WalletState) : st.Follows (notify written st notices) := by
  induction notices generalizing st with
  | nil => exact Follows.refl st
  | cons notice notices ih =>
      rcases notice with ⟨tx, pblock⟩
      rw [notify]
      split
      · rename_i st' synced
        exact (follows_syncTransaction st st' tx pblock _ synced).trans (ih st')
      · exact Follows.refl st

theorem follows_merkleVerified (st : WalletState) (hash : Uint256) (wtx : CWalletTx)
    (found : st.store.getWalletTx hash = some wtx) : st.Follows (st.merkleVerified wtx) := by
  rw [merkleVerified]
  split
  · exact Follows.refl st
  · split
    · exact follows_assign st hash wtx _ found (getWalletTx_hash st.store hash wtx found) rfl
    · exact Follows.refl st

/-- No event but a getter's sets a cache. -/
theorem step_follows (st : WalletState) (event : WalletEvent)
    (other : ∀ getter hash fUseCache, event ≠ .get getter hash fUseCache) :
    st.Follows (st.step event) := by
  cases event with
  | get getter hash fUseCache => exact absurd rfl (other getter hash fUseCache)
  | markDirty => exact follows_markDirty st
  | addToWallet wtxIn fFromLoadWallet written =>
      exact follows_addToWallet st wtxIn fFromLoadWallet written
  | syncTransaction tx pblock written => exact follows_notify _ _ st
  | merkleVerified hash =>
      rw [step]
      split
      · exact Follows.refl st
      · rename_i wtx found
        exact follows_merkleVerified st hash wtx found
  | accept tx mempoolExists written => exact (follows_node st _).trans (follows_notify _ _ _)
  | connectTip block mempoolExists txConflicted written =>
      exact (follows_node st _).trans (follows_notify _ _ _)
  | disconnectTip block mempoolExists written =>
      exact (follows_node st _).trans (follows_notify _ _ _)

/-- A getter leaves the state, or it sets its cache to what it computes. -/
theorem creditOf_ok (st st' : WalletState) (getter : CreditGetter) (wtx : CWalletTx)
    (fUseCache : Bool) (n : Int) (returned : st.creditOf getter wtx fUseCache = .ok (n, st')) :
    st' = st ∨ st.store.credit st.node getter wtx = .ok n ∧
      st' = st.setCached wtx.hash (Function.update (st.cached wtx.hash) getter (some n)) := by
  rw [creditOf] at returned
  split at returned
  · cases returned
    exact .inl rfl
  · split at returned
    · cases returned
      exact .inl rfl
    · simp only [bind_ok, pure_ok, Prod.mk.injEq] at returned
      obtain ⟨nCredit, computed, rfl, rfl⟩ := returned
      exact .inr ⟨computed, rfl⟩

theorem coherent_get (st : WalletState) (getter : CreditGetter) (hash : Uint256) (fUseCache : Bool)
    (coherent : st.Coherent) : (st.step (.get getter hash fUseCache)).Coherent := by
  rw [step]
  split
  · exact coherent
  · rename_i wtx found
    split
    · rename_i n st' returned
      rcases creditOf_ok st st' getter wtx fUseCache n returned with rfl | ⟨computed, rfl⟩
      · exact coherent
      · intro entry member other m set
        simp only [setCached] at set
        split at set
        · rename_i here
          have same : entry.2 = wtx := by
            have listed := getWalletTx_mem st.store entry member
            rw [here, getWalletTx_hash st.store hash wtx found, found] at listed
            exact (Option.some.inj listed).symm
          by_cases own : other = getter
          · rw [own, Function.update_self] at set
            rw [own, same, ← Option.some.inj set]
            exact computed
          · rw [Function.update_of_ne own, ← here] at set
            exact coherent entry member other m set
        · exact coherent entry member other m set
    · exact coherent

theorem coherent_step (st : WalletState) (event : WalletEvent) (coherent : st.Coherent)
    (leaves : st.LeavesCredits event) : (st.step event).Coherent := by
  by_cases getting : ∃ getter hash fUseCache, event = .get getter hash fUseCache
  · obtain ⟨getter, hash, fUseCache, rfl⟩ := getting
    exact coherent_get st getter hash fUseCache coherent
  · have follows := step_follows st event fun getter hash fUseCache same =>
      getting ⟨getter, hash, fUseCache, same⟩
    intro entry' member' getter n set
    obtain ⟨entry, member, key, tx⟩ := follows.same entry' member' getter n set
    have before := follows.kept _ getter n set
    rw [← key] at set before
    exact credit_undisturbed st (st.step event) getter entry.2 entry'.2 tx follows.owner
      (leaves entry member entry' member' key.symm getter (by rw [before]; rfl) (by rw [set]; rfl))
      n (coherent entry member getter n before)

/-! ## Events that disturb nothing -/

/-- A step after which the wallet and the node are as before disturbs nothing. -/
theorem leaves_same_view (st : WalletState) (event : WalletEvent)
    (store : (st.step event).store = st.store) (node : (st.step event).node = st.node) :
    st.LeavesCredits event := by
  intro entry member entry' member' key getter _ _ output _
  have same : entry' = entry := by
    rw [store] at member'
    have first := getWalletTx_mem st.store entry member
    have second := getWalletTx_mem st.store entry' member'
    rw [key, first, Option.some.injEq] at second
    exact Prod.ext key second.symm
  exact .inr (by rw [same, store, node]; exact ⟨rfl, fun _ => rfl⟩)

theorem leaves_markDirty (st : WalletState) : st.LeavesCredits .markDirty :=
  leaves_same_view st .markDirty rfl rfl

theorem leaves_get (st : WalletState) (getter : CreditGetter) (hash : Uint256)
    (fUseCache : Bool) : st.LeavesCredits (.get getter hash fUseCache) := by
  have view : (st.step (.get getter hash fUseCache)).store = st.store ∧
      (st.step (.get getter hash fUseCache)).node = st.node := by
    rw [step]
    split
    · exact ⟨rfl, rfl⟩
    · split
      · rename_i n st' returned
        rcases creditOf_ok st st' getter _ fUseCache n returned with rfl | ⟨-, rfl⟩
        · exact ⟨rfl, rfl⟩
        · exact ⟨rfl, rfl⟩
      · exact ⟨rfl, rfl⟩
  exact leaves_same_view st _ view.1 view.2

/-- Without caches there is nothing to disturb. -/
theorem leaves_uncached (st : WalletState) (event : WalletEvent)
    (uncached : ∀ hash getter, st.cached hash getter = none) : st.LeavesCredits event := by
  intro entry _ _ _ _ getter set
  rw [uncached] at set
  cases set

/-! ## Runs -/

end WalletState

/-! ## A coinbase that has not matured -/

def youngCoinbase : CWalletTx where
  tx := ⟨1, [⟨⟨0, -1⟩, [1, 1], -1⟩],
    [⟨1000000000000000, [opDup, opHash160, 0x14] ++ List.replicate 20 7 ++
      [opEqualverify, opChecksig]⟩], 0⟩
  hash := 9
  hashBlock := 1
  vMerkleBranch := []
  nIndex := 0
  fMerkleVerified := true
  inRange := by decide

def youngWallet : WalletState where
  store := walletWith youngCoinbase
  node := confirmingNode
  cached := fun _ _ => none

/-- A block without a transaction of the wallet. -/
def otherBlock : NoticedBlock := ⟨2, 0, []⟩

def blockOfNothing : WalletEvent := .connectTip otherBlock (fun _ => false) [] fun _ => true

/-- The immature credit, a block, and `MarkDirty`. -/
def staleEvents : List WalletEvent := [.get .immature 9 true, blockOfNothing, .markDirty]

end RoiCoin
