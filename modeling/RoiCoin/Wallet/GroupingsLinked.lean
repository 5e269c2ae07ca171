import RoiCoin.Lib.Totals
import RoiCoin.Wallet.AddressGroupings

/-! Address groupings are the addresses linked by transactions of the wallet. -/

namespace RoiCoin

open Checked

namespace CWalletStore

variable (w : CWalletStore) (mapAddressBook : CTxDestination → Bool)

/-- The address of an input that is mine. -/
def InputOf (wtx : CWalletTx) (a : CTxDestination) : Prop :=
  ∃ txin ∈ wtx.tx.vin, w.inputAddress txin = .ok (some a)

def ChangeOf (wtx : CWalletTx) (a : CTxDestination) : Prop :=
  ∃ txout ∈ wtx.tx.vout, w.changeAddress mapAddressBook txout = .ok (some a)

def OutputOf (wtx : CWalletTx) (a : CTxDestination) : Prop :=
  ∃ txout ∈ wtx.tx.vout, w.outputAddress txout = .ok (some a)

/-- An input address, or a change address beside an input address. -/
def GroupedBy (wtx : CWalletTx) (a : CTxDestination) : Prop :=
  w.InputOf wtx a ∨ (∃ b, w.InputOf wtx b) ∧ w.ChangeOf mapAddressBook wtx a

def Occurs (a : CTxDestination) : Prop :=
  ∃ walletEntry ∈ w.mapWallet,
    w.GroupedBy mapAddressBook walletEntry.2 a ∨ w.OutputOf walletEntry.2 a

/-- One transaction joins both addresses. -/
def JoinedByTx (a b : CTxDestination) : Prop :=
  ∃ walletEntry ∈ w.mapWallet, w.GroupedBy mapAddressBook walletEntry.2 a ∧
    w.GroupedBy mapAddressBook walletEntry.2 b

/-- The set is what a transaction groups, or an address of an output. -/
def Collects (s : Finset CTxDestination) : Prop :=
  ∃ walletEntry ∈ w.mapWallet,
    ((∃ a, w.GroupedBy mapAddressBook walletEntry.2 a) ∧
      ∀ b, b ∈ s ↔ w.GroupedBy mapAddressBook walletEntry.2 b) ∨
    ∃ a, w.OutputOf walletEntry.2 a ∧ s = {a}

/-- `IsMine` and `ExtractDestination` return for every output of the wallet. -/
def OutputsSolved : Prop :=
  ∀ walletEntry ∈ w.mapWallet, ∀ txout ∈ walletEntry.2.tx.vout,
    (∃ mine, w.isMine txout = .ok mine) ∧
      ∃ address, w.extractDestination txout.scriptPubKey = .ok address

/-! ## Collecting -/

theorem mem_found {α : Type} (f : α → Walleting (Option CTxDestination)) (l : List α)
    (results : List (Option CTxDestination)) (returned : l.mapM f = .ok results)
    (a : CTxDestination) : a ∈ results.reduceOption ↔ ∃ x ∈ l, f x = .ok (some a) := by
  rw [Totals.mapM_ok] at returned
  rw [List.reduceOption_mem_iff]
  induction returned with
  | nil => simp
  | cons first _ ih =>
      simp only [List.mem_cons, exists_eq_or_imp, first, Except.ok.injEq, ih]
      exact or_congr_left eq_comm

variable {w mapAddressBook}

theorem inputAddress_returns (solved : w.OutputsSolved) (txin : CTxIn) :
    ∃ address, w.inputAddress txin = .ok address := by
  rw [inputAddress]
  cases found : w.getWalletTx txin.prevout.hash with
  | none => exact ⟨none, rfl⟩
  | some prev =>
      cases there : prev.tx.vout[txin.prevout.n.toNat]? with
      | none => exact ⟨none, by simp [there]⟩
      | some txout =>
          obtain ⟨entry, member, same⟩ := Option.map_eq_some_iff.mp found
          have known := List.mem_of_find?_eq_some member
          obtain ⟨⟨mine, isMine⟩, address, extracted⟩ := solved entry known txout
            (same ▸ List.mem_of_getElem? there)
          by_cases no : mine = .no
          · exact ⟨none, by simp [there, isMine, no]⟩
          · exact ⟨address, by simp [there, isMine, no, extracted]⟩

theorem outputAddress_returns (solved : w.OutputsSolved) (walletEntry : Uint256 × CWalletTx)
    (known : walletEntry ∈ w.mapWallet) (txout : CTxOut) (member : txout ∈ walletEntry.2.tx.vout) :
    ∃ address, w.outputAddress txout = .ok address := by
  obtain ⟨⟨mine, isMine⟩, address, extracted⟩ := solved walletEntry known txout member
  by_cases no : mine = .no
  · exact ⟨none, by simp [outputAddress, isMine, no]⟩
  · exact ⟨address, by simp [outputAddress, isMine, no, extracted]⟩

theorem changeAddress_returns (solved : w.OutputsSolved) (walletEntry : Uint256 × CWalletTx)
    (known : walletEntry ∈ w.mapWallet) (txout : CTxOut) (member : txout ∈ walletEntry.2.tx.vout) :
    ∃ address, w.changeAddress mapAddressBook txout = .ok address := by
  obtain ⟨⟨mine, isMine⟩, address, extracted⟩ := solved walletEntry known txout member
  by_cases no : mine = .no
  · exact ⟨none, by simp [changeAddress, isChange, isMine, no]⟩
  · cases address with
    | none => exact ⟨none, by simp [changeAddress, isChange, isMine, no, extracted]⟩
    | some a =>
        cases listed : mapAddressBook a with
        | true => exact ⟨none, by simp [changeAddress, isChange, isMine, no, extracted, listed]⟩
        | false =>
            exact ⟨some a, by simp [changeAddress, isChange, isMine, no, extracted, listed]⟩

variable (mapAddressBook) in
theorem inputGrouping_mem (solved : w.OutputsSolved) (walletEntry : Uint256 × CWalletTx)
    (known : walletEntry ∈ w.mapWallet) :
    ∃ grouping, w.inputGrouping mapAddressBook walletEntry.2 = .ok grouping ∧
      ∀ a, a ∈ grouping ↔ w.GroupedBy mapAddressBook walletEntry.2 a := by
  obtain ⟨inputs, ran⟩ := (Totals.mapM_returns w.inputAddress walletEntry.2.tx.vin).mpr
    fun txin _ => inputAddress_returns solved txin
  obtain ⟨change, changed⟩ :=
    (Totals.mapM_returns (w.changeAddress mapAddressBook) walletEntry.2.tx.vout).mpr
      (changeAddress_returns solved walletEntry known)
  have ofInputs := mem_found w.inputAddress walletEntry.2.tx.vin inputs ran
  have ofChange := mem_found (w.changeAddress mapAddressBook) walletEntry.2.tx.vout change changed
  by_cases none : inputs.reduceOption = []
  · refine ⟨[], by simp [inputGrouping, ran, none], ?_⟩
    intro a
    have nobody : ∀ b, ¬ w.InputOf walletEntry.2 b := by
      intro b input
      have member := (ofInputs b).mpr input
      rw [none] at member
      cases member
    simp [GroupedBy, nobody]
  · refine ⟨inputs.reduceOption ++ change.reduceOption,
      by simp [inputGrouping, ran, none, changed], ?_⟩
    intro a
    obtain ⟨b, member⟩ := List.exists_mem_of_ne_nil _ none
    have somebody : ∃ b, w.InputOf walletEntry.2 b := ⟨b, (ofInputs b).mp member⟩
    rw [List.mem_append, ofInputs, ofChange, GroupedBy, and_iff_right somebody]
    rfl

variable (mapAddressBook) in
theorem groupingsOf_mem (solved : w.OutputsSolved) (walletEntry : Uint256 × CWalletTx)
    (known : walletEntry ∈ w.mapWallet) :
    ∃ groupings, w.groupingsOf mapAddressBook walletEntry.2 = .ok groupings ∧
      ∀ s, s ∈ groupings ↔
        ((∃ a, w.GroupedBy mapAddressBook walletEntry.2 a) ∧
          ∀ b, b ∈ s ↔ w.GroupedBy mapAddressBook walletEntry.2 b) ∨
        ∃ a, w.OutputOf walletEntry.2 a ∧ s = {a} := by
  obtain ⟨grouping, grouped, members⟩ :=
    inputGrouping_mem mapAddressBook solved walletEntry known
  obtain ⟨lone, ran⟩ := (Totals.mapM_returns w.outputAddress walletEntry.2.tx.vout).mpr
    (outputAddress_returns solved walletEntry known)
  have ofOutputs := mem_found w.outputAddress walletEntry.2.tx.vout lone ran
  refine ⟨_, by simp only [groupingsOf, grouped, ran]; rfl, ?_⟩
  intro s
  rw [List.mem_append]
  apply or_congr
  · by_cases none : grouping = []
    · have nobody : ¬ ∃ a, w.GroupedBy mapAddressBook walletEntry.2 a := by
        intro some
        obtain ⟨a, groupedBy⟩ := some
        have member := (members a).mpr groupedBy
        rw [none] at member
        cases member
      simp [none, nobody]
    · obtain ⟨a, member⟩ := List.exists_mem_of_ne_nil _ none
      have somebody : ∃ a, w.GroupedBy mapAddressBook walletEntry.2 a := ⟨a, (members a).mp member⟩
      rw [if_neg none, List.mem_singleton, and_iff_right somebody, Finset.ext_iff]
      simp only [List.mem_toFinset, members]
  · rw [List.mem_map]
    constructor
    · intro given
      obtain ⟨a, member, same⟩ := given
      exact ⟨a, (ofOutputs a).mp member, same.symm⟩
    · intro given
      obtain ⟨a, output, same⟩ := given
      exact ⟨a, (ofOutputs a).mpr output, same.symm⟩

variable (mapAddressBook) in
theorem collectGroupings_mem (solved : w.OutputsSolved) :
    ∃ groupings, w.collectGroupings mapAddressBook = .ok groupings ∧
      ∀ s, s ∈ groupings ↔ w.Collects mapAddressBook s := by
  obtain ⟨groupings, ran⟩ := (Totals.mapM_returns
    (fun walletEntry : Uint256 × CWalletTx => w.groupingsOf mapAddressBook walletEntry.2)
    w.mapWallet).mpr (by
      intro walletEntry known
      obtain ⟨found, returned, -⟩ := groupingsOf_mem mapAddressBook solved
        walletEntry known
      exact ⟨found, returned⟩)
  refine ⟨groupings.flatten.dedup, by simp only [collectGroupings, ran]; rfl, ?_⟩
  intro s
  rw [List.mem_dedup, List.mem_flatten]
  constructor
  · intro given
    obtain ⟨found, member, inside⟩ := given
    obtain ⟨walletEntry, known, returned⟩ := Totals.mapM_mem ran found member
    obtain ⟨others, again, members⟩ := groupingsOf_mem mapAddressBook solved
      walletEntry known
    rw [returned, Except.ok.injEq] at again
    exact ⟨walletEntry, known, (members s).mp (again ▸ inside)⟩
  · intro given
    obtain ⟨walletEntry, known, grouped⟩ := given
    obtain ⟨found, returned, members⟩ := groupingsOf_mem mapAddressBook solved
      walletEntry known
    obtain ⟨others, member, again⟩ := Totals.mem_mapM ran walletEntry known
    rw [returned, Except.ok.injEq] at again
    exact ⟨found, again ▸ member, (members s).mpr grouped⟩

/-- The addresses that a transaction groups are one of the sets. -/
theorem grouped_collected (solved : w.OutputsSolved) (walletEntry : Uint256 × CWalletTx)
    (known : walletEntry ∈ w.mapWallet) (a : CTxDestination)
    (grouped : w.GroupedBy mapAddressBook walletEntry.2 a) :
    ∃ s, w.Collects mapAddressBook s ∧
      ∀ b, b ∈ s ↔ w.GroupedBy mapAddressBook walletEntry.2 b := by
  obtain ⟨grouping, -, members⟩ :=
    inputGrouping_mem mapAddressBook solved walletEntry known
  have same : ∀ b, b ∈ grouping.toFinset ↔ w.GroupedBy mapAddressBook walletEntry.2 b := by
    intro b
    rw [List.mem_toFinset, members]
  exact ⟨grouping.toFinset, ⟨walletEntry, known, .inl ⟨⟨a, grouped⟩, same⟩⟩, same⟩

/-! ## The groupings -/

/-- Chains through the collected groupings are chains of transactions. -/
theorem linked_iff (solved : w.OutputsSolved) (groupings : List (Finset CTxDestination))
    (members : ∀ s, s ∈ groupings ↔ w.Collects mapAddressBook s) (a b : CTxDestination) :
    Components.Linked groupings a b ↔ Relation.ReflTransGen (w.JoinedByTx mapAddressBook) a b := by
  constructor
  · intro linked
    induction linked with
    | refl => exact Relation.ReflTransGen.refl
    | tail _ joined ih =>
        obtain ⟨s, member, first, second⟩ := joined
        obtain ⟨walletEntry, known, grouped | lone⟩ := (members s).mp member
        · exact ih.tail ⟨walletEntry, known, (grouped.2 _).mp first, (grouped.2 _).mp second⟩
        · obtain ⟨c, -, same⟩ := lone
          rw [same, Finset.mem_singleton] at first second
          rw [second, ← first]
          exact ih
  · intro chain
    induction chain with
    | refl => exact Relation.ReflTransGen.refl
    | tail _ joined ih =>
        obtain ⟨walletEntry, known, first, second⟩ := joined
        obtain ⟨s, collected, same⟩ := grouped_collected solved walletEntry known _ first
        exact ih.tail ⟨s, (members s).mpr collected, (same _).mpr first, (same _).mpr second⟩

/-- The groupings are disjoint, they have every address of the wallet's transactions, and two addresses
are in one of them if they are linked by a chain of transactions. -/
theorem address_groupings (w : CWalletStore) (mapAddressBook : CTxDestination → Bool)
    (alloc : GroupHeap → Nat) (fresh : ∀ heap, alloc heap ∉ heap) (solved : w.OutputsSolved) :
    ∃ ret, w.getAddressGroupings mapAddressBook alloc = .ok (some ret) ∧
      (∀ A ∈ ret, ∀ B ∈ ret, A ≠ B → Disjoint A B) ∧
      (∀ a, (∃ A ∈ ret, a ∈ A) ↔ w.Occurs mapAddressBook a) ∧
      ∀ a b, (∃ A ∈ ret, a ∈ A ∧ b ∈ A) ↔
        w.Occurs mapAddressBook a ∧ Relation.ReflTransGen (w.JoinedByTx mapAddressBook) a b := by
  obtain ⟨groupings, collected, members⟩ :=
    collectGroupings_mem mapAddressBook solved
  obtain ⟨ret, merged, partition⟩ := mergeGroupings_classes alloc fresh groupings
  have occurs : ∀ a, (∃ s ∈ groupings, a ∈ s) ↔ w.Occurs mapAddressBook a := by
    intro a
    constructor
    · intro given
      obtain ⟨s, member, inside⟩ := given
      obtain ⟨walletEntry, known, grouped | lone⟩ := (members s).mp member
      · exact ⟨walletEntry, known, .inl ((grouped.2 a).mp inside)⟩
      · obtain ⟨b, output, same⟩ := lone
        rw [same, Finset.mem_singleton] at inside
        exact ⟨walletEntry, known, .inr (inside ▸ output)⟩
    · intro given
      obtain ⟨walletEntry, known, grouped | output⟩ := given
      · obtain ⟨s, collected, same⟩ := grouped_collected solved walletEntry known a grouped
        exact ⟨s, (members s).mpr collected, (same a).mpr grouped⟩
      · exact ⟨{a}, (members {a}).mpr ⟨walletEntry, known, .inr ⟨a, output, rfl⟩⟩,
          Finset.mem_singleton_self a⟩
  have together := Components.same_class_iff groupings {A | A ∈ ret} partition
  refine ⟨ret, by rw [getAddressGroupings, collected, ok_then, merged]; rfl, ?_, ?_, ?_⟩
  · intro A memberA B memberB different
    rw [Finset.disjoint_left]
    intro a inA inB
    exact different (partition.apart A memberA B memberB ⟨a, inA, inB⟩)
  · intro a
    rw [← occurs a]
    have alone := together a a
    constructor
    · intro given
      obtain ⟨A, member, inside⟩ := given
      exact (alone.mp ⟨A, member, inside, inside⟩).1
    · intro given
      obtain ⟨A, member, inside, -⟩ := alone.mpr ⟨given, Relation.ReflTransGen.refl⟩
      exact ⟨A, member, inside⟩
  · intro a b
    rw [← occurs a, ← linked_iff solved groupings members a b]
    exact together a b

/-! ## A wallet with an input that has no address -/

/-- A pointer above all others. -/
def topPointer (heap : GroupHeap) : Nat := heap.keys.sum + 1

theorem topPointer_fresh (heap : GroupHeap) : topPointer heap ∉ heap := by
  intro member
  have small := List.le_sum_of_mem (AList.mem_keys.mp member)
  rw [topPointer] at small
  omega

/-- One of one key, bare. -/
def bareMultisig : CScript :=
  [op1] ++ pushData (2 :: List.replicate 32 7) ++ [op1, opCheckmultisig]

/-- A bare multisignature output, and a transaction that spends it to two keys. -/
def bareWallet : CWalletStore where
  mapWallet := [
    (1, {
      tx := ⟨1, [], [⟨5, bareMultisig⟩], 0⟩
      hash := 1
      hashBlock := 0
      vMerkleBranch := []
      nIndex := -1
      fMerkleVerified := false
      inRange := by decide }),
    (2, {
      tx := ⟨1, [⟨⟨1, 0⟩, [], -1⟩],
        [⟨2, getScriptForDestination (.keyID 3)⟩, ⟨2, getScriptForDestination (.keyID 4)⟩], 0⟩
      hash := 2
      hashBlock := 0
      vMerkleBranch := []
      nIndex := -1
      fMerkleVerified := false
      inRange := by decide })]
  mapTxSpends := []
  setLockedCoins := []
  keystore := ⟨fun _ => true, fun _ => false, []⟩
  hash160 _ := 0
  fDatacarrier := true
  nMaxDatacarrierBytes := 83
  bSpendZeroConfChange := true
  distinct := by decide
  keyed := by
    intro entry member
    simp only [List.mem_cons, List.not_mem_nil, or_false] at member
    rcases member with first | second
    · rw [first]
    · rw [second]

theorem bareWallet_solved : bareWallet.OutputsSolved := by
  intro walletEntry known txout member
  simp only [bareWallet, List.mem_cons, List.not_mem_nil, or_false] at known
  rcases known with first | second
  · rw [first, List.mem_singleton] at member
    rw [member]
    exact ⟨⟨.spendable, by decide +kernel⟩, none, by decide +kernel⟩
  · rw [second] at member
    simp only [List.mem_cons, List.not_mem_nil, or_false] at member
    rcases member with third | fourth
    · rw [third]
      exact ⟨⟨.spendable, by decide +kernel⟩, some (.keyID 3), by decide +kernel⟩
    · rw [fourth]
      exact ⟨⟨.spendable, by decide +kernel⟩, some (.keyID 4), by decide +kernel⟩

/-- The groupings of that wallet. -/
theorem address_groupings_bare :
    ∃ ret, bareWallet.getAddressGroupings (fun _ => false) topPointer = .ok (some ret) ∧
      (∀ A ∈ ret, ∀ B ∈ ret, A ≠ B → Disjoint A B) ∧
      (∀ a, (∃ A ∈ ret, a ∈ A) ↔ bareWallet.Occurs (fun _ => false) a) ∧
      ∀ a b, (∃ A ∈ ret, a ∈ A ∧ b ∈ A) ↔ bareWallet.Occurs (fun _ => false) a ∧
        Relation.ReflTransGen (bareWallet.JoinedByTx (fun _ => false)) a b :=
  address_groupings bareWallet (fun _ => false) topPointer topPointer_fresh bareWallet_solved

/-- The input of its second transaction is mine, and both outputs are change, but they are not in one
of the groupings. -/
theorem change_apart :
    (∃ prev txout, bareWallet.getWalletTx 1 = some prev ∧ prev.tx.vout[0]? = some txout ∧
      bareWallet.isMine txout = .ok .spendable) ∧
    (∃ spending, bareWallet.getWalletTx 2 = some spending ∧
      spending.tx.vin = [⟨⟨1, 0⟩, [], -1⟩] ∧
      bareWallet.ChangeOf (fun _ => false) spending (.keyID 3) ∧
      bareWallet.ChangeOf (fun _ => false) spending (.keyID 4)) ∧
    ∃ ret, bareWallet.getAddressGroupings (fun _ => false) topPointer = .ok (some ret) ∧
      ¬ ∃ A ∈ ret, .keyID 3 ∈ A ∧ .keyID 4 ∈ A := by
  have collected : bareWallet.collectGroupings (fun _ => false) = .ok [{.keyID 3}, {.keyID 4}] := by
    decide +kernel
  obtain ⟨ret, merged, partition⟩ :=
    mergeGroupings_classes topPointer topPointer_fresh [{.keyID 3}, {.keyID 4}]
  refine ⟨⟨_, _, rfl, rfl, by decide +kernel⟩, ⟨_, rfl, rfl, ?_, ?_⟩, ret, ?_, ?_⟩
  · exact ⟨_, List.mem_cons_self, by decide +kernel⟩
  · exact ⟨_, List.mem_cons_of_mem _ List.mem_cons_self, by decide +kernel⟩
  · rw [getAddressGroupings, collected, ok_then, merged]
    rfl
  · intro together
    have linked := ((Components.same_class_iff _ _ partition _ _).mp together).2
    have alone : ∀ a, Components.Linked [{.keyID 3}, {CTxDestination.keyID 4}] (.keyID 3) a →
        a = .keyID 3 := by
      intro a chain
      induction chain with
      | refl => rfl
      | tail _ joined ih =>
          obtain ⟨s, member, first, second⟩ := joined
          rw [ih] at first
          simp only [List.mem_cons, List.not_mem_nil, or_false] at member
          rcases member with same | same
          · rw [same, Finset.mem_singleton] at second
            exact second
          · rw [same, Finset.mem_singleton] at first
            cases first
    have same := alone _ linked
    cases same

end CWalletStore

end RoiCoin
