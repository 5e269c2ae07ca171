import Mathlib.Data.Finset.Option
import Mathlib.Data.Finset.Sort
import Mathlib.Data.List.AList
import Mathlib.Data.List.Dedup
import Mathlib.Order.Lattice.Nat
import RoiCoin.Lib.Components
import RoiCoin.Wallet.Wallet

/-! The groups of addresses that were used together, `CWallet::GetAddressGroupings`
(`wallet/wallet.cpp`).

The heap has the groups behind their pointers; `new` is a parameter. The second half gives nothing
where a pointer to a deleted group is used. -/

namespace RoiCoin

namespace CWalletStore

variable (w : CWalletStore)

/-- `ExtractDestination` -/
def extractDestination (scriptPubKey : CScript) : Walleting (Option CTxDestination) := do
  let solved ← w.solve scriptPubKey
  if !solved.found then return none
  else
    match solved.typeRet with
    | .pubkey =>
        let vch := solved.vSolutions.headD []
        if !isValidPubKey vch then return none else return some (.keyID (w.hash160 vch))
    | .pubkeyhash | .checklocktimeverify => return some (.keyID (firstSolution solved))
    | .scripthash => return some (.scriptID (firstSolution solved))
    | _ => return none

/-- The address of an input that is mine. -/
def inputAddress (txin : CTxIn) : Walleting (Option CTxDestination) :=
  match w.getWalletTx txin.prevout.hash with
  | none => .ok none
  | some prev =>
      match prev.tx.vout[txin.prevout.n.toNat]? with
      | none => .ok none
      | some txout => do
          let mine ← w.isMine txout
          if mine = .no then return none else w.extractDestination txout.scriptPubKey

/-- `IsChange`; the second argument is whether `mapAddressBook` has an address. -/
def isChange (mapAddressBook : CTxDestination → Bool) (txout : CTxOut) : Walleting Bool := do
  let mine ← w.isMine txout
  if mine = .no then return false
  else
    match ← w.extractDestination txout.scriptPubKey with
    | none => return true
    | some address => return !mapAddressBook address

/-- The address of a change output. -/
def changeAddress (mapAddressBook : CTxDestination → Bool) (txout : CTxOut) :
    Walleting (Option CTxDestination) := do
  if !(← w.isChange mapAddressBook txout) then return none
  else w.extractDestination txout.scriptPubKey

/-- The address of an output that is mine. -/
def outputAddress (txout : CTxOut) : Walleting (Option CTxDestination) := do
  let mine ← w.isMine txout
  if mine = .no then return none else w.extractDestination txout.scriptPubKey

/-- The input addresses of a transaction and, if there are any, its change addresses. -/
def inputGrouping (mapAddressBook : CTxDestination → Bool) (wtx : CWalletTx) :
    Walleting (List CTxDestination) := do
  let inputs ← wtx.tx.vin.mapM w.inputAddress
  if inputs.reduceOption = [] then return []
  else
    let change ← wtx.tx.vout.mapM (w.changeAddress mapAddressBook)
    return inputs.reduceOption ++ change.reduceOption

/-- What one transaction adds to `groupings`. -/
def groupingsOf (mapAddressBook : CTxDestination → Bool) (wtx : CWalletTx) :
    Walleting (List (Finset CTxDestination)) := do
  let grouping ← w.inputGrouping mapAddressBook wtx
  let lone ← wtx.tx.vout.mapM w.outputAddress
  return (if grouping = [] then [] else [grouping.toFinset]) ++ lone.reduceOption.map fun address =>
    {address}

def collectGroupings (mapAddressBook : CTxDestination → Bool) :
    Walleting (List (Finset CTxDestination)) := do
  let groupings ← w.mapWallet.mapM fun walletEntry => w.groupingsOf mapAddressBook walletEntry.2
  return groupings.flatten.dedup

end CWalletStore

/-! ## Merging -/

abbrev GroupHeap := AList fun _ : Nat => Finset CTxDestination

/-- `uniqueGroupings` and `setmap` hold pointers. -/
structure GroupMerging where
  heap : GroupHeap
  uniqueGroupings : Finset Nat
  setmap : CTxDestination → Option Nat

namespace GroupMerging

def start : GroupMerging := ⟨∅, ∅, fun _ => none⟩

/-- A group that is hit goes into the merged one, and is deleted. -/
def mergeHit (merged : Nat) (st : GroupHeap × Finset Nat) (hit : Nat) :
    Option (GroupHeap × Finset Nat) := do
  let group ← st.1.lookup hit
  let whole ← st.1.lookup merged
  return ((st.1.insert merged (whole ∪ group)).erase hit, st.2.erase hit)

/-- The pointers that `setmap` has for the addresses. -/
def hits (st : GroupMerging) (grouping : Finset CTxDestination) : Finset Nat :=
  grouping.biUnion fun address => (st.setmap address).toFinset

def mergeGrouping (alloc : GroupHeap → Nat) (st : GroupMerging)
    (grouping : Finset CTxDestination) : Option GroupMerging := do
  let merged := alloc st.heap
  let done ← ((st.hits grouping).sort (· ≤ ·)).foldlM (mergeHit merged)
    (st.heap.insert merged grouping, st.uniqueGroupings)
  let group ← done.1.lookup merged
  return {
    heap := done.1
    uniqueGroupings := insert merged done.2
    setmap := fun element => if element ∈ group then some merged else st.setmap element }

/-- A group is returned, and deleted. -/
def takeGrouping (st : GroupHeap × Finset (Finset CTxDestination)) (uniqueGrouping : Nat) :
    Option (GroupHeap × Finset (Finset CTxDestination)) := do
  let group ← st.1.lookup uniqueGrouping
  return (st.1.erase uniqueGrouping, insert group st.2)

end GroupMerging

def mergeGroupings (alloc : GroupHeap → Nat) (groupings : List (Finset CTxDestination)) :
    Option (Finset (Finset CTxDestination)) := do
  let st ← groupings.foldlM (GroupMerging.mergeGrouping alloc) GroupMerging.start
  let ret ← (st.uniqueGroupings.sort (· ≤ ·)).foldlM GroupMerging.takeGrouping (st.heap, ∅)
  return ret.2

def CWalletStore.getAddressGroupings (w : CWalletStore) (mapAddressBook : CTxDestination → Bool)
    (alloc : GroupHeap → Nat) : Walleting (Option (Finset (Finset CTxDestination))) := do
  let groupings ← w.collectGroupings mapAddressBook
  return mergeGroupings alloc groupings

namespace GroupMerging

open Components

/-- The groups behind the pointers are the classes, and `setmap` has the pointer of every address. -/
structure Represents (st : GroupMerging) (classes : Set (Finset CTxDestination)) : Prop where
  live : ∀ p ∈ st.uniqueGroupings, ∃ A, st.heap.lookup p = some A
  groups : ∀ A, A ∈ classes ↔ ∃ p ∈ st.uniqueGroupings, st.heap.lookup p = some A
  pointers : ∀ a p, st.setmap a = some p ↔
    p ∈ st.uniqueGroupings ∧ ∃ A, st.heap.lookup p = some A ∧ a ∈ A

theorem represents_start : start.Represents ∅ where
  live p member := absurd member (Finset.notMem_empty p)
  groups A := by simp [start]
  pointers a p := by simp [start]

/-- The loop over the groups that are hit: they are deleted, and the merged group has their
addresses. -/
theorem mergeHits (merged : Nat) (hits : List Nat) (distinct : hits.Nodup) (apart : merged ∉ hits)
    (heap : GroupHeap) (unique : Finset Nat) (group : Finset CTxDestination)
    (here : heap.lookup merged = some group)
    (live : ∀ p ∈ hits, ∃ A, heap.lookup p = some A) :
    ∃ done whole, hits.foldlM (mergeHit merged) (heap, unique) = some done ∧
      done.1.lookup merged = some whole ∧
      (∀ a, a ∈ whole ↔ a ∈ group ∨ ∃ p ∈ hits, ∃ A, heap.lookup p = some A ∧ a ∈ A) ∧
      (∀ p, p ≠ merged → p ∉ hits → done.1.lookup p = heap.lookup p) ∧
      ∀ p, p ∈ done.2 ↔ p ∈ unique ∧ p ∉ hits := by
  induction hits generalizing heap unique group with
  | nil => exact ⟨(heap, unique), group, rfl, here, by simp, fun p _ _ => rfl, by simp⟩
  | cons hit rest ih =>
      obtain ⟨A, found⟩ := live hit List.mem_cons_self
      have other : merged ≠ hit := fun same => apart (same ▸ List.mem_cons_self)
      have parts := List.nodup_cons.mp distinct
      have changed : ∀ p, p ≠ merged → p ≠ hit →
          ((heap.insert merged (group ∪ A)).erase hit).lookup p = heap.lookup p := by
        intro p notMerged notHit
        rw [AList.lookup_erase_ne notHit, AList.lookup_insert_ne notMerged]
      have notHere : ∀ p ∈ rest, p ≠ merged ∧ p ≠ hit := fun p member =>
        ⟨fun same => apart (same ▸ List.mem_cons_of_mem hit member),
          fun same => parts.1 (same ▸ member)⟩
      obtain ⟨done, whole, ran, kept, members, same, unique'⟩ :=
        ih parts.2 (fun member => apart (List.mem_cons_of_mem hit member))
          ((heap.insert merged (group ∪ A)).erase hit) (unique.erase hit) (group ∪ A)
          (by rw [AList.lookup_erase_ne other, AList.lookup_insert])
          (by
            intro p member
            rw [changed p (notHere p member).1 (notHere p member).2]
            exact live p (List.mem_cons_of_mem hit member))
      refine ⟨done, whole, ?_, kept, ?_, ?_, ?_⟩
      · rw [List.foldlM_cons, mergeHit, found, here]
        exact ran
      · intro a
        rw [members a, Finset.mem_union, or_assoc]
        apply or_congr_right
        constructor
        · intro either
          rcases either with inA | ⟨p, member, B, there, inB⟩
          · exact ⟨hit, List.mem_cons_self, A, found, inA⟩
          · rw [changed p (notHere p member).1 (notHere p member).2] at there
            exact ⟨p, List.mem_cons_of_mem hit member, B, there, inB⟩
        · intro some
          obtain ⟨p, member, B, there, inB⟩ := some
          rcases List.mem_cons.mp member with first | later
          · rw [first, found, Option.some.injEq] at there
            exact .inl (there ▸ inB)
          · refine .inr ⟨p, later, B, ?_, inB⟩
            rw [changed p (notHere p later).1 (notHere p later).2]
            exact there
      · intro p notMerged outside
        rw [List.mem_cons, not_or] at outside
        rw [same p notMerged outside.2, changed p notMerged outside.1]
      · intro p
        rw [unique' p, Finset.mem_erase, List.mem_cons, not_or]
        constructor
        · intro given
          exact ⟨given.1.2, given.1.1, given.2⟩
        · intro given
          exact ⟨⟨given.2.1, given.1⟩, given.2.2⟩

theorem mem_hits (st : GroupMerging) (grouping : Finset CTxDestination) (p : Nat) :
    p ∈ st.hits grouping ↔ ∃ a ∈ grouping, st.setmap a = some p := by
  simp [hits]

/-- The classes that a grouping meets are those behind the pointers that are hit. -/
theorem hit_iff (st : GroupMerging) (classes : Set (Finset CTxDestination))
    (represents : st.Represents classes) (grouping : Finset CTxDestination) (p : Nat) :
    p ∈ st.hits grouping ↔ p ∈ st.uniqueGroupings ∧
      ∃ A, st.heap.lookup p = some A ∧ Meets A grouping := by
  rw [mem_hits]
  constructor
  · intro hit
    obtain ⟨a, member, pointed⟩ := hit
    obtain ⟨unique, A, there, inA⟩ := (represents.pointers a p).mp pointed
    exact ⟨unique, A, there, a, inA, member⟩
  · intro hit
    obtain ⟨unique, A, there, a, inA, member⟩ := hit
    exact ⟨a, member, (represents.pointers a p).mpr ⟨unique, A, there, inA⟩⟩

/-- The merged group behind a new pointer, and the groups that are not hit behind theirs. -/
theorem merged_represents (st : GroupMerging) (sets : List (Finset CTxDestination))
    (classes : Set (Finset CTxDestination)) (represents : st.Represents classes)
    (partition : Classes sets classes) (grouping whole : Finset CTxDestination) (merged : Nat)
    (heap : GroupHeap) (uniqueGroupings : Finset Nat)
    (taken : ∀ a, a ∈ whole ↔ a ∈ grouping ∨ ∃ A ∈ classes, Meets A grouping ∧ a ∈ A)
    (kept : heap.lookup merged = some whole)
    (left : ∀ p ∈ st.uniqueGroupings, p ∉ st.hits grouping → heap.lookup p = st.heap.lookup p)
    (unique : ∀ p, p ∈ uniqueGroupings ↔ p ∈ st.uniqueGroupings ∧ p ∉ st.hits grouping) :
    Represents {
      heap := heap
      uniqueGroupings := insert merged uniqueGroupings
      setmap := fun element => if element ∈ whole then some merged else st.setmap element }
      {B | B = whole ∨ B ∈ classes ∧ ¬ Meets B grouping} := by
  have hit := hit_iff st classes represents grouping
  have unhit : ∀ p A, st.heap.lookup p = some A → ¬ Meets A grouping → p ∉ st.hits grouping := by
    intro p A found free here
    obtain ⟨-, B, again, met⟩ := (hit p).mp here
    rw [found, Option.some.injEq] at again
    exact free (again ▸ met)
  -- A group behind an old pointer is one of the classes, and not hit.
  have old : ∀ p ∈ uniqueGroupings, ∀ A, heap.lookup p = some A →
      p ∈ st.uniqueGroupings ∧ st.heap.lookup p = some A ∧ A ∈ classes ∧ ¬ Meets A grouping := by
    intro p member A found
    have outside := (unique p).mp member
    rw [left p outside.1 outside.2] at found
    refine ⟨outside.1, found, (represents.groups A).mpr ⟨p, outside.1, found⟩, ?_⟩
    intro met
    exact outside.2 ((hit p).mpr ⟨outside.1, A, found, met⟩)
  -- And the other way round.
  have stays : ∀ p ∈ st.uniqueGroupings, ∀ A, st.heap.lookup p = some A → ¬ Meets A grouping →
      p ∈ insert merged uniqueGroupings ∧ heap.lookup p = some A := by
    intro p member A found free
    have outside := unhit p A found free
    exact ⟨Finset.mem_insert_of_mem ((unique p).mpr ⟨member, outside⟩),
      by rw [left p member outside, found]⟩
  constructor
  case live =>
    intro p member
    rcases Finset.mem_insert.mp member with first | later
    · exact ⟨whole, by rw [first, kept]⟩
    · have outside := (unique p).mp later
      show ∃ A, heap.lookup p = some A
      rw [left p outside.1 outside.2]
      exact represents.live p outside.1
  case groups =>
    intro A
    constructor
    · intro given
      rcases given with same | ⟨inClasses, free⟩
      · exact ⟨merged, Finset.mem_insert_self _ _, by rw [kept, same]⟩
      · obtain ⟨p, member, found⟩ := (represents.groups A).mp inClasses
        exact ⟨p, stays p member A found free⟩
    · intro given
      obtain ⟨p, member, found⟩ := given
      rcases Finset.mem_insert.mp member with first | later
      · rw [first, kept, Option.some.injEq] at found
        exact .inl found.symm
      · exact .inr (old p later A found).2.2
  case pointers =>
    intro a p
    by_cases inside : a ∈ whole
    · simp only [if_pos inside, Option.some.injEq]
      constructor
      · intro same
        rw [← same]
        exact ⟨Finset.mem_insert_self _ _, whole, kept, inside⟩
      · intro given
        obtain ⟨member, A, found, inA⟩ := given
        rcases Finset.mem_insert.mp member with first | later
        · exact first.symm
        · obtain ⟨-, -, inClasses, free⟩ := old p later A found
          rcases (taken a).mp inside with fresh | ⟨B, other, met, inB⟩
          · exact absurd ⟨a, inA, fresh⟩ free
          · rw [partition.apart B other A inClasses ⟨a, inB, inA⟩] at met
            exact absurd met free
    · simp only [if_neg inside]
      rw [represents.pointers a p]
      constructor
      · intro given
        obtain ⟨member, A, found, inA⟩ := given
        have free : ¬ Meets A grouping := by
          intro met
          have inClasses := (represents.groups A).mpr ⟨p, member, found⟩
          exact inside ((taken a).mpr (.inr ⟨A, inClasses, met, inA⟩))
        have here := stays p member A found free
        exact ⟨here.1, A, here.2, inA⟩
      · intro given
        obtain ⟨member, A, found, inA⟩ := given
        rcases Finset.mem_insert.mp member with first | later
        · rw [first, kept, Option.some.injEq] at found
          exact absurd (found ▸ inA) inside
        · have before := old p later A found
          exact ⟨before.1, A, before.2.1, inA⟩

theorem mergeGrouping_represents (alloc : GroupHeap → Nat) (fresh : ∀ heap, alloc heap ∉ heap)
    (st : GroupMerging) (sets : List (Finset CTxDestination))
    (classes : Set (Finset CTxDestination)) (represents : st.Represents classes)
    (partition : Classes sets classes) (grouping : Finset CTxDestination) :
    ∃ st' classes', st.mergeGrouping alloc grouping = some st' ∧ st'.Represents classes' ∧
      Classes (sets ++ [grouping]) classes' := by
  have new : st.heap.lookup (alloc st.heap) = none := AList.lookup_eq_none.mpr (fresh st.heap)
  have liveNew : ∀ p ∈ st.uniqueGroupings, p ≠ alloc st.heap := by
    intro p member same
    obtain ⟨A, there⟩ := represents.live p member
    rw [same, new] at there
    cases there
  have added : ∀ p ∈ st.uniqueGroupings,
      (st.heap.insert (alloc st.heap) grouping).lookup p = st.heap.lookup p :=
    fun p member => AList.lookup_insert_ne (liveNew p member)
  have hit := hit_iff st classes represents grouping
  obtain ⟨done, whole, ran, kept, members, same, unique⟩ := mergeHits (alloc st.heap)
    ((st.hits grouping).sort (· ≤ ·)) (Finset.sort_nodup _ _)
    (fun member => liveNew _ ((hit _).mp ((Finset.mem_sort _).mp member)).1 rfl)
    (st.heap.insert (alloc st.heap) grouping) st.uniqueGroupings grouping (AList.lookup_insert _)
    (by
      intro p member
      obtain ⟨there, A, found, -⟩ := (hit p).mp ((Finset.mem_sort _).mp member)
      exact ⟨A, by rw [added p there, found]⟩)
  simp only [Finset.mem_sort] at members same unique
  have taken : ∀ a, a ∈ whole ↔ a ∈ grouping ∨ ∃ A ∈ classes, Meets A grouping ∧ a ∈ A := by
    intro a
    rw [members a]
    apply or_congr_right
    constructor
    · intro given
      obtain ⟨p, member, A, there, inA⟩ := given
      obtain ⟨here, B, found, met⟩ := (hit p).mp member
      rw [added p here, found, Option.some.injEq] at there
      rw [← there] at inA
      exact ⟨B, (represents.groups B).mpr ⟨p, here, found⟩, met, inA⟩
    · intro given
      obtain ⟨A, inClasses, met, inA⟩ := given
      obtain ⟨p, here, found⟩ := (represents.groups A).mp inClasses
      exact ⟨p, (hit p).mpr ⟨here, A, found, met⟩, A, by rw [added p here, found], inA⟩
  have left : ∀ p ∈ st.uniqueGroupings, p ∉ st.hits grouping →
      done.1.lookup p = st.heap.lookup p := by
    intro p member outside
    rw [same p (liveNew p member) outside, added p member]
  have merges : st.mergeGrouping alloc grouping = some {
      heap := done.1
      uniqueGroupings := insert (alloc st.heap) done.2
      setmap := fun element =>
        if element ∈ whole then some (alloc st.heap) else st.setmap element } := by
    rw [mergeGrouping, ran]
    simp only [Option.bind_eq_bind, Option.bind_some, kept]
    rfl
  exact ⟨_, _, merges, merged_represents st sets classes represents partition grouping whole _
    done.1 done.2 taken kept left unique, classes_merge sets classes partition grouping whole taken⟩

/-- All groups are returned and deleted once. -/
theorem takeGroupings (pointers : List Nat) (distinct : pointers.Nodup) (heap : GroupHeap)
    (ret : Finset (Finset CTxDestination)) (live : ∀ p ∈ pointers, ∃ A, heap.lookup p = some A) :
    ∃ done, pointers.foldlM takeGrouping (heap, ret) = some done ∧
      ∀ A, A ∈ done.2 ↔ A ∈ ret ∨ ∃ p ∈ pointers, heap.lookup p = some A := by
  induction pointers generalizing heap ret with
  | nil => exact ⟨(heap, ret), rfl, by simp⟩
  | cons p rest ih =>
      obtain ⟨group, found⟩ := live p List.mem_cons_self
      have parts := List.nodup_cons.mp distinct
      have changed : ∀ q ∈ rest, (heap.erase p).lookup q = heap.lookup q := by
        intro q member
        exact AList.lookup_erase_ne fun same => parts.1 (same ▸ member)
      obtain ⟨done, ran, members⟩ := ih parts.2 (heap.erase p) (insert group ret) (by
        intro q member
        rw [changed q member]
        exact live q (List.mem_cons_of_mem p member))
      refine ⟨done, ?_, ?_⟩
      · rw [List.foldlM_cons, takeGrouping, found]
        exact ran
      · intro A
        have later : (∃ q ∈ rest, (heap.erase p).lookup q = some A) ↔
            ∃ q ∈ rest, heap.lookup q = some A := by
          constructor
          · intro given
            obtain ⟨q, member, there⟩ := given
            exact ⟨q, member, by rw [← changed q member, there]⟩
          · intro given
            obtain ⟨q, member, there⟩ := given
            exact ⟨q, member, by rw [changed q member, there]⟩
        rw [members A, Finset.mem_insert, later]
        simp only [List.mem_cons, exists_eq_or_imp, found, Option.some.injEq]
        constructor
        · intro given
          rcases given with (first | old) | after
          · exact .inr (.inl first.symm)
          · exact .inl old
          · exact .inr (.inr after)
        · intro given
          rcases given with old | first | after
          · exact .inl (.inr old)
          · exact .inl (.inl first.symm)
          · exact .inr after

end GroupMerging

/-- Whatever the order of the groupings, the merged groups are their classes, and no pointer to a
deleted group is used. -/
theorem mergeGroupings_classes (alloc : GroupHeap → Nat) (fresh : ∀ heap, alloc heap ∉ heap)
    (groupings : List (Finset CTxDestination)) :
    ∃ ret, mergeGroupings alloc groupings = some ret ∧
      Components.Classes groupings {A | A ∈ ret} := by
  have merges (rest : List (Finset CTxDestination)) (st : GroupMerging)
      (sets : List (Finset CTxDestination)) (classes : Set (Finset CTxDestination))
      (represents : st.Represents classes) (partition : Components.Classes sets classes) :
      ∃ st' classes', rest.foldlM (GroupMerging.mergeGrouping alloc) st = some st' ∧
        st'.Represents classes' ∧ Components.Classes (sets ++ rest) classes' := by
    induction rest generalizing st sets classes with
    | nil => exact ⟨st, classes, rfl, represents, by rwa [List.append_nil]⟩
    | cons grouping rest ih =>
        obtain ⟨next, classes', merged, represents', partition'⟩ :=
          GroupMerging.mergeGrouping_represents alloc fresh st sets classes represents partition
            grouping
        obtain ⟨last, classes'', ran, represents'', partition''⟩ :=
          ih next (sets ++ [grouping]) classes' represents' partition'
        refine ⟨last, classes'', ?_, represents'', ?_⟩
        · rw [List.foldlM_cons, merged]
          exact ran
        · rwa [List.append_assoc] at partition''
  obtain ⟨st, classes, ran, represents, partition⟩ := merges groupings GroupMerging.start [] ∅
    GroupMerging.represents_start Components.classes_nil
  obtain ⟨done, took, members⟩ := GroupMerging.takeGroupings
    (st.uniqueGroupings.sort (· ≤ ·)) (Finset.sort_nodup _ _) st.heap ∅ (by
      intro p member
      exact represents.live p ((Finset.mem_sort _).mp member))
  refine ⟨done.2, ?_, ?_⟩
  · rw [mergeGroupings, ran]
    simp only [Option.bind_eq_bind, Option.bind_some, took]
    rfl
  · have same : {A | A ∈ done.2} = classes := by
      ext A
      show A ∈ done.2 ↔ A ∈ classes
      rw [members A, represents.groups A]
      simp
    rwa [same]

end RoiCoin
