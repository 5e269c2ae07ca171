import Mathlib.Order.Lattice.Nat
import Mathlib.Algebra.Order.Ring.Int
import RoiCoin.ArithUint256
import RoiCoin.Lib.Multimap
import RoiCoin.Lib.Runs

/-! The positions of wallet transactions and accounting entries, `CWalletDB::ReorderTransactions`
(`wallet/walletdb.cpp`).

The code gives nothing where an `int64_t` addition overflows. -/

namespace RoiCoin

/-- A `TxPair`: the hash of the transaction, or `nEntryNo` of the accounting entry. -/
inductive TxPair where
  | wtx (hash : Uint256)
  | acentry (nEntryNo : Nat)
  deriving DecidableEq

/-- Time is `nTimeReceived` of a transaction and `nTime` of an accounting entry. -/
structure TxItem where
  nTime : Int
  pair : TxPair
  nOrderPos : Int
  deriving DecidableEq

/-- Which writes succeed. -/
structure WalletWrites where
  writeTx : Uint256 → Bool
  writeAccountingEntry : Nat → Bool

def WalletWrites.write (db : WalletWrites) : TxPair → Bool
  | .wtx hash => db.writeTx hash
  | .acentry nEntryNo => db.writeAccountingEntry nEntryNo

/-- The variables of the loop, and the entries so far with their new positions. -/
structure Reordering where
  nOrderPosNext : Int
  nOrderPosOffsets : List Int
  placed : List (TxItem × Int)
  deriving DecidableEq

inductive ReorderResult where
  | dbLoadOk (done : Reordering)
  | dbLoadFail

namespace Reordering

def start : Reordering := ⟨0, [], []⟩

def int64End : Int := 2 ^ 63

/-- An unordered entry gets the next position. -/
def append (st : Reordering) (item : TxItem) : Reordering where
  nOrderPosNext := st.nOrderPosNext + 1
  nOrderPosOffsets := st.nOrderPosOffsets ++ [st.nOrderPosNext]
  placed := st.placed ++ [(item, st.nOrderPosNext)]

/-- `nOrderPosOff` of an ordered entry. -/
def off (st : Reordering) (nOrderPos : Int) : Int :=
  st.nOrderPosOffsets.countP fun nOffsetStart => nOrderPos ≥ nOffsetStart

/-- An ordered entry moves by its offset. -/
def shift (st : Reordering) (item : TxItem) : Reordering where
  nOrderPosNext := max st.nOrderPosNext (item.nOrderPos + st.off item.nOrderPos + 1)
  nOrderPosOffsets := st.nOrderPosOffsets
  placed := st.placed ++ [(item, item.nOrderPos + st.off item.nOrderPos)]

def next (st : Reordering) (item : TxItem) : Reordering :=
  if item.nOrderPos = -1 then st.append item else st.shift item

/-- The loop over the entries. -/
def loop (db : WalletWrites) (st : Reordering) : List TxItem → Option ReorderResult
  | [] => some (.dbLoadOk st)
  | item :: rest =>
      if item.nOrderPos = -1 then
        if st.nOrderPosNext + 1 ≥ int64End then none
        else if !db.write item.pair then some .dbLoadFail
        else loop db (st.append item) rest
      else if item.nOrderPos + st.off item.nOrderPos + 1 ≥ int64End then none
      else if st.off item.nOrderPos = 0 then loop db (st.shift item) rest
      else if !db.write item.pair then some .dbLoadFail
      else loop db (st.shift item) rest

end Reordering

def txByTime (mapWallet acentries : List TxItem) : List TxItem :=
  ((mapWallet ++ acentries).foldl
    (fun txByTime item => Multimap.insert item.nTime item txByTime) []).map Prod.snd

def reorderTransactions (db : WalletWrites) (mapWallet acentries : List TxItem) :
    Option ReorderResult :=
  Reordering.loop db Reordering.start (txByTime mapWallet acentries)

/-- All positions are distinct, not negative and below the next one, and entries that were ordered keep
their order. -/
structure StrictOrder (done : Reordering) : Prop where
  distinct : (done.placed.map Prod.snd).Nodup
  nonneg : ∀ entry ∈ done.placed, 0 ≤ entry.2
  below : ∀ entry ∈ done.placed, entry.2 < done.nOrderPosNext
  kept : ∀ a ∈ done.placed, ∀ b ∈ done.placed, a.1.nOrderPos ≠ -1 → b.1.nOrderPos ≠ -1 →
    a.1.nOrderPos < b.1.nOrderPos → a.2 < b.2

/-- Unordered, or with a position. -/
def TxItem.Positioned (item : TxItem) : Prop := item.nOrderPos = -1 ∨ 0 ≤ item.nOrderPos

/-- The entries do not share a position. -/
def TxItem.Apart (a b : TxItem) : Prop := a.nOrderPos = b.nOrderPos → a.nOrderPos = -1

namespace Reordering

/-- An ordered entry does not get a position that an unordered one has got, and no addition
overflows. -/
def Meets (st : Reordering) (item : TxItem) : Prop :=
  if item.nOrderPos = -1 then st.nOrderPosNext + 1 < int64End
  else
    item.nOrderPos + st.off item.nOrderPos ∉ st.nOrderPosOffsets ∧
      item.nOrderPos + st.off item.nOrderPos + 1 < int64End

instance (st : Reordering) (item : TxItem) : Decidable (st.Meets item) :=
  inferInstanceAs (Decidable (if item.nOrderPos = -1 then st.nOrderPosNext + 1 < int64End
    else item.nOrderPos + st.off item.nOrderPos ∉ st.nOrderPosOffsets ∧
      item.nOrderPos + st.off item.nOrderPos + 1 < int64End))

/-! ## What the loop has placed -/

/-- The ordered entries so far are where the offsets of now put them. -/
structure Kept (st : Reordering) : Prop where
  next : 0 ≤ st.nOrderPosNext
  offsets : ∀ o ∈ st.nOrderPosOffsets, ∃ entry ∈ st.placed, entry.2 = o
  range : ∀ entry ∈ st.placed, 0 ≤ entry.2 ∧ entry.2 < st.nOrderPosNext
  shifted : ∀ entry ∈ st.placed, entry.1.nOrderPos ≠ -1 → 0 ≤ entry.1.nOrderPos ∧
    entry.2 = entry.1.nOrderPos + st.off entry.1.nOrderPos
  unordered : ∀ entry ∈ st.placed, entry.1.nOrderPos = -1 → entry.2 ∈ st.nOrderPosOffsets

theorem off_nonneg (st : Reordering) (nOrderPos : Int) : 0 ≤ st.off nOrderPos :=
  Int.natCast_nonneg _

/-- The offsets keep the order. -/
theorem off_mono (st : Reordering) (p q : Int) (less : p ≤ q) : st.off p ≤ st.off q := by
  rw [off, off, Int.ofNat_le]
  apply List.countP_mono_left
  intro o _ counted
  have below := of_decide_eq_true counted
  exact decide_eq_true (le_trans below less)

theorem kept_start : start.Kept where
  next := le_refl 0
  offsets o member := by cases member
  range entry member := by cases member
  shifted entry member := by cases member
  unordered entry member := by cases member

/-- An ordered entry so far is below the next position, also in the old numbering. -/
theorem placed_old (st : Reordering) (kept : st.Kept) (entry : TxItem × Int)
    (member : entry ∈ st.placed) (ordered : entry.1.nOrderPos ≠ -1) :
    entry.1.nOrderPos < st.nOrderPosNext := by
  have range := kept.range entry member
  have shifted := kept.shifted entry member ordered
  have more := st.off_nonneg entry.1.nOrderPos
  omega

theorem append_off (st : Reordering) (item : TxItem) (nOrderPos : Int)
    (below : nOrderPos < st.nOrderPosNext) :
    (st.append item).off nOrderPos = st.off nOrderPos := by
  have above : ¬ st.nOrderPosNext ≤ nOrderPos := not_le.mpr below
  simp [off, append, List.countP_append, above]

theorem append_kept (st : Reordering) (item : TxItem) (unordered : item.nOrderPos = -1)
    (kept : st.Kept) : (st.append item).Kept where
  next := by
    have next := kept.next
    show 0 ≤ st.nOrderPosNext + 1
    omega
  offsets o member := by
    rcases List.mem_append.mp member with old | new
    · obtain ⟨entry, there, same⟩ := kept.offsets o old
      exact ⟨entry, List.mem_append_left _ there, same⟩
    · exact ⟨(item, st.nOrderPosNext), List.mem_append_right _ List.mem_cons_self,
        (List.mem_singleton.mp new).symm⟩
  range entry member := by
    show 0 ≤ entry.2 ∧ entry.2 < st.nOrderPosNext + 1
    have next := kept.next
    rcases List.mem_append.mp member with old | new
    · have range := kept.range entry old
      omega
    · rw [List.mem_singleton.mp new]
      omega
  shifted entry member ordered := by
    rcases List.mem_append.mp member with old | new
    · rw [append_off st item _ (placed_old st kept entry old ordered)]
      exact kept.shifted entry old ordered
    · rw [List.mem_singleton.mp new] at ordered
      exact absurd unordered ordered
  unordered entry member fresh := by
    rcases List.mem_append.mp member with old | new
    · exact List.mem_append_left _ (kept.unordered entry old fresh)
    · rw [List.mem_singleton.mp new]
      exact List.mem_append_right _ List.mem_cons_self

theorem shift_kept (st : Reordering) (item : TxItem) (ordered : 0 ≤ item.nOrderPos)
    (kept : st.Kept) : (st.shift item).Kept where
  next := le_trans kept.next (le_max_left _ _)
  offsets o member := by
    obtain ⟨entry, there, same⟩ := kept.offsets o member
    exact ⟨entry, List.mem_append_left _ there, same⟩
  range entry member := by
    show 0 ≤ entry.2 ∧ entry.2 < max st.nOrderPosNext (item.nOrderPos + st.off item.nOrderPos + 1)
    rcases List.mem_append.mp member with old | new
    · have range := kept.range entry old
      omega
    · have more := st.off_nonneg item.nOrderPos
      rw [List.mem_singleton.mp new]
      dsimp only
      omega
  shifted entry member positioned := by
    rcases List.mem_append.mp member with old | new
    · exact kept.shifted entry old positioned
    · rw [List.mem_singleton.mp new]
      exact ⟨ordered, rfl⟩
  unordered entry member fresh := by
    rcases List.mem_append.mp member with old | new
    · exact kept.unordered entry old fresh
    · rw [List.mem_singleton.mp new] at fresh
      dsimp only at fresh
      omega

theorem next_kept (st : Reordering) (item : TxItem) (positioned : item.Positioned)
    (kept : st.Kept) : (st.next item).Kept := by
  rw [next]
  split
  · rename_i unordered
    exact append_kept st item unordered kept
  · rename_i ordered
    exact shift_kept st item (positioned.resolve_left ordered) kept

/-- An addition overflows, a write fails, or the loop goes on with the entry placed; an addition that
does not overflow leaves a position taken as what breaks the condition. -/
theorem loop_cases (db : WalletWrites) (st : Reordering) (item : TxItem) (rest : List TxItem) :
    (st.loop db (item :: rest) = none ∧ ¬ st.Meets item) ∨
      st.loop db (item :: rest) = some .dbLoadFail ∨
      (st.loop db (item :: rest) = (st.next item).loop db rest ∧
        (¬ st.Meets item → item.nOrderPos ≠ -1 ∧
          item.nOrderPos + st.off item.nOrderPos ∈ st.nOrderPosOffsets)) := by
  rw [loop, next, Meets]
  by_cases unordered : item.nOrderPos = -1
  · simp only [if_pos unordered]
    by_cases beyond : st.nOrderPosNext + 1 ≥ int64End
    · exact .inl ⟨if_pos beyond, not_lt.mpr beyond⟩
    · rw [if_neg beyond]
      cases written : db.write item.pair with
      | false => exact .inr (.inl rfl)
      | true => exact .inr (.inr ⟨rfl, fun broken => absurd (not_le.mp beyond) broken⟩)
  · simp only [if_neg unordered]
    by_cases beyond : item.nOrderPos + st.off item.nOrderPos + 1 ≥ int64End
    · exact .inl ⟨if_pos beyond, fun met => not_lt.mpr beyond met.2⟩
    · have taken : ¬ (item.nOrderPos + st.off item.nOrderPos ∉ st.nOrderPosOffsets ∧
          item.nOrderPos + st.off item.nOrderPos + 1 < int64End) → item.nOrderPos ≠ -1 ∧
            item.nOrderPos + st.off item.nOrderPos ∈ st.nOrderPosOffsets := by
        intro broken
        by_contra free
        exact broken ⟨fun member => free ⟨unordered, member⟩, not_le.mp beyond⟩
      rw [if_neg beyond]
      by_cases still : st.off item.nOrderPos = 0
      · exact .inr (.inr ⟨if_pos still, taken⟩)
      · rw [if_neg still]
        cases written : db.write item.pair with
        | false => exact .inr (.inl rfl)
        | true => exact .inr (.inr ⟨rfl, taken⟩)

/-- A loop that ends well has gone on at every entry. -/
theorem loop_next (db : WalletWrites) (st done : Reordering) (item : TxItem) (rest : List TxItem)
    (ran : st.loop db (item :: rest) = some (.dbLoadOk done)) :
    (st.next item).loop db rest = some (.dbLoadOk done) ∧
      (¬ st.Meets item → item.nOrderPos ≠ -1 ∧
        item.nOrderPos + st.off item.nOrderPos ∈ st.nOrderPosOffsets) := by
  rcases loop_cases db st item rest with overflow | failed | goes
  · rw [overflow.1] at ran
    cases ran
  · rw [failed] at ran
    cases ran
  · rw [goes.1] at ran
    exact ⟨ran, goes.2⟩

theorem next_placed (st : Reordering) (item : TxItem) :
    ∃ position, (st.next item).placed = st.placed ++ [(item, position)] := by
  rw [next]
  split
  · exact ⟨st.nOrderPosNext, rfl⟩
  · exact ⟨item.nOrderPos + st.off item.nOrderPos, rfl⟩

/-- The loop only adds entries, in the order in which it meets them. -/
theorem loop_placed (db : WalletWrites) (st done : Reordering) (items : List TxItem)
    (ran : st.loop db items = some (.dbLoadOk done)) :
    ∃ later, done.placed = st.placed ++ later ∧ later.map Prod.fst = items := by
  induction items generalizing st with
  | nil =>
      cases ran
      exact ⟨[], (List.append_nil _).symm, rfl⟩
  | cons item rest ih =>
      obtain ⟨later, split, same⟩ := ih (st.next item) (loop_next db st done item rest ran).1
      obtain ⟨position, placed⟩ := next_placed st item
      refine ⟨(item, position) :: later, ?_, ?_⟩
      · rw [split, placed, List.append_assoc]
        rfl
      · rw [List.map_cons, same]

/-! ## Distinct positions -/

theorem next_nodup (st : Reordering) (item : TxItem) (kept : st.Kept)
    (distinct : (st.placed.map Prod.snd).Nodup)
    (apart : ∀ entry ∈ st.placed, entry.1.Apart item) (met : st.Meets item) : ((st.next item).placed.map Prod.snd).Nodup := by
  have nodup (position : Int) (fresh : ∀ entry ∈ st.placed, entry.2 ≠ position) :
      ((st.placed ++ [(item, position)]).map Prod.snd).Nodup := by
    rw [List.map_append, List.map_singleton]
    apply List.Nodup.append distinct (List.nodup_singleton _)
    intro other before new
    obtain ⟨entry, member, same⟩ := List.mem_map.mp before
    exact fresh entry member (same.trans (List.mem_singleton.mp new))
  rw [Meets] at met
  rw [next]
  split
  · apply nodup
    intro entry member same
    have range := kept.range entry member
    omega
  · rename_i ordered
    rw [if_neg ordered] at met
    apply nodup
    intro entry member same
    by_cases fresh : entry.1.nOrderPos = -1
    · have taken := kept.unordered entry member fresh
      rw [same] at taken
      exact met.1 taken
    · have shifted := (kept.shifted entry member fresh).2
      rcases lt_trichotomy entry.1.nOrderPos item.nOrderPos with before | equal | after
      · have mono := st.off_mono entry.1.nOrderPos item.nOrderPos (le_of_lt before)
        omega
      · exact fresh (apart entry member equal)
      · have mono := st.off_mono item.nOrderPos entry.1.nOrderPos (le_of_lt after)
        omega

theorem kept_strict (done : Reordering) (kept : done.Kept)
    (distinct : (done.placed.map Prod.snd).Nodup) : StrictOrder done where
  distinct := distinct
  nonneg entry member := (kept.range entry member).1
  below entry member := (kept.range entry member).2
  kept a hereA b hereB orderedA orderedB less := by
    have mono := done.off_mono a.1.nOrderPos b.1.nOrderPos (le_of_lt less)
    have shiftedA := (kept.shifted a hereA orderedA).2
    have shiftedB := (kept.shifted b hereB orderedB).2
    omega

/-- A loop whose entries all meet the condition ends in a strict order, unless a write fails. -/
theorem loop_strict (db : WalletWrites) (st : Reordering) (items : List TxItem) (kept : st.Kept)
    (distinct : (st.placed.map Prod.snd).Nodup)
    (apart : (st.placed.map Prod.fst ++ items).Pairwise TxItem.Apart)
    (positioned : ∀ item ∈ items, item.Positioned)
    (succeeds : st.loop db items ≠ some .dbLoadFail) (each : Runs.EachStep next Meets st items) :
    ∃ done, st.loop db items = some (.dbLoadOk done) ∧ StrictOrder done := by
  induction items generalizing st with
  | nil => exact ⟨st, rfl, kept_strict st kept distinct⟩
  | cons item rest ih =>
      rcases loop_cases db st item rest with overflow | failed | goes
      · exact absurd each.1 overflow.2
      · exact absurd failed succeeds
      · have here := positioned item List.mem_cons_self
        have others : ∀ entry ∈ st.placed, entry.1.Apart item := by
          intro entry member
          have pairs := (List.pairwise_append.mp apart).2.2
          exact pairs entry.1 (List.mem_map_of_mem member) item List.mem_cons_self
        obtain ⟨position, placed⟩ := next_placed st item
        rw [goes.1] at succeeds ⊢
        apply ih (st.next item) (next_kept st item here kept)
          (next_nodup st item kept distinct others each.1) _
          (fun other member => positioned other (List.mem_cons_of_mem item member)) succeeds each.2
        rw [placed, List.map_append, List.map_singleton, List.append_assoc]
        exact apart

/-- If the positions are distinct in the end, all entries have met the condition. -/
theorem loop_meets (db : WalletWrites) (st done : Reordering) (items : List TxItem) (kept : st.Kept)
    (positioned : ∀ item ∈ items, item.Positioned)
    (ran : st.loop db items = some (.dbLoadOk done))
    (distinct : (done.placed.map Prod.snd).Nodup) : Runs.EachStep next Meets st items := by
  induction items generalizing st with
  | nil => exact trivial
  | cons item rest ih =>
      have step := loop_next db st done item rest ran
      have here := positioned item List.mem_cons_self
      constructor
      · by_contra broken
        obtain ⟨ordered, taken⟩ := step.2 broken
        obtain ⟨entry, member, same⟩ := kept.offsets _ taken
        obtain ⟨later, split, -⟩ := loop_placed db (st.next item) done rest step.1
        rw [split, next, if_neg ordered, shift, List.map_append, List.map_append] at distinct
        have twice := (List.nodup_append.mp (List.nodup_append.mp distinct).1).2.2
        exact twice entry.2 (List.mem_map_of_mem member) _ List.mem_cons_self same
      · exact ih (st.next item) (next_kept st item here kept)
          (fun other member => positioned other (List.mem_cons_of_mem item member)) step.1

end Reordering

/-! ## All entries -/

theorem txByTime_perm (mapWallet acentries : List TxItem) :
    (txByTime mapWallet acentries).Perm (mapWallet ++ acentries) := by
  have inserted (items : List TxItem) (entries : List (Int × TxItem)) :
      (items.foldl (fun txByTime item => Multimap.insert item.nTime item txByTime) entries).Perm
        (items.map (fun item => (item.nTime, item)) ++ entries) := by
    induction items generalizing entries with
    | nil => exact List.Perm.refl _
    | cons item rest ih =>
        have first := Multimap.insert_perm item.nTime item entries
        exact (ih _).trans ((first.append_left _).trans List.perm_middle)
  have plain : (mapWallet ++ acentries).map (Prod.snd ∘ fun item => (item.nTime, item)) =
      mapWallet ++ acentries := List.map_id' _
  have all := (inserted (mapWallet ++ acentries) []).map Prod.snd
  rwa [List.append_nil, List.map_map, plain] at all

end RoiCoin
