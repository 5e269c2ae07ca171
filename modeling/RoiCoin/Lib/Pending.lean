import RoiCoin.Lib.Ledger
import Mathlib.Algebra.Order.BigOperators.Group.List
import Mathlib.Algebra.Order.Ring.Int

/-! Pending entries, looked up on top of the coins without spending any.

`lookup start pending` shows the coins; the entry at the head comes first. -/

namespace Ledger

universe u v

variable {ι : Type u} {ν : Type v}

/-! ## What inputs see -/

/-- Every coin that the inputs see stays; a missing one may appear. -/
def Keeps (coins coins' : Coins ι ν) (inputs : List (ι × Nat)) : Prop :=
  ∀ out ∈ inputs, ∀ coin, coins out.1 out.2 = some coin → coins' out.1 out.2 = some coin

theorem keeps_trans (first second third : Coins ι ν) (inputs : List (ι × Nat))
    (one : Keeps first second inputs) (other : Keeps second third inputs) :
    Keeps first third inputs := by
  intro out member coin present
  exact other out member coin (one out member coin present)

/-- The value of the inputs; a missing coin has none. -/
def total (value : ν → Int) (coins : Coins ι ν) (inputs : List (ι × Nat)) : Int :=
  (inputs.map fun out => ((coins out.1 out.2).map value).getD 0).sum

theorem total_mono (value : ν → Int) (coins coins' : Coins ι ν) (inputs : List (ι × Nat))
    (nonneg : ∀ id n coin, coins' id n = some coin → 0 ≤ value coin)
    (keeps : Keeps coins coins' inputs) : total value coins inputs ≤ total value coins' inputs := by
  apply List.sum_le_sum
  intro out member
  cases before : coins out.1 out.2 with
  | some coin => rw [keeps out member coin before]
  | none =>
      rw [Option.map_none, Option.getD_none]
      cases after : coins' out.1 out.2 with
      | none => exact Int.le_refl 0
      | some coin => exact nonneg out.1 out.2 coin after

/-- Equal values for the coins that the inputs see. -/
theorem total_congr (value value' : ν → Int) (coins : Coins ι ν) (inputs : List (ι × Nat))
    (same : ∀ out ∈ inputs, ∀ coin, coins out.1 out.2 = some coin → value coin = value' coin) :
    total value coins inputs = total value' coins inputs := by
  rw [total, total]
  congr 1
  apply List.map_congr_left
  intro out member
  cases seen : coins out.1 out.2 with
  | none => rfl
  | some coin => exact same out member coin seen

/-! ## Lookups -/

/-- Every coin satisfies the predicate. -/
def Each (good : ν → Prop) (coins : Coins ι ν) : Prop :=
  ∀ id n coin, coins id n = some coin → good coin

variable [DecidableEq ι]

theorem each_spendAll (good : ν → Prop) (coins : Coins ι ν) (inputs : List (ι × Nat))
    (each : Each good coins) : Each good (spendAll coins inputs) := by
  intro id n coin present
  rw [spendAll] at present
  split at present
  · cases present
  · exact each id n coin present

theorem each_create (good : ν → Prop) (coins : Coins ι ν) (entry : Entry ι ν)
    (each : Each good coins) (created : ∀ n coin, entry.outputs n = some coin → good coin) :
    Each good (create coins entry) := by
  intro id n coin present
  rw [create] at present
  split at present
  · exact created n coin present
  · exact each id n coin present

theorem each_apply (good : ν → Prop) (coins : Coins ι ν) (entry : Entry ι ν)
    (each : Each good coins) (created : ∀ n coin, entry.outputs n = some coin → good coin) :
    Each good (apply coins entry) :=
  each_create good _ entry (each_spendAll good coins entry.inputs each) created

theorem each_lookup (good : ν → Prop) (start : Coins ι ν) (pending : List (Entry ι ν))
    (each : Each good start)
    (created : ∀ entry ∈ pending, ∀ n coin, entry.outputs n = some coin → good coin) :
    Each good (lookup start pending) := by
  induction pending with
  | nil => exact each
  | cons entry pending ih =>
      rw [List.forall_mem_cons] at created
      exact each_create good _ entry (ih created.2) created.1

theorem lookup_notMem (start : Coins ι ν) (pending : List (Entry ι ν)) (id : ι) (n : Nat)
    (other : id ∉ pending.map Entry.id) : lookup start pending id n = start id n := by
  induction pending with
  | nil => rfl
  | cons entry pending ih =>
      rw [List.map_cons, List.mem_cons, not_or] at other
      rw [lookup, create, if_neg other.1]
      exact ih other.2

/-- The coins of a pending entry do not depend on what is below. -/
theorem lookup_mem (start start' : Coins ι ν) (pending : List (Entry ι ν)) (id : ι) (n : Nat)
    (member : id ∈ pending.map Entry.id) :
    lookup start pending id n = lookup start' pending id n := by
  induction pending with
  | nil => cases member
  | cons entry pending ih =>
      rw [lookup, lookup, create, create]
      by_cases here : id = entry.id
      · rw [if_pos here, if_pos here]
      · rw [if_neg here, if_neg here]
        rw [List.map_cons, List.mem_cons] at member
        exact ih (member.resolve_left here)

/-- Pending entries show what is below them only outside their ids. -/
theorem lookup_below (start start' : Coins ι ν) (pending : List (Entry ι ν)) (out : ι × Nat)
    (coin : ν)
    (below : out.1 ∉ pending.map Entry.id → start out.1 out.2 = some coin →
      start' out.1 out.2 = some coin)
    (seen : lookup start pending out.1 out.2 = some coin) :
    lookup start' pending out.1 out.2 = some coin := by
  by_cases member : out.1 ∈ pending.map Entry.id
  · rwa [lookup_mem start' start pending _ _ member]
  · rw [lookup_notMem _ _ _ _ member] at seen ⊢
    exact below member seen

/-- An entry with a new id is seen alike below the pending entries and among them. -/
theorem lookup_create (start : Coins ι ν) (pending : List (Entry ι ν)) (entry : Entry ι ν)
    (new : entry.id ∉ pending.map Entry.id) :
    lookup (create start entry) pending = create (lookup start pending) entry := by
  induction pending with
  | nil => rfl
  | cons first pending ih =>
      rw [List.map_cons, List.mem_cons, not_or] at new
      rw [lookup, lookup, ih new.2]
      funext id n
      simp only [create]
      by_cases here : id = first.id
      · rw [if_pos here, if_neg (here ▸ Ne.symm new.1), if_pos here]
      · rw [if_neg here, if_neg here]

/-- Entries with one id are one entry. -/
def Distinct (pending : List (Entry ι ν)) : Prop :=
  ∀ first ∈ pending, ∀ second ∈ pending, first.id = second.id → first = second

theorem lookup_entry (start : Coins ι ν) (pending : List (Entry ι ν)) (entry : Entry ι ν)
    (distinct : Distinct pending) (member : entry ∈ pending) (n : Nat) :
    lookup start pending entry.id n = entry.outputs n := by
  induction pending with
  | nil => cases member
  | cons first pending ih =>
      rw [lookup, create]
      split
      · rename_i same
        rw [distinct first List.mem_cons_self entry member same.symm]
      · rename_i other
        have later : entry ∈ pending := by
          rcases List.mem_cons.mp member with here | later
          · exact absurd (congrArg Entry.id here) other
          · exact later
        apply ih _ later
        intro one among another among'
        exact distinct one (List.mem_cons_of_mem _ among) another (List.mem_cons_of_mem _ among')

/-- A coin that no entry spends is found by its newest creator. -/
theorem state_unspent (start : Coins ι ν) (history : List (Entry ι ν)) (out : ι × Nat)
    (unspent : ∀ entry ∈ history, out ∉ entry.inputs) :
    state start history out.1 out.2 = lookup start history out.1 out.2 := by
  induction history with
  | nil => rfl
  | cons entry past ih =>
      rw [List.forall_mem_cons] at unspent
      rw [state, apply, lookup, create, create, spendAll_of_notMem _ _ _ _ unspent.1,
        ih unspent.2]

/-! ## Evictions -/

/-- Entries are removed so that no remaining entry spends a coin of a removed one, the freed ids
excepted. -/
structure Evicts (freed : ι → Prop) (pending pending' : List (Entry ι ν)) : Prop where
  kept : ∀ entry ∈ pending', entry ∈ pending
  childless : ∀ gone ∈ pending, gone.id ∉ pending'.map Entry.id → ¬ freed gone.id →
    ∀ entry ∈ pending', ∀ out ∈ entry.inputs, out.1 = gone.id → gone.outputs out.2 = none

/-- What a remaining entry sees outside the freed ids, from a coin below that stays. -/
theorem lookup_evicts (freed : ι → Prop) (start start' : Coins ι ν)
    (pending pending' : List (Entry ι ν)) (distinct : Distinct pending)
    (evicts : Evicts freed pending pending') (entry : Entry ι ν) (remains : entry ∈ pending')
    (out : ι × Nat) (input : out ∈ entry.inputs) (coin : ν) (owned : ¬ freed out.1)
    (below : out.1 ∉ pending.map Entry.id → start out.1 out.2 = some coin →
      start' out.1 out.2 = some coin)
    (seen : lookup start pending out.1 out.2 = some coin) :
    lookup start' pending' out.1 out.2 = some coin := by
  have distinct' : Distinct pending' := fun first among second among' =>
    distinct first (evicts.kept first among) second (evicts.kept second among')
  by_cases member : out.1 ∈ pending.map Entry.id
  · obtain ⟨creator, among, same⟩ := List.mem_map.mp member
    rw [← same, lookup_entry start pending creator distinct among] at seen
    by_cases stays : creator.id ∈ pending'.map Entry.id
    · obtain ⟨again, among', same'⟩ := List.mem_map.mp stays
      have equal := distinct again (evicts.kept again among') creator among same'
      rw [equal] at among'
      rw [← same, lookup_entry start' pending' creator distinct' among', seen]
    · have gone := evicts.childless creator among stays (same.symm ▸ owned) entry remains out input
        same.symm
      rw [gone] at seen
      cases seen
  · have later : out.1 ∉ pending'.map Entry.id := by
      intro there
      obtain ⟨again, among', same'⟩ := List.mem_map.mp there
      exact member (List.mem_map.mpr ⟨again, evicts.kept again among', same'⟩)
    rw [lookup_notMem start pending _ _ member] at seen
    rw [lookup_notMem start' pending' _ _ later]
    exact below member seen

end Ledger
