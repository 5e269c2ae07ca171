import Mathlib.Data.List.Basic
import Mathlib.Logic.Function.Basic

/-! Files that are appended to, and when their records are on stable storage. -/

universe u

/-- The records of a file, and those of them appended since the file was last synced. -/
structure Journal (α : Type u) where
  written : List α
  pending : List α
  deriving DecidableEq, Repr

namespace Journal

variable {α : Type u}

def empty : Journal α := ⟨[], []⟩

def append (file : Journal α) (record : α) : Journal α :=
  ⟨record :: file.written, record :: file.pending⟩

/-- The file already held the record. -/
def relist (file : Journal α) (record : α) : Journal α :=
  { file with written := record :: file.written }

def sync (file : Journal α) : Journal α := { file with pending := [] }

/-- The record was written, and nothing of it after the last sync. -/
def Durable (file : Journal α) (record : α) : Prop :=
  record ∈ file.written ∧ record ∉ file.pending

instance [DecidableEq α] (file : Journal α) (record : α) : Decidable (file.Durable record) :=
  inferInstanceAs (Decidable (_ ∧ _))

/-- Nothing waits for a sync. -/
def Settled (file : Journal α) : Prop := file.pending = []

theorem settled_sync (file : Journal α) : file.sync.Settled := rfl

@[simp] theorem written_sync (file : Journal α) : file.sync.written = file.written := rfl

theorem durable_settled (file : Journal α) (record : α) (settled : file.Settled)
    (member : record ∈ file.written) : file.Durable record := by
  refine ⟨member, ?_⟩
  rw [settled]
  exact List.not_mem_nil

theorem mem_append_self (file : Journal α) (record : α) :
    record ∈ (file.append record).written := List.mem_cons_self

theorem mem_append (file : Journal α) (record other : α) (member : other ∈ file.written) :
    other ∈ (file.append record).written := List.mem_cons_of_mem _ member

theorem mem_relist_self (file : Journal α) (record : α) :
    record ∈ (file.relist record).written := List.mem_cons_self

theorem mem_relist (file : Journal α) (record other : α) (member : other ∈ file.written) :
    other ∈ (file.relist record).written := List.mem_cons_of_mem _ member

/-! ## Files by number -/

variable (files : Nat → Journal α) (n : Nat) (file : Journal α)

theorem written_update (grows : ∀ record ∈ (files n).written, record ∈ file.written)
    (record : α) (m : Nat) (member : record ∈ (files m).written) :
    record ∈ (Function.update files n file m).written := by
  rw [Function.update_apply]
  split_ifs with here
  · rw [here] at member
    exact grows record member
  · exact member

theorem settled_update (m : Nat) (settled : (files m).Settled) (last : m = n → file.Settled) :
    (Function.update files n file m).Settled := by
  rw [Function.update_apply]
  split_ifs with here
  · exact last here
  · exact settled

end Journal
