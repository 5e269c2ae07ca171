import Mathlib.Data.List.Basic

/-! An index from keys to the owners that have them, kept beside the table of the owners.

A key without owners is not in the index. -/

namespace InverseIndex

open Std

universe u v

section Index

variable {K : Type u} {O : Type v} {cmpKey : K → K → Ordering} {cmpOwner : O → O → Ordering}

/-- The owners of every key. -/
abbrev Index (K : Type u) (O : Type v) (cmpKey : K → K → Ordering)
    (cmpOwner : O → O → Ordering) : Type (max u v) :=
  TreeMap K (TreeSet O cmpOwner) cmpKey

/-- `index[key].insert(owner)`, which makes the set of a key that has none. -/
def link (index : Index K O cmpKey cmpOwner) (owner : O) (key : K) :
    Index K O cmpKey cmpOwner :=
  index.insert key ((index.getD key ∅).insert owner)

/-- Take an owner out of the set of a key; a set that gets empty goes with its key. -/
def unlink (index : Index K O cmpKey cmpOwner) (owner : O) (key : K) :
    Index K O cmpKey cmpOwner :=
  match index[key]? with
  | none => index
  | some owners =>
      if (owners.erase owner).isEmpty then index.erase key
      else index.insert key (owners.erase owner)

def linkAll (index : Index K O cmpKey cmpOwner) (owner : O) (keys : List K) :
    Index K O cmpKey cmpOwner :=
  keys.foldl (fun index key => link index owner key) index

def unlinkAll (index : Index K O cmpKey cmpOwner) (owner : O) (keys : List K) :
    Index K O cmpKey cmpOwner :=
  keys.foldl (fun index key => unlink index owner key) index

/-- The owner is in the set of the key. -/
def Linked (index : Index K O cmpKey cmpOwner) (owner : O) (key : K) : Prop :=
  owner ∈ index.getD key ∅

/-- No set is empty, and the links are those of a relation. -/
structure Inverse (index : Index K O cmpKey cmpOwner) (has : O → K → Prop) : Prop where
  filled : ∀ (key : K) (owners : TreeSet O cmpOwner), index[key]? = some owners →
    owners.isEmpty = false
  linked : ∀ owner key, Linked index owner key ↔ has owner key

variable [TransCmp cmpKey]

theorem linked_empty (owner : O) (key : K) :
    ¬ Linked (∅ : Index K O cmpKey cmpOwner) owner key := by
  simp [Linked]

theorem linked_some (index : Index K O cmpKey cmpOwner) (owner : O) (key : K)
    (owners : TreeSet O cmpOwner) (found : index[key]? = some owners) :
    Linked index owner key ↔ owner ∈ owners := by
  rw [Linked, TreeMap.getD_eq_getD_getElem?, found, Option.getD_some]

theorem linked_none (index : Index K O cmpKey cmpOwner) (owner : O) (key : K)
    (missing : index[key]? = none) : ¬ Linked index owner key := by
  rw [Linked, TreeMap.getD_eq_getD_getElem?, missing]
  simp

theorem inverse_empty (has : O → K → Prop) (none : ∀ owner key, ¬ has owner key) :
    Inverse (∅ : Index K O cmpKey cmpOwner) has := by
  constructor
  · intro key owners found
    simp at found
  · intro owner key
    exact iff_of_false (linked_empty owner key) (none owner key)

/-- The index has a key exactly if the key has an owner. -/
theorem contains_iff [TransCmp cmpOwner] (index : Index K O cmpKey cmpOwner) (has : O → K → Prop)
    (inverse : Inverse index has) (key : K) :
    index.contains key = true ↔ ∃ owner, has owner key := by
  rw [← TreeMap.isSome_getElem?_eq_contains]
  cases found : index[key]? with
  | none =>
      refine iff_of_false Bool.false_ne_true fun given => ?_
      obtain ⟨owner, own⟩ := given
      exact linked_none index owner key found ((inverse.linked owner key).mpr own)
  | some owners =>
      refine iff_of_true rfl ?_
      obtain ⟨owner, member⟩ :=
        TreeSet.isEmpty_eq_false_iff_exists_mem.mp (inverse.filled key owners found)
      exact ⟨owner, (inverse.linked owner key).mp
        ((linked_some index owner key owners found).mpr member)⟩

variable [LawfulEqCmp cmpKey] [TransCmp cmpOwner] [LawfulEqCmp cmpOwner]

/-! ## One key -/

theorem linked_link (index : Index K O cmpKey cmpOwner) (owner o : O) (key k : K) :
    Linked (link index owner key) o k ↔ Linked index o k ∨ (o = owner ∧ k = key) := by
  rw [Linked, link, TreeMap.getD_insert]
  by_cases here : key = k
  · subst here
    simp only [LawfulEqCmp.compare_eq_iff_eq, if_true, TreeSet.mem_insert, and_true, Linked]
    constructor
    · intro member
      rcases member with new | old
      · exact .inr new.symm
      · exact .inl old
    · intro member
      rcases member with old | new
      · exact .inr old
      · exact .inl new.symm
  · simp [here, Ne.symm here, Linked]

theorem inverse_link (index : Index K O cmpKey cmpOwner) (owner : O) (key : K)
    (has : O → K → Prop) (inverse : Inverse index has) :
    Inverse (link index owner key) fun o k => has o k ∨ (o = owner ∧ k = key) := by
  constructor
  · intro k owners found
    rw [link, TreeMap.getElem?_insert] at found
    split at found
    · cases found
      exact TreeSet.isEmpty_insert
    · exact inverse.filled k owners found
  · intro o k
    rw [linked_link, inverse.linked]

theorem linked_unlink (index : Index K O cmpKey cmpOwner) (owner o : O) (key k : K) :
    Linked (unlink index owner key) o k ↔ Linked index o k ∧ ¬ (o = owner ∧ k = key) := by
  rw [unlink]
  cases found : index[key]? with
  | none =>
      have missing := linked_none index o key found
      constructor
      · intro linked
        refine ⟨linked, fun here => ?_⟩
        rw [here.2] at linked
        exact missing linked
      · exact fun given => given.1
  | some owners =>
      have inside := linked_some index o key owners found
      have erased : o ∈ owners.erase owner ↔ owner ≠ o ∧ o ∈ owners := by
        rw [TreeSet.mem_erase, ne_eq, LawfulEqCmp.compare_eq_iff_eq]
      dsimp only
      split
      · rename_i empty
        have none := TreeSet.isEmpty_iff_forall_not_mem.mp empty o
        rw [erased] at none
        rw [Linked, TreeMap.getD_erase]
        by_cases here : key = k
        · subst here
          have nothing : o ∉ (∅ : TreeSet O cmpOwner) := by simp
          simp only [LawfulEqCmp.compare_eq_iff_eq, if_true]
          rw [inside]
          tauto
        · simp [here, Ne.symm here, Linked]
      · rw [Linked, TreeMap.getD_insert]
        by_cases here : key = k
        · subst here
          simp only [LawfulEqCmp.compare_eq_iff_eq, if_true]
          rw [erased, inside]
          tauto
        · simp [here, Ne.symm here, Linked]

theorem inverse_unlink (index : Index K O cmpKey cmpOwner) (owner : O) (key : K)
    (has : O → K → Prop) (inverse : Inverse index has) :
    Inverse (unlink index owner key) fun o k => has o k ∧ ¬ (o = owner ∧ k = key) := by
  constructor
  · intro k owners found
    rw [unlink] at found
    cases before : index[key]? with
    | none =>
        rw [before] at found
        exact inverse.filled k owners found
    | some old =>
        rw [before] at found
        dsimp only at found
        split at found
        · rw [TreeMap.getElem?_erase] at found
          split at found
          · cases found
          · exact inverse.filled k owners found
        · rename_i some
          rw [TreeMap.getElem?_insert] at found
          split at found
          · cases found
            rwa [Bool.not_eq_true] at some
          · exact inverse.filled k owners found
  · intro o k
    rw [linked_unlink, inverse.linked]

/-! ## All keys of an owner -/

theorem inverse_linkAll (index : Index K O cmpKey cmpOwner) (owner : O) (keys : List K)
    (has has' : O → K → Prop) (inverse : Inverse index has)
    (grows : ∀ o k, has' o k ↔ has o k ∨ (o = owner ∧ k ∈ keys)) :
    Inverse (linkAll index owner keys) has' := by
  induction keys generalizing index has with
  | nil =>
      refine ⟨inverse.filled, fun o k => ?_⟩
      rw [linkAll, List.foldl_nil, inverse.linked, grows]
      simp
  | cons key keys ih =>
      apply ih (link index owner key) _ (inverse_link index owner key has inverse)
      intro o k
      rw [grows, List.mem_cons]
      tauto

/-- A key that occurs again is not found any more, or does not have the owner. -/
theorem inverse_unlinkAll (index : Index K O cmpKey cmpOwner) (owner : O) (keys : List K)
    (has has' : O → K → Prop) (inverse : Inverse index has)
    (shrinks : ∀ o k, has' o k ↔ has o k ∧ ¬ (o = owner ∧ k ∈ keys)) :
    Inverse (unlinkAll index owner keys) has' := by
  induction keys generalizing index has with
  | nil =>
      refine ⟨inverse.filled, fun o k => ?_⟩
      rw [unlinkAll, List.foldl_nil, inverse.linked, shrinks]
      simp
  | cons key keys ih =>
      apply ih (unlink index owner key) _ (inverse_unlink index owner key has inverse)
      intro o k
      rw [shrinks, List.mem_cons]
      tauto

end Index

end InverseIndex
