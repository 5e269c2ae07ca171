import Mathlib.Data.List.Basic
import Mathlib.Data.List.Nodup

/-! Unspent coins under entries that spend some coins and create others.

A coin is named by the id of the entry that created it and a position. Histories are lists of
entries with the newest first; the position of an entry in a history is the number of entries
before it. Ids may repeat. -/

namespace Ledger

universe u v

variable {ι : Type u} {ν : Type v}

structure Entry (ι : Type u) (ν : Type v) where
  id : ι
  inputs : List (ι × Nat)
  outputs : Nat → Option ν

abbrev Coins (ι : Type u) (ν : Type v) := ι → Nat → Option ν

/-! ## Creations -/

/-- The entry at a position creates a coin. -/
def Creates : List (Entry ι ν) → Nat → ι → Nat → ν → Prop
  | [], _, _, _, _ => False
  | entry :: past, k, id, n, coin =>
      (k = past.length ∧ entry.id = id ∧ entry.outputs n = some coin) ∨ Creates past k id n coin

theorem creates_before (history : List (Entry ι ν)) (k : Nat) (id : ι) (n : Nat) (coin : ν)
    (made : Creates history k id n coin) : k < history.length := by
  induction history with
  | nil => exact made.elim
  | cons entry past ih =>
      rcases made with ⟨here, -⟩ | made
      · rw [here, List.length_cons]
        exact Nat.lt_succ_self _
      · exact Nat.lt_succ_of_lt (ih made)

/-- Only one entry stands at a position. -/
theorem creates_id (history : List (Entry ι ν)) (k : Nat) (id id' : ι) (n n' : Nat) (coin coin' : ν)
    (made : Creates history k id n coin) (made' : Creates history k id' n' coin') : id = id' := by
  induction history with
  | nil => exact made.elim
  | cons entry past ih =>
      rcases made with ⟨here, same, -⟩ | made
      · rcases made' with ⟨-, same', -⟩ | made'
        · rw [← same, same']
        · exact absurd (creates_before past k id' n' coin' made') (by omega)
      · rcases made' with ⟨here', -⟩ | made'
        · exact absurd (creates_before past k id n coin made) (by omega)
        · exact ih made made'

/-! ## The state after a history -/

variable [DecidableEq ι]

def spendAll (coins : Coins ι ν) (inputs : List (ι × Nat)) : Coins ι ν :=
  fun id n => if (id, n) ∈ inputs then none else coins id n

def create (coins : Coins ι ν) (entry : Entry ι ν) : Coins ι ν :=
  fun id n => if id = entry.id then entry.outputs n else coins id n

def apply (coins : Coins ι ν) (entry : Entry ι ν) : Coins ι ν :=
  create (spendAll coins entry.inputs) entry

def Vacant (coins : Coins ι ν) (id : ι) : Prop := ∀ n, coins id n = none

/-- The coins after a history on top of a starting set. -/
def state (start : Coins ι ν) : List (Entry ι ν) → Coins ι ν
  | [] => start
  | entry :: past => apply (state start past) entry

/-- An entry that spends distinct coins that are there. -/
structure Spends (coins : Coins ι ν) (entry : Entry ι ν) : Prop where
  distinct : entry.inputs.Nodup
  present : ∀ out ∈ entry.inputs, (coins out.1 out.2).isSome

/-- An entry that in addition overwrites no unspent coin. -/
structure Applies (coins : Coins ι ν) (entry : Entry ι ν) : Prop extends Spends coins entry where
  vacant : Vacant (spendAll coins entry.inputs) entry.id

def Valid (start : Coins ι ν) : List (Entry ι ν) → Prop
  | [] => True
  | entry :: past => Applies (state start past) entry ∧ Valid start past

theorem state_append (start : Coins ι ν) (batch past : List (Entry ι ν)) :
    state start (batch ++ past) = state (state start past) batch := by
  induction batch with
  | nil => rfl
  | cons entry batch ih => rw [List.cons_append, state, state, ih]

theorem valid_append (start : Coins ι ν) (batch past : List (Entry ι ν))
    (valid : Valid (state start past) batch) (before : Valid start past) :
    Valid start (batch ++ past) := by
  induction batch with
  | nil => exact before
  | cons entry batch ih =>
      rw [List.cons_append, Valid, state_append]
      exact ⟨valid.1, ih valid.2⟩

/-! ## One entry -/

theorem apply_id (coins : Coins ι ν) (entry : Entry ι ν) (n : Nat) :
    apply coins entry entry.id n = entry.outputs n := by
  rw [apply, create, if_pos rfl]

theorem apply_other (coins : Coins ι ν) (entry : Entry ι ν) (id : ι) (n : Nat)
    (other : id ≠ entry.id) : apply coins entry id n = spendAll coins entry.inputs id n := by
  rw [apply, create, if_neg other]

theorem spendAll_of_mem (coins : Coins ι ν) (inputs : List (ι × Nat)) (id : ι) (n : Nat)
    (member : (id, n) ∈ inputs) : spendAll coins inputs id n = none := by
  rw [spendAll, if_pos member]

theorem spendAll_of_notMem (coins : Coins ι ν) (inputs : List (ι × Nat)) (id : ι) (n : Nat)
    (other : (id, n) ∉ inputs) : spendAll coins inputs id n = coins id n := by
  rw [spendAll, if_neg other]

theorem spendAll_nil (coins : Coins ι ν) : spendAll coins [] = coins := by
  funext id n
  exact spendAll_of_notMem coins [] id n List.not_mem_nil

theorem spendAll_cons (coins : Coins ι ν) (out : ι × Nat) (inputs : List (ι × Nat)) :
    spendAll (spendAll coins [out]) inputs = spendAll coins (out :: inputs) := by
  funext id n
  simp only [spendAll, List.mem_cons, List.not_mem_nil, or_false]
  by_cases later : (id, n) ∈ inputs
  · rw [if_pos later, if_pos (.inr later)]
  · rw [if_neg later]
    by_cases here : (id, n) = out
    · rw [if_pos here, if_pos (.inl here)]
    · rw [if_neg here, if_neg (not_or.mpr ⟨here, later⟩)]

/-! ## Sources

The source of an input is the newest earlier entry that created a coin of that name. -/

def source : List (Entry ι ν) → ι × Nat → Option Nat
  | [], _ => none
  | entry :: past, out =>
      if entry.id = out.1 ∧ (entry.outputs out.2).isSome then some past.length
      else source past out

/-- The coins a history spends, each by the position of its source and its own position. -/
def spent : List (Entry ι ν) → List (Option Nat × Nat)
  | [] => []
  | entry :: past => entry.inputs.map (fun out => (source past out, out.2)) ++ spent past

theorem source_before (history : List (Entry ι ν)) (out : ι × Nat) (k : Nat)
    (found : source history out = some k) : k < history.length := by
  induction history with
  | nil => cases found
  | cons entry past ih =>
      rw [source] at found
      split at found
      · cases found
        exact Nat.lt_succ_self _
      · exact Nat.lt_succ_of_lt (ih found)

theorem source_creates (history : List (Entry ι ν)) (out : ι × Nat) (k : Nat)
    (found : source history out = some k) : ∃ coin, Creates history k out.1 out.2 coin := by
  induction history with
  | nil => cases found
  | cons entry past ih =>
      rw [source] at found
      split at found
      · rename_i here
        obtain ⟨coin, made⟩ := Option.isSome_iff_exists.mp here.2
        cases found
        exact ⟨coin, .inl ⟨rfl, here.1, made⟩⟩
      · obtain ⟨coin, made⟩ := ih found
        exact ⟨coin, .inr made⟩

/-- Coins with one source have one name. -/
theorem source_id (history : List (Entry ι ν)) (out out' : ι × Nat) (k : Nat)
    (found : source history out = some k) (found' : source history out' = some k) :
    out.1 = out'.1 := by
  obtain ⟨coin, made⟩ := source_creates history out k found
  obtain ⟨coin', made'⟩ := source_creates history out' k found'
  exact creates_id history k _ _ _ _ coin coin' made made'

theorem spent_before (history : List (Entry ι ν)) (k n : Nat)
    (member : (some k, n) ∈ spent history) : k < history.length := by
  induction history with
  | nil => cases member
  | cons entry past ih =>
      rw [spent, List.mem_append, List.mem_map] at member
      rcases member with ⟨out, -, same⟩ | member
      · exact Nat.lt_succ_of_lt (source_before past out k (Prod.mk.inj same).1)
      · exact Nat.lt_succ_of_lt (ih member)

/-- In a valid history from nothing a coin is unspent exactly when its newest source created it
and no entry has spent that coin. -/
theorem unspent_source (history : List (Entry ι ν)) (valid : Valid (fun _ _ => none) history)
    (id : ι) (n : Nat) (coin : ν) :
    state (fun _ _ => none) history id n = some coin ↔
      ∃ k, source history (id, n) = some k ∧ Creates history k id n coin ∧
        (some k, n) ∉ spent history := by
  induction history generalizing id n coin with
  | nil => simp [state, source]
  | cons entry past ih =>
      obtain ⟨applies, validPast⟩ := valid
      have earlier := ih validPast
      by_cases created : entry.id = id ∧ (entry.outputs n).isSome
      · obtain ⟨rfl, made⟩ := created
        obtain ⟨value, made⟩ := Option.isSome_iff_exists.mp made
        have newest : source (entry :: past) (entry.id, n) = some past.length := by
          rw [source, if_pos ⟨rfl, by rw [made]; rfl⟩]
        have fresh : (some past.length, n) ∉ spent (entry :: past) := by
          intro member
          rw [spent, List.mem_append, List.mem_map] at member
          rcases member with ⟨out, -, same⟩ | member
          · exact Nat.lt_irrefl _ (source_before past out _ (Prod.mk.inj same).1)
          · exact Nat.lt_irrefl _ (spent_before past _ n member)
        rw [state, apply_id, made]
        constructor
        · intro same
          exact ⟨past.length, newest, .inl ⟨rfl, rfl, by rw [made, same]⟩, fresh⟩
        · rintro ⟨k, found, made', -⟩
          rw [newest, Option.some.injEq] at found
          rcases made' with ⟨-, -, value'⟩ | made'
          · rw [← made, value']
          · exact absurd (creates_before past k _ n coin made') (by omega)
      · have older : source (entry :: past) (id, n) = source past (id, n) := by
          rw [source, if_neg created]
        have creates : ∀ k, Creates (entry :: past) k id n coin ↔ Creates past k id n coin := by
          intro k
          refine ⟨fun made => ?_, .inr⟩
          rcases made with ⟨-, same, value⟩ | made
          · exact absurd ⟨same, by rw [value]; rfl⟩ created
          · exact made
        -- the coin survives unless the entry spends it
        have survives : state (fun _ _ => none) (entry :: past) id n = some coin ↔
            state (fun _ _ => none) past id n = some coin ∧ (id, n) ∉ entry.inputs := by
          by_cases same : id = entry.id
          · subst same
            have none_here : entry.outputs n = none := by
              rw [← Option.not_isSome_iff_eq_none]
              exact fun some_here => created ⟨rfl, some_here⟩
            have vacant := applies.vacant n
            rw [state, apply_id, none_here]
            refine ⟨fun impossible => (nomatch impossible), ?_⟩
            rintro ⟨present, unspent⟩
            rw [spendAll_of_notMem _ _ _ _ unspent, present] at vacant
            exact vacant.symm
          · rw [state, apply_other _ _ _ _ same]
            by_cases member : (id, n) ∈ entry.inputs
            · rw [spendAll_of_mem _ _ _ _ member]
              exact ⟨fun impossible => (nomatch impossible), fun both => absurd member both.2⟩
            · rw [spendAll_of_notMem _ _ _ _ member]
              exact ⟨fun present => ⟨present, member⟩, And.left⟩
        rw [survives, earlier, older]
        constructor
        · rintro ⟨⟨k, found, made, unspent⟩, unused⟩
          refine ⟨k, found, (creates k).mpr made, ?_⟩
          rw [spent, List.mem_append, List.mem_map, not_or]
          refine ⟨?_, unspent⟩
          rintro ⟨out, member, same⟩
          -- an input with the same source has the same name, by what the source created
          obtain ⟨sourceSame, position⟩ := Prod.mk.inj same
          have name := source_id past out (id, n) k sourceSame found
          have equal : out = (id, n) := Prod.ext name position
          exact unused (equal ▸ member)
        · rintro ⟨k, found, made, unspent⟩
          rw [spent, List.mem_append, List.mem_map, not_or] at unspent
          refine ⟨⟨k, found, (creates k).mp made, unspent.2⟩, ?_⟩
          intro member
          exact unspent.1 ⟨(id, n), member, by rw [found]⟩

/-- A creation that is not spent is the newest of its name. -/
theorem creates_source (history : List (Entry ι ν)) (valid : Valid (fun _ _ => none) history)
    (k : Nat) (id : ι) (n : Nat) (coin : ν) (made : Creates history k id n coin)
    (unspent : (some k, n) ∉ spent history) : source history (id, n) = some k := by
  induction history with
  | nil => exact made.elim
  | cons entry past ih =>
      rcases made with ⟨here, same, value⟩ | made
      · rw [source, if_pos ⟨same, by rw [value]; rfl⟩, here]
      · rw [spent, List.mem_append, not_or] at unspent
        have found := ih valid.2 made unspent.2
        by_cases created : entry.id = id ∧ (entry.outputs n).isSome
        · -- the new creation would overwrite the old coin
          obtain ⟨rfl, -⟩ := created
          have kept := (unspent_source past valid.2 entry.id n coin).mpr ⟨k, found, made, unspent.2⟩
          have unused : (entry.id, n) ∉ entry.inputs := by
            intro member
            exact unspent.1 (List.mem_map.mpr ⟨(entry.id, n), member, by rw [found]⟩)
          have vacant := valid.1.vacant n
          rw [spendAll_of_notMem _ _ _ _ unused, kept] at vacant
          cases vacant
        · rw [source, if_neg created]
          exact found

/-- The unspent coins are the created ones minus the spent ones. -/
theorem unspent_iff (history : List (Entry ι ν)) (valid : Valid (fun _ _ => none) history)
    (id : ι) (n : Nat) (coin : ν) :
    state (fun _ _ => none) history id n = some coin ↔
      ∃ k, Creates history k id n coin ∧ (some k, n) ∉ spent history := by
  rw [unspent_source history valid id n coin]
  constructor
  · rintro ⟨k, -, made, unspent⟩
    exact ⟨k, made, unspent⟩
  · rintro ⟨k, made, unspent⟩
    exact ⟨k, creates_source history valid k id n coin made unspent, made, unspent⟩

/-- Every input of a valid history has a source, and that coin was not spent before. -/
theorem source_present (entry : Entry ι ν) (past : List (Entry ι ν))
    (valid : Valid (fun _ _ => none) (entry :: past)) (out : ι × Nat)
    (member : out ∈ entry.inputs) :
    ∃ k, source past out = some k ∧ (some k, out.2) ∉ spent past := by
  obtain ⟨coin, present⟩ := Option.isSome_iff_exists.mp (valid.1.present out member)
  obtain ⟨k, found, -, unspent⟩ := (unspent_source past valid.2 out.1 out.2 coin).mp present
  exact ⟨k, found, unspent⟩

/-- No coin of a valid history is spent twice. -/
theorem spent_nodup (history : List (Entry ι ν)) (valid : Valid (fun _ _ => none) history) :
    (spent history).Nodup := by
  induction history with
  | nil => exact List.nodup_nil
  | cons entry past ih =>
      rw [spent, List.nodup_append]
      refine ⟨?_, ih valid.2, ?_⟩
      · apply List.Nodup.map_on _ valid.1.distinct
        intro out member out' member' same
        obtain ⟨k, found, -⟩ := source_present entry past valid out member
        obtain ⟨sourceSame, position⟩ := Prod.mk.inj same
        have name := source_id past out out' k found (by rw [← sourceSame, found])
        exact Prod.ext name position
      · intro coin here coin' before same
        obtain ⟨out, member, rfl⟩ := List.mem_map.mp here
        obtain ⟨k, found, unspent⟩ := source_present entry past valid out member
        rw [← same, found] at before
        exact unspent before

/-! ## Static lookup -/

/-- The coin of a name by its newest creator alone, whether or not it has been spent since. -/
def lookup (start : Coins ι ν) : List (Entry ι ν) → Coins ι ν
  | [] => start
  | entry :: past => create (lookup start past) entry

/-- A coin that is there is the one its newest creator made. -/
theorem state_lookup (start : Coins ι ν) (history : List (Entry ι ν)) (id : ι) (n : Nat) (coin : ν)
    (present : state start history id n = some coin) : lookup start history id n = some coin := by
  induction history with
  | nil => exact present
  | cons entry past ih =>
      rw [lookup, create]
      rw [state, apply, create] at present
      split
      · rename_i own
        rwa [if_pos own] at present
      · rename_i other
        rw [if_neg other, spendAll] at present
        split at present
        · cases present
        · exact ih present

/-! ## Fresh ids

A batch of entries whose ids are all vacant beforehand and name equal entries when they are equal
overwrites nothing, as long as only its first entry has no inputs. -/

/-- What holds after a part of a batch on top of `start`. -/
structure Fresh (start : Coins ι ν) (past : List (Entry ι ν)) : Prop where
  valid : Valid start past
  ids : (past.map Entry.id).Nodup
  gone : ∀ entry ∈ past, ∀ out ∈ entry.inputs, state start past out.1 out.2 = none
  known : ∀ entry ∈ past, ∀ out ∈ entry.inputs,
    ¬ Vacant start out.1 ∨ out.1 ∈ past.map Entry.id
  occupied : ∀ id, ¬ Vacant (state start past) id → ¬ Vacant start id ∨ id ∈ past.map Entry.id

theorem fresh_nil (start : Coins ι ν) : Fresh start [] :=
  ⟨trivial, List.nodup_nil, fun _ member => (nomatch member), fun _ member => (nomatch member),
    fun _ occupied => .inl occupied⟩

theorem fresh_cons (start : Coins ι ν) (entry : Entry ι ν) (past : List (Entry ι ν))
    (fresh : Fresh start past) (spends : Spends (state start past) entry)
    (vacant : Vacant start entry.id)
    (same : ∀ other ∈ past, other.id = entry.id → other = entry)
    (regular : past ≠ [] → entry.inputs ≠ []) : Fresh start (entry :: past) := by
  -- an earlier entry with this id is this entry, whose inputs are gone
  have new : entry.id ∉ past.map Entry.id := by
    intro member
    obtain ⟨other, among, sameId⟩ := List.mem_map.mp member
    have equal := same other among sameId
    obtain ⟨out, input⟩ := List.exists_mem_of_ne_nil _ (regular (List.ne_nil_of_mem among))
    have present := spends.present out input
    rw [fresh.gone other among out (by rw [equal]; exact input)] at present
    cases present
  have unoccupied : Vacant (state start past) entry.id := by
    by_contra occupied
    rcases fresh.occupied entry.id occupied with before | member
    · exact before vacant
    · exact new member
  have spentVacant : Vacant (spendAll (state start past) entry.inputs) entry.id := by
    intro n
    rw [spendAll]
    split
    · rfl
    · exact unoccupied n
  have foreign : ∀ out ∈ entry.inputs, out.1 ≠ entry.id := by
    intro out input own
    have present := spends.present out input
    rw [own, unoccupied] at present
    cases present
  refine ⟨⟨⟨spends, spentVacant⟩, fresh.valid⟩, ?_, ?_, ?_, ?_⟩
  · rw [List.map_cons, List.nodup_cons]
    exact ⟨new, fresh.ids⟩
  · intro other among out input
    have away : out.1 ≠ entry.id := by
      rcases List.mem_cons.mp among with rfl | among
      · exact foreign out input
      · intro own
        rcases fresh.known other among out input with before | member
        · exact before (own ▸ vacant)
        · exact new (own ▸ member)
    rw [state, apply_other _ _ _ _ away]
    rcases List.mem_cons.mp among with rfl | among
    · exact spendAll_of_mem _ _ _ _ input
    · rw [spendAll]
      split
      · rfl
      · exact fresh.gone other among out input
  · intro other among out input
    rw [List.map_cons, List.mem_cons]
    rcases List.mem_cons.mp among with rfl | among
    · have present := spends.present out input
      have occupied : ¬ Vacant (state start past) out.1 := by
        intro empty
        rw [empty] at present
        cases present
      exact (fresh.occupied out.1 occupied).imp_right .inr
    · exact (fresh.known other among out input).imp_right .inr
  · intro id occupied
    rw [List.map_cons, List.mem_cons]
    by_cases own : id = entry.id
    · exact .inr (.inl own)
    · have before : ¬ Vacant (state start past) id := by
        intro empty
        apply occupied
        intro n
        rw [state, apply_other _ _ _ _ own, spendAll]
        split
        · rfl
        · exact empty n
      exact (fresh.occupied id before).imp_right .inr

end Ledger
