import RoiCoin.Net.BlocksInFlight
import Mathlib.Data.List.Nodup

/-! What the steps of the download bookkeeping keep, and what `FinalizeNode` loses. -/

namespace RoiCoin

theorem boolInt_count (flag : Bool) : boolInt flag = ((if flag = true then 1 else 0 : Nat) : Int) := by
  cases flag <;> rfl

namespace CNodeState

theorem counted_blank : CNodeState.blank.Counted := by
  exact ⟨List.nodup_nil, List.nodup_nil, rfl, rfl⟩

/-- An element of a list with distinct iterators is the one its iterator points at. -/
theorem element_unique (elements : List QueuedElement)
    (distinct : (elements.map Prod.fst).Nodup) (first second : QueuedElement)
    (here : first ∈ elements) (there : second ∈ elements) (same : first.1 = second.1) :
    first = second := List.inj_on_of_nodup_map distinct here there same

theorem find_element (elements : List QueuedElement) (distinct : (elements.map Prod.fst).Nodup)
    (element : QueuedElement) (member : element ∈ elements) :
    (elements.find? fun other => other.1 = element.1) = some element := by
  cases found : elements.find? fun other => other.1 = element.1 with
  | none =>
      rw [List.find?_eq_none] at found
      have away := found element member
      simp at away
  | some other =>
      have same : other.1 = element.1 := by simpa using List.find?_some found
      rw [element_unique elements distinct other element (List.mem_of_find?_eq_some found) member
        same]

/-- Taking out one element lowers the length by one and the count by what the element counts. -/
theorem filter_element (elements : List QueuedElement) (distinct : (elements.map Prod.fst).Nodup)
    (element : QueuedElement) (member : element ∈ elements) :
    (elements.filter fun other => other.1 ≠ element.1).length + 1 = elements.length ∧
      ((elements.filter fun other => other.1 ≠ element.1).countP fun other =>
          other.2.fValidatedHeaders) + (if element.2.fValidatedHeaders = true then 1 else 0) =
        elements.countP fun other => other.2.fValidatedHeaders := by
  induction elements with
  | nil => cases member
  | cons first elements ih =>
      rw [List.map_cons, List.nodup_cons] at distinct
      obtain ⟨apart, distinct⟩ := distinct
      rcases List.mem_cons.mp member with rfl | later
      · have all : elements.filter (fun other => other.1 ≠ element.1) = elements := by
          rw [List.filter_eq_self]
          intro other among
          have differs : other.1 ≠ element.1 := by
            intro same
            exact apart (same ▸ List.mem_map_of_mem among)
          simpa using differs
        rw [List.filter_cons_of_neg (by simp), all, List.countP_cons]
        exact ⟨rfl, rfl⟩
      · have differs : first.1 ≠ element.1 := by
          intro same
          exact apart (same ▸ List.mem_map_of_mem later)
        obtain ⟨length, count⟩ := ih distinct later
        rw [List.filter_cons_of_pos (by simpa using differs), List.length_cons, List.length_cons,
          List.countP_cons, List.countP_cons]
        omega

variable (state : CNodeState) (it : Nat) (entry : QueuedBlock)

theorem dequeue_counted (counted : state.Counted) (member : (it, entry) ∈ state.vBlocksInFlight) :
    (state.dequeue it entry).Counted ∧
      (state.dequeue it entry).validated + (if entry.fValidatedHeaders = true then 1 else 0) =
        state.validated := by
  obtain ⟨length, count⟩ := filter_element state.vBlocksInFlight counted.distinct (it, entry) member
  dsimp only at length count
  refine ⟨⟨counted.distinct.sublist (List.filter_sublist.map _),
    counted.hashes.sublist (List.filter_sublist.map _), ?_, ?_⟩, count⟩
  · rw [dequeue]
    dsimp only
    rw [counted.count]
    omega
  · rw [dequeue, validated]
    dsimp only
    rw [counted.valid, boolInt_count, validated]
    omega

theorem dequeue_lists (counted : state.Counted) (member : (it, entry) ∈ state.vBlocksInFlight)
    (it' : Nat) (hash : Uint256) :
    (state.dequeue it entry).lists it' hash ↔ state.lists it' hash ∧ hash ≠ entry.hash := by
  constructor
  · rintro ⟨entry', among, rfl⟩
    obtain ⟨among, other⟩ := List.mem_filter.mp among
    refine ⟨⟨entry', among, rfl⟩, ?_⟩
    intro same
    have twice : (it', entry') = (it, entry) :=
      List.inj_on_of_nodup_map counted.hashes among member same
    rw [Prod.mk.injEq] at twice
    simp [twice.1] at other
  · rintro ⟨⟨entry', among, rfl⟩, differs⟩
    refine ⟨entry', List.mem_filter.mpr ⟨among, ?_⟩, rfl⟩
    have other : it' ≠ it := by
      rintro rfl
      have twice := element_unique _ counted.distinct _ _ among member rfl
      rw [Prod.mk.injEq] at twice
      exact differs (by rw [twice.2])
    simpa using other

theorem enqueue_counted (counted : state.Counted)
    (fresh : ∀ element ∈ state.vBlocksInFlight, element.1 ≠ it)
    (absent : ∀ element ∈ state.vBlocksInFlight, element.2.hash ≠ entry.hash) :
    (state.enqueue it entry).Counted ∧
      (state.enqueue it entry).validated =
        state.validated + (if entry.fValidatedHeaders = true then 1 else 0) := by
  have count : (state.enqueue it entry).validated =
      state.validated + (if entry.fValidatedHeaders = true then 1 else 0) := by
    rw [validated, enqueue, List.countP_append, List.countP_singleton, validated]
  refine ⟨⟨?_, ?_, ?_, ?_⟩, count⟩
  · rw [enqueue, List.map_append, List.nodup_append]
    refine ⟨counted.distinct, List.nodup_singleton _, ?_⟩
    intro first here second there
    obtain ⟨element, among, rfl⟩ := List.mem_map.mp here
    rw [List.map_singleton, List.mem_singleton] at there
    rw [there]
    exact fresh element among
  · rw [enqueue, List.map_append, List.nodup_append]
    refine ⟨counted.hashes, List.nodup_singleton _, ?_⟩
    intro first here second there
    obtain ⟨element, among, rfl⟩ := List.mem_map.mp here
    rw [List.map_singleton, List.mem_singleton] at there
    rw [there]
    exact absent element among
  · rw [enqueue]
    dsimp only
    rw [counted.count, List.length_append, List.length_singleton]
    omega
  · rw [count, enqueue]
    dsimp only
    rw [counted.valid, boolInt_count]
    omega

theorem enqueue_lists (it' : Nat) (hash : Uint256) :
    (state.enqueue it entry).lists it' hash ↔
      state.lists it' hash ∨ (it' = it ∧ hash = entry.hash) := by
  constructor
  · rintro ⟨entry', among, rfl⟩
    rcases List.mem_append.mp among with before | last
    · exact .inl ⟨entry', before, rfl⟩
    · rw [List.mem_singleton, Prod.mk.injEq] at last
      exact .inr ⟨last.1, by rw [last.2]⟩
  · rintro (⟨entry', before, rfl⟩ | ⟨rfl, rfl⟩)
    · exact ⟨entry', List.mem_append_left _ before, rfl⟩
    · exact ⟨entry, List.mem_append_right _ (List.mem_singleton_self _), rfl⟩

end CNodeState

namespace InFlight

theorem start_listed : Listed .start := by
  refine ⟨?_, ?_, ?_⟩
  · intro hash nodeid it
    constructor
    · intro found
      cases found
    · rintro ⟨state, found, -⟩
      cases found
  · intro nodeid state found
    cases found
  · intro nodeid state found
    cases found

/-- No block is in two lists, or twice in one. -/
theorem listed_apart (st : InFlight) (listed : Listed st) (hash : Uint256)
    (nodeid nodeid' : NodeId) (state state' : CNodeState) (it it' : Nat)
    (found : st.mapNodeState.lookup nodeid = some state) (here : state.lists it hash)
    (found' : st.mapNodeState.lookup nodeid' = some state') (there : state'.lists it' hash) :
    nodeid = nodeid' ∧ it = it' := by
  have first := (listed.own hash nodeid it).mpr ⟨state, found, here⟩
  have second := (listed.own hash nodeid' it').mpr ⟨state', found', there⟩
  rw [first, Option.some.injEq, Prod.mk.injEq] at second
  exact second

/-! ## `InitializeNode` -/

theorem initialize_listed (st : InFlight) (nodeid : NodeId) (addrName addr : String)
    (listed : Listed st) : Listed (st.initializeNode nodeid addrName addr) := by
  have lists : ∀ it hash, ((st.mapNodeState.lookup nodeid).getD .blank).lists it hash ↔
      ∃ state, st.mapNodeState.lookup nodeid = some state ∧ state.lists it hash := by
    intro it hash
    cases st.mapNodeState.lookup nodeid with
    | none => simp [CNodeState.lists, CNodeState.blank]
    | some state => simp
  refine ⟨?_, ?_, ?_⟩
  · intro hash other it
    rw [initializeNode]
    dsimp only
    rw [listed.own]
    by_cases same : other = nodeid
    · subst same
      rw [AList.lookup_insert]
      constructor
      · intro found
        exact ⟨_, rfl, (lists it hash).mpr found⟩
      · rintro ⟨state, found, here⟩
        cases found
        exact (lists it hash).mp here
    · rw [AList.lookup_insert_ne same]
  · intro other state found
    rw [initializeNode] at found
    dsimp only at found
    by_cases same : other = nodeid
    · subst same
      rw [AList.lookup_insert] at found
      cases found
      cases before : st.mapNodeState.lookup other with
      | none =>
          have counted := CNodeState.counted_blank
          exact ⟨counted.distinct, counted.hashes, counted.count, counted.valid⟩
      | some state =>
          have counted := listed.counted other state before
          exact ⟨counted.distinct, counted.hashes, counted.count, counted.valid⟩
    · rw [AList.lookup_insert_ne same] at found
      exact listed.counted other state found
  · intro other state found element member
    rw [initializeNode] at found
    dsimp only at found
    by_cases same : other = nodeid
    · subst same
      rw [AList.lookup_insert] at found
      cases found
      cases before : st.mapNodeState.lookup other with
      | none =>
          rw [before] at member
          cases member
      | some state =>
          rw [before] at member
          exact listed.fresh other state before element member
    · rw [AList.lookup_insert_ne same] at found
      exact listed.fresh other state found element member

theorem initialize_total (st : InFlight) (nodeid : NodeId) (addrName addr : String) :
    (st.initializeNode nodeid addrName addr).totalValidated = st.totalValidated := by
  rw [totalValidated, totalValidated, initializeNode]
  dsimp only
  cases before : st.mapNodeState.lookup nodeid with
  | none =>
      rw [Tally.total_insert_new _ _ _ _ before]
      exact Nat.zero_add _
  | some state =>
      have exchanged := Tally.total_replace CNodeState.validated st.mapNodeState nodeid state
        { state with name := addrName, address := addr } before
      have same : CNodeState.validated { state with name := addrName, address := addr } =
          state.validated := rfl
      rw [Option.getD_some]
      omega

/-! ## `MarkBlockAsReceived` -/

/-- What the call leaves, whether or not the block was in flight. -/
structure Received (st st' : InFlight) (hash : Uint256) : Prop where
  listed : Listed st'
  gone : st'.mapBlocksInFlight.lookup hash = none
  balance : st'.nQueuedValidatedHeaders + st.totalValidated =
    st.nQueuedValidatedHeaders + st'.totalValidated
  nodes : ∀ nodeid, (st'.mapNodeState.lookup nodeid).isSome = (st.mapNodeState.lookup nodeid).isSome

theorem received_ok (st : InFlight) (hash : Uint256) (listed : Listed st) :
    ∃ st' found, st.markBlockAsReceived hash = some (st', found) ∧ Received st st' hash := by
  rw [markBlockAsReceived]
  cases inFlight : st.mapBlocksInFlight.lookup hash with
  | none => exact ⟨st, false, rfl, ⟨listed, inFlight, rfl, fun _ => rfl⟩⟩
  | some place =>
      obtain ⟨nodeid, it⟩ := place
      obtain ⟨state, found, entry, member, named⟩ := (listed.own hash nodeid it).mp inFlight
      have counted := listed.counted nodeid state found
      have points := CNodeState.find_element state.vBlocksInFlight counted.distinct (it, entry)
        member
      obtain ⟨counted', valid⟩ := CNodeState.dequeue_counted state it entry counted member
      dsimp only at points
      dsimp only
      rw [found]
      dsimp only
      rw [points]
      refine ⟨_, _, rfl, ⟨⟨?_, ?_, ?_⟩, AList.lookup_erase _ _, ?_, ?_⟩⟩
      · intro hash' nodeid' it'
        dsimp only
        have before := listed.own hash' nodeid' it'
        by_cases same : hash' = hash
        · subst same
          rw [AList.lookup_erase]
          constructor
          · intro impossible
            cases impossible
          · rintro ⟨state', found', here⟩
            by_cases node : nodeid' = nodeid
            · subst node
              rw [AList.lookup_insert, Option.some.injEq] at found'
              subst found'
              exact (((CNodeState.dequeue_lists state it entry counted member it' hash').mp here).2
                named.symm).elim
            · rw [AList.lookup_insert_ne node] at found'
              exact (node (listed_apart st listed hash' nodeid' nodeid state' state it' it found'
                here found ⟨entry, member, named⟩).1).elim
        · rw [AList.lookup_erase_ne same, before]
          by_cases node : nodeid' = nodeid
          · subst node
            rw [AList.lookup_insert, found]
            simp only [Option.some.injEq, exists_eq_left']
            rw [CNodeState.dequeue_lists state it entry counted member]
            exact ⟨fun here => ⟨here, by rwa [named]⟩, And.left⟩
          · rw [AList.lookup_insert_ne node]
      · intro nodeid' state' found'
        dsimp only at found'
        by_cases node : nodeid' = nodeid
        · subst node
          rw [AList.lookup_insert, Option.some.injEq] at found'
          subst found'
          exact counted'
        · rw [AList.lookup_insert_ne node] at found'
          exact listed.counted nodeid' state' found'
      · intro nodeid' state' found' element among
        dsimp only at found' ⊢
        by_cases node : nodeid' = nodeid
        · subst node
          rw [AList.lookup_insert, Option.some.injEq] at found'
          subst found'
          exact listed.fresh nodeid' state found element (List.mem_filter.mp among).1
        · rw [AList.lookup_insert_ne node] at found'
          exact listed.fresh nodeid' state' found' element among
      · have exchanged := Tally.total_replace CNodeState.validated st.mapNodeState nodeid state
          (state.dequeue it entry) found
        dsimp only [totalValidated]
        rw [boolInt_count]
        omega
      · intro nodeid'
        dsimp only
        by_cases node : nodeid' = nodeid
        · subst node
          rw [AList.lookup_insert, found]
          rfl
        · rw [AList.lookup_insert_ne node]

/-! ## `MarkBlockAsInFlight` -/

theorem enqueue_ok (st : InFlight) (nPowTargetSpacing nNow : Int) (nodeid : NodeId)
    (state : CNodeState) (hash : Uint256) (pindex : Option Uint256) (listed : Listed st)
    (absent : st.mapBlocksInFlight.lookup hash = none)
    (found : st.mapNodeState.lookup nodeid = some state) :
    let st' := st.enqueue nPowTargetSpacing nNow nodeid state hash pindex
    Listed st' ∧ st'.nQueuedValidatedHeaders + st.totalValidated =
      st.nQueuedValidatedHeaders + st'.totalValidated := by
  have nowhere : ∀ nodeid' state' it', st.mapNodeState.lookup nodeid' = some state' →
      ¬ state'.lists it' hash := by
    intro nodeid' state' it' found' here
    have known := (listed.own hash nodeid' it').mpr ⟨state', found', here⟩
    rw [absent] at known
    cases known
  have counted := listed.counted nodeid state found
  have fresh := listed.fresh nodeid state found
  dsimp only
  rw [enqueue]
  dsimp only
  generalize blockEq : QueuedBlock.mk hash pindex nNow pindex.isSome
    (getBlockTimeout nPowTargetSpacing nNow st.nQueuedValidatedHeaders) = newentry
  have named : newentry.hash = hash := by rw [← blockEq]
  obtain ⟨counted', valid⟩ := CNodeState.enqueue_counted state st.nextIterator newentry counted
    (fun element among => (fresh element among).ne)
    (fun element among same =>
      nowhere nodeid state element.1 found ⟨element.2, among, same.trans named⟩)
  refine ⟨⟨?_, ?_, ?_⟩, ?_⟩
  · intro hash' nodeid' it'
    dsimp only
    have before := listed.own hash' nodeid' it'
    by_cases same : hash' = hash
    · subst same
      rw [AList.lookup_insert]
      constructor
      · intro here
        cases here
        exact ⟨_, AList.lookup_insert _,
          (CNodeState.enqueue_lists state _ newentry _ _).mpr (.inr ⟨rfl, named.symm⟩)⟩
      · rintro ⟨state', found', here⟩
        by_cases node : nodeid' = nodeid
        · subst node
          rw [AList.lookup_insert, Option.some.injEq] at found'
          subst found'
          rcases (CNodeState.enqueue_lists state _ newentry _ _).mp here with old | ⟨rfl, -⟩
          · exact (nowhere nodeid' state it' found old).elim
          · rfl
        · rw [AList.lookup_insert_ne node] at found'
          exact (nowhere nodeid' state' it' found' here).elim
    · rw [AList.lookup_insert_ne same, before]
      by_cases node : nodeid' = nodeid
      · subst node
        rw [AList.lookup_insert, found]
        simp only [Option.some.injEq, exists_eq_left']
        rw [CNodeState.enqueue_lists, named]
        exact ⟨.inl, fun here => here.resolve_right fun last => same last.2⟩
      · rw [AList.lookup_insert_ne node]
  · intro nodeid' state' found'
    dsimp only at found'
    by_cases node : nodeid' = nodeid
    · subst node
      rw [AList.lookup_insert, Option.some.injEq] at found'
      subst found'
      exact counted'
    · rw [AList.lookup_insert_ne node] at found'
      exact listed.counted nodeid' state' found'
  · intro nodeid' state' found' element among
    dsimp only at found' ⊢
    by_cases node : nodeid' = nodeid
    · subst node
      rw [AList.lookup_insert, Option.some.injEq] at found'
      subst found'
      rcases List.mem_append.mp among with old | last
      · exact Nat.lt_succ_of_lt (fresh element old)
      · rw [List.mem_singleton] at last
        rw [last]
        exact Nat.lt_succ_self _
    · rw [AList.lookup_insert_ne node] at found'
      exact Nat.lt_succ_of_lt (listed.fresh nodeid' state' found' element among)
  · have exchanged := Tally.total_replace CNodeState.validated st.mapNodeState nodeid state
      (state.enqueue st.nextIterator newentry) found
    have flag : pindex.isSome = newentry.fValidatedHeaders := by rw [← blockEq]
    dsimp only [totalValidated]
    rw [boolInt_count, flag]
    omega

/-! ## `FinalizeNode` -/

theorem lookup_erased (elements : List QueuedElement)
    (map : AList fun _ : Uint256 => NodeId × Nat) (hash : Uint256) :
    (elements.foldl (fun map element => map.erase element.2.hash) map).lookup hash =
      if hash ∈ elements.map fun element => element.2.hash then none else map.lookup hash := by
  induction elements generalizing map with
  | nil => rfl
  | cons element elements ih =>
      rw [List.foldl_cons, ih, List.map_cons]
      by_cases later : hash ∈ elements.map fun element => element.2.hash
      · rw [if_pos later, if_pos (List.mem_cons_of_mem _ later)]
      · by_cases here : hash = element.2.hash
        · rw [if_neg later, here, AList.lookup_erase, if_pos List.mem_cons_self]
        · rw [if_neg later, AList.lookup_erase_ne here, if_neg]
          rw [List.mem_cons, not_or]
          exact ⟨here, later⟩

/-- The counter of the node is lost. -/
theorem finalize_ok (st : InFlight) (nodeid : NodeId) (state : CNodeState) (listed : Listed st)
    (found : st.mapNodeState.lookup nodeid = some state) :
    ∃ st' connected, st.finalizeNode nodeid = some (st', connected) ∧ Listed st' ∧
      st'.nQueuedValidatedHeaders = st.nQueuedValidatedHeaders ∧
      st.totalValidated = state.validated + st'.totalValidated := by
  rw [finalizeNode, found]
  refine ⟨_, _, rfl, ⟨?_, ?_, ?_⟩, rfl,
    Tally.total_erase CNodeState.validated st.mapNodeState nodeid state found⟩
  · intro hash nodeid' it
    dsimp only
    rw [lookup_erased]
    have before := listed.own hash nodeid' it
    by_cases erased : hash ∈ state.vBlocksInFlight.map fun element => element.2.hash
    · rw [if_pos erased]
      constructor
      · intro impossible
        cases impossible
      · rintro ⟨state', found', here⟩
        obtain ⟨element, among, named⟩ := List.mem_map.mp erased
        by_cases node : nodeid' = nodeid
        · subst node
          rw [AList.lookup_erase] at found'
          cases found'
        · rw [AList.lookup_erase_ne node] at found'
          exact (node (listed_apart st listed hash nodeid' nodeid state' state it element.1 found'
            here found ⟨element.2, among, named⟩).1).elim
    · rw [if_neg erased, before]
      by_cases node : nodeid' = nodeid
      · subst node
        rw [AList.lookup_erase, found]
        constructor
        · rintro ⟨state', same, entry, among, named⟩
          cases same
          exact (erased (List.mem_map.mpr ⟨(it, entry), among, named⟩)).elim
        · rintro ⟨state', impossible, -⟩
          cases impossible
      · rw [AList.lookup_erase_ne node]
  · intro nodeid' state' found'
    dsimp only at found'
    by_cases node : nodeid' = nodeid
    · subst node
      rw [AList.lookup_erase] at found'
      cases found'
    · rw [AList.lookup_erase_ne node] at found'
      exact listed.counted nodeid' state' found'
  · intro nodeid' state' found' element among
    dsimp only at found' ⊢
    by_cases node : nodeid' = nodeid
    · subst node
      rw [AList.lookup_erase] at found'
      cases found'
    · rw [AList.lookup_erase_ne node] at found'
      exact listed.fresh nodeid' state' found' element among

end InFlight

/-! ## Runs -/

/-- The lists and the map agree, and the global counter is ahead by what was lost. -/
structure Ahead (st : InFlight) (lost : Nat) : Prop where
  listed : st.Listed
  queued : st.nQueuedValidatedHeaders = st.totalValidated + lost

namespace InFlightStep

/-- What the step loses: the validated blocks in flight of a peer that goes. -/
def lost (st : InFlight) : InFlightStep → Nat
  | finalizeNode nodeid => (st.mapNodeState.lookup nodeid).elim 0 CNodeState.validated
  | _ => 0

/-- A peer that goes has no validated block in flight. -/
def Clean (st : InFlight) : InFlightStep → Prop
  | finalizeNode nodeid => ∀ state ∈ st.mapNodeState.lookup nodeid,
      state.nBlocksInFlightValidHeaders = 0
  | _ => True

instance (st : InFlight) (step : InFlightStep) : Decidable (step.Clean st) :=
  match step with
  | finalizeNode _ => inferInstanceAs (Decidable (∀ state ∈ _, _))
  | initializeNode _ _ _ => isTrue trivial
  | markBlockAsReceived _ => isTrue trivial
  | markBlockAsInFlight _ _ _ _ => isTrue trivial

theorem lost_clean (st : InFlight) (step : InFlightStep) (listed : st.Listed) :
    step.lost st = 0 ↔ step.Clean st := by
  cases step with
  | finalizeNode nodeid =>
      rw [lost, Clean]
      cases found : st.mapNodeState.lookup nodeid with
      | none => simp
      | some state =>
          have valid := (listed.counted nodeid state found).valid
          simp only [Option.elim_some, Option.mem_def, Option.some.injEq, forall_eq']
          rw [valid]
          exact Int.natCast_eq_zero.symm
  | initializeNode nodeid addrName addr => simp [lost, Clean]
  | markBlockAsReceived hash => simp [lost, Clean]
  | markBlockAsInFlight nodeid nNow hash pindex => simp [lost, Clean]

theorem step_ahead (nPowTargetSpacing : Int) (st st' : InFlight) (step : InFlightStep)
    (before : Nat) (ahead : Ahead st before) (ran : step.run nPowTargetSpacing st = some st') :
    Ahead st' (before + step.lost st) := by
  have queued := ahead.queued
  cases step with
  | initializeNode nodeid addrName addr =>
      cases ran
      refine ⟨InFlight.initialize_listed st nodeid addrName addr ahead.listed, ?_⟩
      rw [InFlight.initialize_total]
      exact queued
  | finalizeNode nodeid =>
      rw [run] at ran
      rw [lost]
      cases found : st.mapNodeState.lookup nodeid with
      | none =>
          rw [InFlight.finalizeNode, found] at ran
          cases ran
      | some state =>
          obtain ⟨after, connected, done, listed, same, total⟩ :=
            InFlight.finalize_ok st nodeid state ahead.listed found
          rw [done] at ran
          cases ran
          refine ⟨listed, ?_⟩
          rw [Option.elim_some]
          dsimp only
          omega
  | markBlockAsReceived hash =>
      obtain ⟨after, found, done, received⟩ := InFlight.received_ok st hash ahead.listed
      rw [run, done] at ran
      cases ran
      refine ⟨received.listed, ?_⟩
      have balance := received.balance
      have nothing : (markBlockAsReceived hash).lost st = 0 := rfl
      rw [nothing]
      dsimp only
      omega
  | markBlockAsInFlight nodeid nNow hash pindex =>
      obtain ⟨after, found, done, received⟩ := InFlight.received_ok st hash ahead.listed
      rw [run, InFlight.markBlockAsInFlight, done] at ran
      cases known : st.mapNodeState.lookup nodeid with
      | none =>
          rw [known] at ran
          cases ran
      | some old =>
          rw [known] at ran
          dsimp only at ran
          cases still : after.mapNodeState.lookup nodeid with
          | none =>
              rw [still] at ran
              cases ran
          | some state =>
              rw [still] at ran
              cases ran
              obtain ⟨listed, more⟩ := InFlight.enqueue_ok after nPowTargetSpacing nNow nodeid state
                hash pindex received.listed received.gone still
              refine ⟨listed, ?_⟩
              have balance := received.balance
              have nothing : (markBlockAsInFlight nodeid nNow hash pindex).lost st = 0 := rfl
              rw [nothing]
              dsimp only at more ⊢
              omega

end InFlightStep

/-- Every step of the run is clean in the state before it. -/
def CleanRun (nPowTargetSpacing : Int) (st : InFlight) : List InFlightStep → Prop
  | [] => True
  | step :: steps =>
      step.Clean st ∧ ∀ st' ∈ step.run nPowTargetSpacing st, CleanRun nPowTargetSpacing st' steps

def decideClean (nPowTargetSpacing : Int) (st : InFlight) :
    (steps : List InFlightStep) → Decidable (CleanRun nPowTargetSpacing st steps)
  | [] => isTrue trivial
  | step :: steps =>
      have (st' : InFlight) : Decidable (CleanRun nPowTargetSpacing st' steps) :=
        decideClean nPowTargetSpacing st' steps
      inferInstanceAs (Decidable (step.Clean st ∧ ∀ st' ∈ step.run nPowTargetSpacing st,
        CleanRun nPowTargetSpacing st' steps))

instance (nPowTargetSpacing : Int) (st : InFlight) (steps : List InFlightStep) :
    Decidable (CleanRun nPowTargetSpacing st steps) :=
  decideClean nPowTargetSpacing st steps

theorem run_ahead (nPowTargetSpacing : Int) (steps : List InFlightStep) (st final : InFlight)
    (before : Nat) (ahead : Ahead st before)
    (ran : runInFlight nPowTargetSpacing st steps = some final) :
    ∃ after, Ahead final after ∧
      (after = 0 ↔ before = 0 ∧ CleanRun nPowTargetSpacing st steps) := by
  induction steps generalizing st before with
  | nil =>
      cases ran
      exact ⟨before, ahead, by simp [CleanRun]⟩
  | cons step steps ih =>
      rw [runInFlight, Option.bind_eq_some_iff] at ran
      obtain ⟨st', one, rest⟩ := ran
      obtain ⟨after, last, zero⟩ := ih st' (before + step.lost st)
        (InFlightStep.step_ahead nPowTargetSpacing st st' step before ahead one) rest
      refine ⟨after, last, ?_⟩
      rw [zero, Nat.add_eq_zero_iff, InFlightStep.lost_clean st step ahead.listed, CleanRun, one]
      simp only [Option.mem_def, Option.some.injEq, forall_eq', and_assoc]

/-- A run keeps the books exactly when no peer goes with a validated block in flight. -/
theorem in_flight_iff (nPowTargetSpacing : Int) (steps : List InFlightStep) (st : InFlight)
    (ran : runInFlight nPowTargetSpacing .start steps = some st) :
    st.Consistent ↔ CleanRun nPowTargetSpacing .start steps := by
  obtain ⟨lost, ahead, zero⟩ := run_ahead nPowTargetSpacing steps .start st 0
    ⟨InFlight.start_listed, rfl⟩ ran
  have queued := ahead.queued
  have kept : st.Consistent ↔ lost = 0 := by
    constructor
    · intro consistent
      have agree := consistent.queued
      omega
    · intro none
      exact ⟨ahead.listed, by omega⟩
  rw [kept, zero]
  exact and_iff_right rfl

/-- Two peers; the second takes over a block from the first, and the first goes. -/
def takeOver : List InFlightStep :=
  [.initializeNode 1 "a" "1.2.3.4", .initializeNode 2 "b" "5.6.7.8",
    .markBlockAsInFlight 1 10 100 (some 100), .markBlockAsInFlight 2 20 100 (some 100),
    .finalizeNode 1]

theorem in_flight_iff_taken : ∃ st, runInFlight 60 .start takeOver = some st ∧ st.Consistent := by
  cases ran : runInFlight 60 .start takeOver with
  | none =>
      have some : (runInFlight 60 .start takeOver).isSome = true := by decide +kernel
      rw [ran] at some
      cases some
  | some st =>
      exact ⟨st, rfl, (in_flight_iff 60 takeOver st ran).mpr (by decide +kernel)⟩

/-- A peer goes while a validated block is in flight. -/
theorem finalize_leaks : ¬ ∀ (nPowTargetSpacing : Int) (steps : List InFlightStep) (st : InFlight),
    runInFlight nPowTargetSpacing .start steps = some st → st.Consistent := by
  intro always
  have run : (runInFlight 60 .start [.initializeNode 1 "a" "1.2.3.4",
      .markBlockAsInFlight 1 10 100 (some 100), .finalizeNode 1]).map (fun st =>
        (st.nQueuedValidatedHeaders, st.totalValidated)) = some (1, 0) := by decide +kernel
  rw [Option.map_eq_some_iff] at run
  obtain ⟨st, ran, counts⟩ := run
  have queued := (always 60 _ st ran).queued
  rw [Prod.mk.injEq] at counts
  rw [counts.1, counts.2] at queued
  cases queued

end RoiCoin
