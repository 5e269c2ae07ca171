import Mathlib.Data.List.Nodup
import RoiCoin.Lib.RingBuffer

/-! The set of the most recent elements (`mruset.h`).

The set is a list of nodes, and an iterator is the number of a node; `end()` is `none`. A node that
is erased keeps its number, so an iterator to it is no iterator to a later node of the same element.
An operation gives nothing where the source erases through an iterator of no node or writes outside
`order`. -/

namespace RoiCoin

/-- A node of a `std::set`. -/
structure SetNode (α : Type) where
  number : Nat
  value : α

/-- An iterator into a `std::set`. -/
abbrev SetIterator := Option Nat

/-- `set.erase(it)` -/
def eraseNode {α : Type} (set : List (SetNode α)) : SetIterator → Option (List (SetNode α))
  | none => none
  | some number =>
      if set.any (fun node => node.number = number) then
        some (set.filter fun node => node.number ≠ number)
      else none

structure MruSet (α : Type) where
  set : List (SetNode α)
  order : List SetIterator
  firstUsed : Nat
  firstUnused : Nat
  nMaxSize : Nat
  /-- The number of the next node. -/
  numbered : Nat

namespace MruSet

variable {α : Type}

def clear (m : MruSet α) : MruSet α :=
  { m with
    set := []
    order := List.replicate m.nMaxSize none
    firstUsed := 0
    firstUnused := 0 }

def new (nMaxSizeIn : Nat) : MruSet α := clear ⟨[], [], 0, 0, nMaxSizeIn, 0⟩

/-- `if (++index == nMaxSize) index = 0` -/
def next (m : MruSet α) (index : Nat) : Nat := if index + 1 = m.nMaxSize then 0 else index + 1

/-- `order[index] = it` -/
def assign (m : MruSet α) (index : Nat) (it : SetIterator) : Option (List SetIterator) :=
  if index < m.order.length then some (m.order.set index it) else none

/-- Erase the element at `first_used`. -/
def evict (m : MruSet α) : Option (MruSet α) := do
  let it ← m.order[m.firstUsed]?
  let set ← eraseNode m.set it
  let order ← m.assign m.firstUsed none
  some { m with set, order, firstUsed := m.next m.firstUsed }

/-- `set.insert(x)` of an element that is not there. -/
def grow (m : MruSet α) (x : α) : MruSet α :=
  { m with set := m.set ++ [⟨m.numbered, x⟩], numbered := m.numbered + 1 }

/-- What `insert` does with the iterator to a new element. -/
def remember (m : MruSet α) (it : Nat) : Option (MruSet α) := do
  let m ← if m.set.length = m.nMaxSize + 1 then m.evict else some m
  let order ← m.assign m.firstUnused (some it)
  some { m with order, firstUnused := m.next m.firstUnused }

/-! ## The nodes in the ring -/

/-- The last `n` elements of a list. -/
def lastOf (n : Nat) (log : List α) : List α := log.drop (log.length - n)

theorem lastOf_push (n : Nat) (log : List α) (x : α) (positive : 1 ≤ n) :
    lastOf n (log ++ [x]) =
      if log.length < n then lastOf n log ++ [x] else (lastOf n log).tail ++ [x] := by
  rw [lastOf, lastOf, List.length_append, List.length_singleton]
  split
  · rename_i short
    have all : log.length + 1 - n = 0 := by omega
    have whole : log.length - n = 0 := by omega
    rw [all, whole, List.drop_zero, List.drop_zero]
  · rename_i full
    have later : log.length + 1 - n = log.length - n + 1 := by omega
    rw [later, List.drop_append_of_le_length (by omega), List.tail_drop]

theorem length_lastOf (n : Nat) (log : List α) : (lastOf n log).length = min n log.length := by
  simp only [lastOf, List.length_drop]
  omega

/-- What the log of all nodes, the last one at the end, says of the state. -/
structure Keeps (n : Nat) (m : MruSet α) (log : List (SetNode α)) : Prop where
  capacity : m.nMaxSize = n
  live : m.set = log.drop (log.length - n)
  slots : m.order.length = n
  ring : RingBuffer.Holds (log.map fun node => some node.number) m.order log.length
  oldest : m.firstUsed = (log.length - n) % n
  free : m.firstUnused = log.length % n
  ascending : log.Pairwise fun a b => a.number < b.number
  numbered : ∀ node ∈ log, node.number < m.numbered

theorem keeps_clear (n : Nat) (m : MruSet α) (capacity : m.nMaxSize = n) :
    Keeps n m.clear [] where
  capacity := capacity
  live := by simp [clear]
  slots := by simp [clear, capacity]
  ring := by
    intro x before
    simp at before
  oldest := by simp [clear]
  free := by simp [clear]
  ascending := .nil
  numbered := by simp

theorem next_mod (m : MruSet α) (t : Nat) (positive : 1 ≤ m.nMaxSize) :
    m.next (t % m.nMaxSize) = (t + 1) % m.nMaxSize := by
  have inside : t % m.nMaxSize < m.nMaxSize := Nat.mod_lt _ positive
  rw [next, Nat.add_mod t 1]
  split
  · rename_i last
    by_cases one : m.nMaxSize = 1
    · rw [one, Nat.mod_one]
    · rw [Nat.mod_eq_of_lt (by omega : 1 < m.nMaxSize), last, Nat.mod_self]
  · rw [Nat.mod_eq_of_lt (by omega : 1 < m.nMaxSize),
      Nat.mod_eq_of_lt (by omega : t % m.nMaxSize + 1 < m.nMaxSize)]

/-- Only the node of the iterator goes. -/
theorem eraseNode_head (node : SetNode α) (rest : List (SetNode α))
    (others : ∀ other ∈ rest, node.number < other.number) :
    eraseNode (node :: rest) (some node.number) = some rest := by
  have kept : ∀ other ∈ rest, ¬ other.number = node.number := by
    intro other member
    have above := others other member
    omega
  simpa [eraseNode] using kept

/-- The iterator at `first_used` is that of the oldest node. -/
theorem oldest_node (n : Nat) (m : MruSet α) (log : List (SetNode α)) (positive : 1 ≤ n)
    (keeps : Keeps n m log) (full : n ≤ log.length) :
    ∃ node, log.drop (log.length - n) = node :: log.drop (log.length + 1 - n) ∧
      m.order[m.firstUsed]? = some (some node.number) := by
  have inside : log.length - n < log.length := by omega
  have slot := keeps.ring (log.length - n) inside (by rw [keeps.slots]; omega)
  rw [keeps.slots, ← keeps.oldest, List.getElem?_map, List.getElem?_eq_getElem inside] at slot
  have later : log.length + 1 - n = log.length - n + 1 := by omega
  rw [later]
  exact ⟨log[log.length - n], (List.drop_eq_getElem_cons inside), slot⟩

/-- A full set loses its oldest node, and the slot of that node is the next to be used. -/
theorem evict_grown (n : Nat) (m : MruSet α) (log : List (SetNode α)) (x : α) (positive : 1 ≤ n)
    (keeps : Keeps n m log) (full : n ≤ log.length) :
    (m.grow x).evict = some { m.grow x with
      set := log.drop (log.length + 1 - n) ++ [⟨m.numbered, x⟩]
      order := m.order.set (log.length % n) none
      firstUsed := (log.length + 1 - n) % n } := by
  obtain ⟨node, split, slot⟩ := oldest_node n m log positive keeps full
  have ordered := (keeps.ascending.sublist (List.drop_sublist (log.length - n) log))
  have numbers : ∀ other ∈ log.drop (log.length - n), other.number < m.numbered :=
    fun other member => keeps.numbered other (List.mem_of_mem_drop member)
  rw [split] at ordered numbers
  have erased : eraseNode (m.grow x).set (some node.number) =
      some (log.drop (log.length + 1 - n) ++ [⟨m.numbered, x⟩]) := by
    rw [grow, keeps.live, split]
    apply eraseNode_head
    intro other member
    rcases List.mem_append.mp member with old | new
    · exact List.rel_of_pairwise_cons ordered old
    · rw [List.mem_singleton.mp new]
      exact numbers node List.mem_cons_self
  have place : m.firstUsed = log.length % n := by
    rw [keeps.oldest, ← Nat.mod_eq_sub_mod full]
  have inside : m.firstUsed < m.order.length := by
    rw [place, keeps.slots]
    exact Nat.mod_lt _ positive
  have turned : (m.grow x).next (m.grow x).firstUsed = (log.length + 1 - n) % n := by
    have later : log.length + 1 - n = log.length - n + 1 := by omega
    have cap := keeps.capacity
    show m.next m.firstUsed = _
    rw [keeps.oldest, later, ← cap]
    exact next_mod m _ (cap ▸ positive)
  have written : (m.grow x).assign (m.grow x).firstUsed none =
      some (m.order.set (log.length % n) none) := by
    show m.assign m.firstUsed none = _
    rw [assign, if_pos inside, place]
  simp only [evict, turned, written, Option.bind_eq_bind]
  show (m.order[m.firstUsed]?).bind _ = _
  rw [slot, Option.bind_some, erased]
  rfl

/-- The iterator to a new node goes into the free slot. -/
theorem assigned_keeps (n : Nat) (m grown : MruSet α) (log : List (SetNode α)) (x : α)
    (positive : 1 ≤ n) (keeps : Keeps n m log) (capacity : grown.nMaxSize = n)
    (live : grown.set = (log ++ [SetNode.mk m.numbered x]).drop (log.length + 1 - n))
    (slots : ∀ it, grown.order.set (log.length % n) it = m.order.set (log.length % n) it)
    (oldest : grown.firstUsed = (log.length + 1 - n) % n) (free : grown.firstUnused = log.length % n)
    (numbered : grown.numbered = m.numbered + 1) :
    ∃ order, grown.assign grown.firstUnused (some m.numbered) = some order ∧
      Keeps n { grown with order, firstUnused := grown.next grown.firstUnused }
        (log ++ [⟨m.numbered, x⟩]) := by
  have size : grown.order.length = n := by
    have both := congrArg List.length (slots none)
    rw [List.length_set, List.length_set, keeps.slots] at both
    exact both
  have inside : grown.firstUnused < grown.order.length := by
    rw [free, size]
    exact Nat.mod_lt _ positive
  refine ⟨m.order.set (log.length % n) (some m.numbered), ?_, ?_⟩
  · rw [assign, if_pos inside, free, slots]
  constructor
  case capacity => exact capacity
  case live => simpa using live
  case slots => rw [List.length_set, keeps.slots]
  case ring =>
    have pushed := RingBuffer.holds_push (log.map fun node => some node.number) m.order
      (some m.numbered) (by rw [keeps.slots]; exact positive) (by simpa using keeps.ring)
    simpa [keeps.slots] using pushed
  case oldest => simpa using oldest
  case free =>
    rw [free, ← capacity, List.length_append, List.length_singleton]
    exact next_mod grown _ (capacity ▸ positive)
  case ascending =>
    rw [List.pairwise_append]
    refine ⟨keeps.ascending, List.pairwise_singleton _ _, ?_⟩
    intro node member new same
    rw [List.mem_singleton.mp same]
    exact keeps.numbered node member
  case numbered =>
    intro node member
    rw [numbered]
    rcases List.mem_append.mp member with old | new
    · exact Nat.lt_succ_of_lt (keeps.numbered node old)
    · rw [List.mem_singleton.mp new]
      exact Nat.lt_succ_self _

/-- A new element takes the place of the oldest one if the set is full. -/
theorem remember_keeps (n : Nat) (m : MruSet α) (log : List (SetNode α)) (x : α)
    (positive : 1 ≤ n) (keeps : Keeps n m log) :
    ∃ m', (m.grow x).remember m.numbered = some m' ∧ Keeps n m' (log ++ [⟨m.numbered, x⟩]) := by
  have size : (m.grow x).set.length = min n log.length + 1 := by
    have live := length_lastOf n log
    rw [lastOf, ← keeps.live] at live
    rw [grow, List.length_append, List.length_singleton, live]
  rw [remember, size]
  have cap : (m.grow x).nMaxSize = n := keeps.capacity
  by_cases full : n ≤ log.length
  · rw [cap, if_pos (by omega), evict_grown n m log x positive keeps full]
    obtain ⟨order, written, kept⟩ := assigned_keeps n m { m.grow x with
      set := log.drop (log.length + 1 - n) ++ [⟨m.numbered, x⟩]
      order := m.order.set (log.length % n) none
      firstUsed := (log.length + 1 - n) % n } log x positive keeps cap
      (by rw [List.drop_append_of_le_length (by omega)]) (by simp) rfl keeps.free rfl
    exact ⟨_, by simp [written], kept⟩
  · rw [cap, if_neg (by omega)]
    have all : log.length + 1 - n = 0 := by omega
    have whole : log.length - n = 0 := by omega
    obtain ⟨order, written, kept⟩ := assigned_keeps n m (m.grow x) log x positive keeps cap
      (by rw [grow, keeps.live, all, whole]; rfl) (fun _ => rfl)
      (by rw [all, ← whole]; exact keeps.oldest) keeps.free rfl
    exact ⟨_, by simp [written], kept⟩

variable [DecidableEq α]

/-- The iterator and the flag of the result are those of `set.insert`. -/
def insert (m : MruSet α) (x : α) : Option ((SetIterator × Bool) × MruSet α) :=
  match m.set.find? (fun node => node.value = x) with
  | some node => some ((some node.number, false), m)
  | none => do
      let m' ← (m.grow x).remember m.numbered
      some ((some m.numbered, true), m')

def count (m : MruSet α) (x : α) : Bool := m.set.any fun node => node.value = x

def size (m : MruSet α) : Nat := m.set.length

/-! ## Operations -/

inductive Operation (α : Type) where
  | insert (x : α)
  | clear

def step (m : MruSet α) : Operation α → Option (MruSet α)
  | .insert x => Prod.snd <$> m.insert x
  | .clear => some m.clear

def run (m : MruSet α) (operations : List (Operation α)) : Option (MruSet α) :=
  operations.foldlM step m

/-! ## The elements it is to have -/

/-- The elements inserted anew since the last clear, the last one at the end. -/
def note (n : Nat) (log : List α) : Operation α → List α
  | .insert x => if x ∈ lastOf n log then log else log ++ [x]
  | .clear => []

def inserted (n : Nat) (operations : List (Operation α)) : List α :=
  operations.foldl (note n) []

theorem note_distinct (n : Nat) (log : List α) (operation : Operation α) (positive : 1 ≤ n)
    (distinct : (lastOf n log).Nodup) : (lastOf n (note n log operation)).Nodup := by
  cases operation with
  | clear => simp [note, lastOf]
  | insert x =>
      rw [note]
      split
      · exact distinct
      · rename_i new
        rw [lastOf_push n log x positive]
        split
        · rw [← List.concat_eq_append, List.nodup_concat]
          exact ⟨new, distinct⟩
        · rw [← List.concat_eq_append, List.nodup_concat]
          exact ⟨fun member => new (List.mem_of_mem_tail member),
            distinct.sublist (List.tail_sublist _)⟩

omit [DecidableEq α] in
theorem live_values (n : Nat) (m : MruSet α) (log : List (SetNode α)) (keeps : Keeps n m log) :
    m.set.map SetNode.value = lastOf n (log.map SetNode.value) := by
  rw [keeps.live, lastOf, List.length_map, List.map_drop]

theorem count_iff (m : MruSet α) (x : α) :
    m.count x = true ↔ x ∈ m.set.map SetNode.value := by
  simp [count]

/-- An element that is there is found and nothing changes; any other is added. -/
theorem insert_keeps (n : Nat) (m : MruSet α) (log : List (SetNode α)) (x : α) (positive : 1 ≤ n)
    (keeps : Keeps n m log) :
    ∃ it m' log', m.insert x = some ((it, !m.count x), m') ∧ Keeps n m' log' ∧
      log'.map SetNode.value = note n (log.map SetNode.value) (.insert x) ∧
      (m.count x = true → m' = m) := by
  have member := count_iff m x
  rw [live_values n m log keeps] at member
  rw [insert, note]
  cases found : m.set.find? fun node => node.value = x with
  | some node =>
      have there : m.count x = true := by
        rw [count, List.any_eq_true]
        have same := List.find?_some found
        exact ⟨node, List.mem_of_find?_eq_some found, same⟩
      rw [if_pos (member.mp there), there]
      exact ⟨_, m, log, rfl, keeps, rfl, fun _ => rfl⟩
  | none =>
      have absent : m.count x = false := by
        rw [count, List.any_eq_false]
        exact List.find?_eq_none.mp found
      have new : x ∉ lastOf n (log.map SetNode.value) := by
        rw [← member, absent]
        exact Bool.false_ne_true
      obtain ⟨m', added, kept⟩ := remember_keeps n m log x positive keeps
      rw [if_neg new, absent]
      simp only [added]
      exact ⟨_, m', _, rfl, kept, by simp, fun given => absurd given Bool.false_ne_true⟩

theorem step_keeps (n : Nat) (m : MruSet α) (log : List (SetNode α)) (operation : Operation α)
    (positive : 1 ≤ n) (keeps : Keeps n m log) :
    ∃ m' log', m.step operation = some m' ∧ Keeps n m' log' ∧
      log'.map SetNode.value = note n (log.map SetNode.value) operation := by
  cases operation with
  | clear => exact ⟨m.clear, [], rfl, keeps_clear n m keeps.capacity, rfl⟩
  | insert x =>
      obtain ⟨it, m', log', inserted, kept, noted, -⟩ := insert_keeps n m log x positive keeps
      refine ⟨m', log', ?_, kept, noted⟩
      rw [step, inserted]
      rfl

theorem run_keeps (n : Nat) (m : MruSet α) (log : List (SetNode α))
    (operations : List (Operation α)) (positive : 1 ≤ n) (keeps : Keeps n m log)
    (distinct : (lastOf n (log.map SetNode.value)).Nodup) :
    ∃ m' log', m.run operations = some m' ∧ Keeps n m' log' ∧
      log'.map SetNode.value = operations.foldl (note n) (log.map SetNode.value) ∧
      (lastOf n (log'.map SetNode.value)).Nodup := by
  induction operations generalizing m log with
  | nil => exact ⟨m, log, rfl, keeps, rfl, distinct⟩
  | cons operation rest ih =>
      obtain ⟨next, grown, stepped, kept, noted⟩ := step_keeps n m log operation positive keeps
      have still := note_distinct n _ operation positive distinct
      rw [← noted] at still
      obtain ⟨m', log', ran, kept', all, last⟩ := ih next grown kept still
      refine ⟨m', log', ?_, kept', ?_, last⟩
      · rw [run, List.foldlM_cons, stepped]
        exact ran
      · rw [all, noted, List.foldl_cons]

/-- After any operations the set has the last elements that were inserted anew; every erase went
through an iterator of a node, and the next insert changes nothing if the element is there. -/
theorem recent_kept (n : Nat) (positive : 1 ≤ n) (operations : List (Operation α)) :
    ∃ m, (new n).run operations = some m ∧
      m.set.map SetNode.value = lastOf n (inserted n operations) ∧
      (m.set.map SetNode.value).Nodup ∧ m.size ≤ n ∧
      ∀ x, ∃ it m', m.insert x = some ((it, !m.count x), m') ∧ (m.count x = true → m' = m) := by
  obtain ⟨m, log, ran, keeps, noted, distinct⟩ := run_keeps n (new n) [] operations positive
    (keeps_clear n _ rfl) (by simp [lastOf])
  have values := live_values n m log keeps
  refine ⟨m, ran, ?_, ?_, ?_, ?_⟩
  · rw [values, noted]
    rfl
  · rw [values]
    exact distinct
  · have size := congrArg List.length values
    rw [List.length_map, length_lastOf] at size
    rw [MruSet.size, size]
    exact Nat.min_le_left _ _
  · intro x
    obtain ⟨it, m', -, added, -, -, same⟩ := insert_keeps n m log x positive keeps
    exact ⟨it, m', added, same⟩

/-- Around the end twice, with a repeated element and one that comes back after its eviction. -/
theorem recent_kept_two :
    1 ≤ 2 ∧ ∃ m, (new 2).run ([5, 6, 5, 7, 5, 8].map Operation.insert) = some m ∧
      m.set.map SetNode.value = [5, 8] := by
  have recent := recent_kept 2 (by decide) ([5, 6, 5, 7, 5, 8].map Operation.insert)
  obtain ⟨m, ran, values, -⟩ := recent
  exact ⟨by decide, m, ran, values⟩

end MruSet

end RoiCoin
