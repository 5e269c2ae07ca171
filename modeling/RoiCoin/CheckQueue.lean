import RoiCoin.Lib.Runs
import RoiCoin.Lib.Weights

/-! The queue of checks that several threads work off (`checkqueue.h`).

A step is a critical section of the queue's mutex, or one check evaluated outside it. The master is
thread 0. `cond.wait` may wake up without having been notified. -/

namespace RoiCoin

universe u v

/-- The members of the queue; the element pushed last stands first. -/
structure CCheckQueue (T : Type u) where
  queue : List T
  nIdle : Nat
  nTotal : Nat
  fAllOk : Bool
  nTodo : BitVec 32
  fQuit : Bool
  nBatchSize : Nat
  deriving DecidableEq, Repr

/-- Where a thread stands in `Loop`. The checks of its batch are split into those that the loop
has gone through and those it has not. -/
inductive Position (T : Type u) where
  | outside
  | waiting (notified : Bool)
  | locked
  | working (passed vChecks : List T) (nNow : Nat) (fOk : Bool)
  deriving DecidableEq, Repr

/-- What was added and taken between two returns of `Wait`, and the value returned. -/
structure Round (T : Type u) where
  added : List T
  taken : List (Nat × List T)
  fRet : Bool
  deriving DecidableEq, Repr

/-- The queue, its threads, and the history: the checks added since `Wait` last returned, the
batches taken since then with their threads, and the rounds before. -/
structure Checkers (T : Type u) where
  shared : CCheckQueue T
  threads : List (Position T)
  added : List T
  taken : List (Nat × List T)
  rounds : List (Round T)
  deriving DecidableEq, Repr

/-- `vChecks` are added by the master; `chosen` is the worker that `notify_one` picks. -/
inductive QueueAction (T : Type u) where
  | add (vChecks : List T) (chosen : Nat)
  | run (thread : Nat)

variable {T : Type u}

namespace CCheckQueue

def new (nBatchSizeIn : Nat) : CCheckQueue T := ⟨[], 0, 0, true, 0, false, nBatchSizeIn⟩

def isIdle (q : CCheckQueue T) : Bool := q.nTotal == q.nIdle && q.nTodo == 0 && q.fAllOk == true

def add (q : CCheckQueue T) (vChecks : List T) : CCheckQueue T :=
  { q with
    queue := vChecks.reverse ++ q.queue
    nTodo := q.nTodo + BitVec.ofNat 32 vChecks.length }

/-- The clean-up of the previous loop run. -/
def cleanUp (q : CCheckQueue T) (nNow : Nat) (fOk : Bool) : CCheckQueue T :=
  if nNow ≠ 0 then
    { q with fAllOk := q.fAllOk && fOk, nTodo := q.nTodo - BitVec.ofNat 32 nNow }
  else { q with nTotal := q.nTotal + 1 }

/-- The number of checks to take; the size of the queue is converted to `unsigned int`. -/
def nextBatch (q : CCheckQueue T) : Nat :=
  max 1 (min q.nBatchSize (q.queue.length % 2 ^ 32 / (q.nTotal + q.nIdle + 1)))

end CCheckQueue

namespace Position

def notify : Position T → Position T
  | waiting _ => waiting true
  | position => position

/-- The checks of the batch in hand. -/
def batch : Position T → List T
  | working passed vChecks _ _ => passed ++ vChecks
  | _ => []

/-- The share of `nTodo` that the thread will take off. -/
def held : Position T → Nat
  | working _ _ nNow _ => nNow
  | _ => 0

def idle : Position T → Nat
  | waiting _ => 1
  | _ => 0

/-- Whether `nTotal` counts the thread, which it does from its first critical section on. -/
def counted : Position T → Nat
  | outside => 0
  | waiting _ => 1
  | locked => 1
  | working _ _ nNow _ => if nNow = 0 then 0 else 1

end Position

namespace Checkers

def start (nBatchSizeIn workers : Nat) : Checkers T :=
  ⟨.new nBatchSizeIn, List.replicate (workers + 1) .outside, [], [], []⟩

def move (s : Checkers T) (thread : Nat) (position : Position T) : Checkers T :=
  { s with threads := s.threads.set thread position }

/-- The return from `Loop`, which ends the round if it is the master's. -/
def leave (s : Checkers T) (thread : Nat) : Checkers T :=
  let left := (s.move thread .outside)
  if thread = 0 then
    { left with
      shared := { s.shared with nTotal := s.shared.nTotal - 1, fAllOk := true }
      added := []
      taken := []
      rounds := s.rounds ++ [⟨s.added, s.taken, s.shared.fAllOk⟩] }
  else { left with shared := { s.shared with nTotal := s.shared.nTotal - 1 } }

def sleep (s : Checkers T) (thread : Nat) : Checkers T :=
  { s.move thread (.waiting false) with shared := { s.shared with nIdle := s.shared.nIdle + 1 } }

/-- Take a batch from the back of the queue. -/
def take (s : Checkers T) (thread : Nat) : Checkers T :=
  let nNow := s.shared.nextBatch
  let vChecks := s.shared.queue.take nNow
  { s.move thread (.working [] vChecks nNow s.shared.fAllOk) with
    shared := { s.shared with queue := s.shared.queue.drop nNow }
    taken := s.taken ++ [(thread, vChecks)] }

/-- The critical section from the test of the queue on. -/
def proceed (s : Checkers T) (thread : Nat) : Checkers T :=
  if s.shared.queue = [] then
    if (thread = 0 ∨ s.shared.fQuit = true) ∧ s.shared.nTodo = 0 then s.leave thread
    else s.sleep thread
  else s.take thread

/-- The critical section up to the test of the queue. -/
def finish (s : Checkers T) (thread nNow : Nat) (fOk : Bool) : Checkers T :=
  let shared := s.shared.cleanUp nNow fOk
  let cleaned := { s.move thread .locked with shared }
  if nNow ≠ 0 ∧ shared.nTodo = 0 ∧ thread ≠ 0 then
    { cleaned with threads := cleaned.threads.modify 0 Position.notify }
  else cleaned

def wake (s : Checkers T) (thread : Nat) : Checkers T :=
  { s.move thread .locked with shared := { s.shared with nIdle := s.shared.nIdle - 1 } }

/-- `condWorker.notify_one` or `notify_all`. -/
def notifyWorkers (count chosen : Nat) (workers : List (Position T)) : List (Position T) :=
  if count = 1 then workers.modify chosen Position.notify
  else if count > 1 then workers.map Position.notify
  else workers

/-- The master adds while it is not in `Wait`. -/
def add (s : Checkers T) (vChecks : List T) (chosen : Nat) : Checkers T :=
  match s.threads with
  | .outside :: workers =>
      { s with
        shared := s.shared.add vChecks
        threads := .outside :: notifyWorkers vChecks.length chosen workers
        added := s.added ++ vChecks }
  | _ => s

variable (check : T → Bool)

/-- The next step of a thread; one that is outside enters `Loop`. -/
def run (s : Checkers T) (thread : Nat) : Checkers T :=
  match s.threads[thread]? with
  | none => s
  | some .outside => s.move thread (.working [] [] 0 true)
  | some (.waiting _) => (s.wake thread).proceed thread
  | some .locked => s.proceed thread
  | some (.working passed (next :: vChecks) nNow fOk) =>
      s.move thread (.working (passed ++ [next]) vChecks nNow (if fOk then check next else fOk))
  | some (.working _ [] nNow fOk) => (s.finish thread nNow fOk).proceed thread

def step (s : Checkers T) : QueueAction T → Checkers T
  | .add vChecks chosen => s.add vChecks chosen
  | .run thread => s.run check thread

/-! ## The invariant -/

/-- The checks of the batches. -/
def takenChecks (taken : List (Nat × List T)) : List T := taken.flatMap Prod.snd

/-- The local variables of a thread against the checks of the round. -/
structure Working (added passed vChecks : List T) (nNow : Nat) (fOk : Bool) : Prop where
  size : nNow = (passed ++ vChecks).length
  known : ∀ c ∈ passed ++ vChecks, c ∈ added
  ready : nNow = 0 → fOk = true
  good : fOk = true → ∀ c ∈ passed, check c = true
  bad : fOk = false → ∃ c ∈ added, check c = false

def Fits (added : List T) : Position T → Prop
  | .working passed vChecks nNow fOk => Working check added passed vChecks nNow fOk
  | _ => True

structure Sound (s : Checkers T) : Prop where
  queued : s.added.Perm (s.shared.queue ++ takenChecks s.taken)
  todo : s.shared.nTodo =
    BitVec.ofNat 32 (s.shared.queue.length + Weights.weigh Position.held s.threads)
  within : s.shared.queue.length + Weights.weigh Position.held s.threads ≤ s.added.length
  idle : s.shared.nIdle = Weights.weigh Position.idle s.threads
  total : s.shared.nTotal = Weights.weigh Position.counted s.threads
  quit : s.shared.fQuit = false
  fits : ∀ position ∈ s.threads, Fits check s.added position
  /-- A check that was taken has succeeded or is in the hands of a thread. -/
  passed : s.shared.fAllOk = true → ∀ c ∈ takenChecks s.taken,
    check c = true ∨ ∃ position ∈ s.threads, c ∈ position.batch
  failed : s.shared.fAllOk = false → ∃ c ∈ s.added, check c = false

theorem start_sound (nBatchSizeIn workers : Nat) :
    Sound check (start nBatchSizeIn workers : Checkers T) := by
  have outsiders : ∀ position ∈ List.replicate (workers + 1) (.outside : Position T),
      position = .outside := fun position member => List.eq_of_mem_replicate member
  constructor
  · exact .refl _
  · simp [start, CCheckQueue.new, Weights.weigh_replicate, Position.held]
  · simp [start, CCheckQueue.new, Weights.weigh_replicate, Position.held]
  · simp [start, CCheckQueue.new, Weights.weigh_replicate, Position.idle]
  · simp [start, CCheckQueue.new, Weights.weigh_replicate, Position.counted]
  · rfl
  · intro position member
    rw [outsiders position member]
    trivial
  · intro _ c member
    cases member
  · intro failed
    cases failed

/-! ## Threads that change their place -/

theorem mem_set_of_mem (threads : List (Position T)) (thread : Nat) (old new position : Position T)
    (here : threads[thread]? = some old) (member : position ∈ threads) :
    position = old ∨ position ∈ threads.set thread new := by
  obtain ⟨i, place⟩ := List.getElem?_of_mem member
  by_cases same : i = thread
  · subst same
    rw [here, Option.some.injEq] at place
    exact .inl place.symm
  · refine .inr (List.mem_of_getElem? (i := i) ?_)
    rw [List.getElem?_set_ne (Ne.symm same), place]

theorem mem_set_self (threads : List (Position T)) (thread : Nat) (old new : Position T)
    (here : threads[thread]? = some old) : new ∈ threads.set thread new := by
  have within := (List.getElem?_eq_some_iff.mp here).1
  exact List.mem_of_getElem? (List.getElem?_set_self within)

/-- The master is still asleep after another place has changed. -/
theorem sleeping_before (threads : List (Position T)) (thread : Nat) (new : Position T)
    (awake : new ≠ .waiting false)
    (sleeping : (threads.set thread new)[0]? = some (.waiting false)) :
    threads[0]? = some (.waiting false) := by
  by_cases own : thread = 0
  · subst own
    rw [List.getElem?_set] at sleeping
    split at sleeping
    · split at sleeping
      · exact absurd (Option.some.inj sleeping) awake
      · cases sleeping
    · exact sleeping
  · rwa [List.getElem?_set_ne own] at sleeping

/-- Some of the threads are notified. -/
abbrev Notified (threads others : List (Position T)) : Prop :=
  List.Forall₂ (fun old new => new = old ∨ new = old.notify) threads others

theorem notify_weight {β : Sort v} (weight : Position T → β) (old new : Position T)
    (keeps : ∀ notified, weight (.waiting notified) = weight (.waiting true))
    (change : new = old ∨ new = old.notify) : weight new = weight old := by
  rcases change with rfl | rfl
  · rfl
  · cases old with
    | waiting notified => exact (keeps notified).symm
    | outside => rfl
    | locked => rfl
    | working passed vChecks nNow fOk => rfl

theorem notified_mem (threads others : List (Position T)) (notified : Notified threads others) :
    (∀ new ∈ others, ∃ old ∈ threads, new = old ∨ new = old.notify) ∧
      ∀ old ∈ threads, ∃ new ∈ others, new = old ∨ new = old.notify := by
  induction notified with
  | nil =>
      constructor
      · intro position member
        cases member
      · intro position member
        cases member
  | @cons old new _ _ first _ ih =>
      constructor
      · intro position member
        rcases List.mem_cons.mp member with rfl | member
        · exact ⟨old, List.mem_cons_self, first⟩
        · obtain ⟨before, among, change⟩ := ih.1 position member
          exact ⟨before, List.mem_cons_of_mem _ among, change⟩
      · intro position member
        rcases List.mem_cons.mp member with rfl | member
        · exact ⟨new, List.mem_cons_self, first⟩
        · obtain ⟨after, among, change⟩ := ih.2 position member
          exact ⟨after, List.mem_cons_of_mem _ among, change⟩

theorem notified_sound (s : Checkers T) (threads : List (Position T)) (sound : Sound check s)
    (notified : Notified s.threads threads) : Sound check { s with threads } := by
  have same (weight : Position T → Nat)
      (keeps : ∀ notified, weight (.waiting notified) = weight (.waiting true)) :
      Weights.weigh weight threads = Weights.weigh weight s.threads :=
    Weights.weigh_exchange weight s.threads threads _
      (fun old new => notify_weight weight old new keeps) notified
  obtain ⟨back, forth⟩ := notified_mem s.threads threads notified
  constructor
  · exact sound.queued
  · rw [same Position.held fun _ => rfl]
    exact sound.todo
  · rw [same Position.held fun _ => rfl]
    exact sound.within
  · rw [same Position.idle fun _ => rfl]
    exact sound.idle
  · rw [same Position.counted fun _ => rfl]
    exact sound.total
  · exact sound.quit
  · intro new member
    obtain ⟨old, among, change⟩ := back new member
    rw [notify_weight (Fits check s.added) old new (fun _ => rfl) change]
    exact sound.fits old among
  · intro good c member
    rcases sound.passed good c member with checked | ⟨old, among, inside⟩
    · exact .inl checked
    · obtain ⟨new, still, change⟩ := forth old among
      refine .inr ⟨new, still, ?_⟩
      rwa [notify_weight Position.batch old new (fun _ => rfl) change]
  · exact sound.failed

/-- More checks were added. -/
theorem fits_append (added more : List T) (position : Position T)
    (fits : Fits check added position) : Fits check (added ++ more) position := by
  cases position with
  | working passed vChecks nNow fOk =>
      have fits : Working check added passed vChecks nNow fOk := fits
      refine ⟨fits.size, ?_, fits.ready, fits.good, fun wrong => ?_⟩
      · exact fun c member => List.mem_append_left more (fits.known c member)
      · obtain ⟨c, member, fails⟩ := fits.bad wrong
        exact ⟨c, List.mem_append_left more member, fails⟩
  | outside => trivial
  | waiting notified => trivial
  | locked => trivial

/-- What another place does for the checks of the one that changes. -/
theorem passed_set (taken : List T) (threads : List (Position T)) (thread : Nat)
    (old new : Position T) (here : threads[thread]? = some old)
    (covered : ∀ c ∈ old.batch, check c = true ∨ c ∈ new.batch)
    (passed : ∀ c ∈ taken, check c = true ∨ ∃ position ∈ threads, c ∈ position.batch) :
    ∀ c ∈ taken, check c = true ∨ ∃ position ∈ threads.set thread new, c ∈ position.batch := by
  intro c member
  rcases passed c member with checked | ⟨position, among, inside⟩
  · exact .inl checked
  · rcases mem_set_of_mem threads thread old new position here among with rfl | still
    · rcases covered c inside with checked | inside
      · exact .inl checked
      · exact .inr ⟨new, mem_set_self threads thread position new here, inside⟩
    · exact .inr ⟨position, still, inside⟩

theorem fits_set (added : List T) (threads : List (Position T)) (thread : Nat) (new : Position T)
    (fits : ∀ position ∈ threads, Fits check added position) (own : Fits check added new) :
    ∀ position ∈ threads.set thread new, Fits check added position := by
  intro position member
  rcases List.mem_or_eq_of_mem_set member with before | rfl
  · exact fits position before
  · exact own

/-- A thread goes on with its own work, outside the critical sections. -/
theorem move_sound (s : Checkers T) (thread : Nat) (old new : Position T) (sound : Sound check s)
    (here : s.threads[thread]? = some old) (held : new.held = old.held)
    (idle : new.idle = old.idle) (counted : new.counted = old.counted)
    (batch : new.batch = old.batch) (fits : Fits check s.added new) :
    Sound check (s.move thread new) := by
  have same_held := Weights.weigh_set Position.held s.threads thread old new here
  have same_idle := Weights.weigh_set Position.idle s.threads thread old new here
  have same_counted := Weights.weigh_set Position.counted s.threads thread old new here
  rw [held, Nat.add_right_cancel_iff] at same_held
  rw [idle, Nat.add_right_cancel_iff] at same_idle
  rw [counted, Nat.add_right_cancel_iff] at same_counted
  constructor
  · exact sound.queued
  · rw [move, same_held]
    exact sound.todo
  · rw [move, same_held]
    exact sound.within
  · rw [move, same_idle]
    exact sound.idle
  · rw [move, same_counted]
    exact sound.total
  · exact sound.quit
  · exact fits_set check s.added s.threads thread new sound.fits fits
  · intro good
    exact passed_set check _ s.threads thread old new here
      (fun c inside => .inr (by rwa [batch])) (sound.passed good)
  · exact sound.failed

theorem wake_sound (s : Checkers T) (thread : Nat) (notified : Bool) (sound : Sound check s)
    (here : s.threads[thread]? = some (.waiting notified)) : Sound check (s.wake thread) := by
  have same_held := Weights.weigh_set Position.held s.threads thread _ .locked here
  have less_idle := Weights.weigh_set Position.idle s.threads thread _ .locked here
  have same_counted := Weights.weigh_set Position.counted s.threads thread _ .locked here
  simp only [Position.held, Position.idle, Nat.add_zero] at same_held less_idle
  simp only [Position.counted] at same_counted
  constructor
  · exact sound.queued
  · simp only [wake, move, same_held]
    exact sound.todo
  · simp only [wake, move, same_held]
    exact sound.within
  · simp only [wake, move, sound.idle]
    omega
  · simp only [wake, move, sound.total]
    omega
  · exact sound.quit
  · exact fits_set check s.added s.threads thread .locked sound.fits trivial
  · intro good
    exact passed_set check _ s.threads thread _ .locked here (fun c inside => by cases inside)
      (sound.passed good)
  · exact sound.failed

/-! ## The critical sections -/

theorem cleanUp_first (q : CCheckQueue T) (fOk : Bool) :
    q.cleanUp 0 fOk = { q with nTotal := q.nTotal + 1 } := rfl

theorem cleanUp_next (q : CCheckQueue T) (nNow : Nat) (fOk : Bool) (positive : nNow ≠ 0) :
    q.cleanUp nNow fOk =
      { q with fAllOk := q.fAllOk && fOk, nTodo := q.nTodo - BitVec.ofNat 32 nNow } := by
  rw [CCheckQueue.cleanUp, if_pos positive]

/-- The first critical section of a thread. -/
theorem finish_first (s : Checkers T) (thread : Nat) (sound : Sound check s)
    (fOk : Bool) (here : s.threads[thread]? = some (.working [] [] 0 fOk)) :
    Sound check (s.finish thread 0 fOk) := by
  have same_held := Weights.weigh_set Position.held s.threads thread _ .locked here
  have same_idle := Weights.weigh_set Position.idle s.threads thread _ .locked here
  have more_counted := Weights.weigh_set Position.counted s.threads thread _ .locked here
  simp only [Position.held, Position.idle, Nat.add_zero] at same_held same_idle
  simp only [Position.counted, if_true, Nat.add_zero] at more_counted
  have plain : s.finish thread 0 fOk =
      { s.move thread .locked with shared := { s.shared with nTotal := s.shared.nTotal + 1 } } := by
    rw [finish, if_neg (by simp), cleanUp_first]
  rw [plain]
  constructor
  · exact sound.queued
  · simp only [move, same_held]
    exact sound.todo
  · simp only [move, same_held]
    exact sound.within
  · simp only [move, same_idle]
    exact sound.idle
  · simp only [move, more_counted, sound.total]
  · exact sound.quit
  · exact fits_set check s.added s.threads thread .locked sound.fits trivial
  · intro good
    exact passed_set check _ s.threads thread _ .locked here (fun c inside => by cases inside)
      (sound.passed good)
  · exact sound.failed

theorem finish_next (s : Checkers T) (thread nNow : Nat) (passed : List T) (fOk : Bool)
    (sound : Sound check s) (positive : nNow ≠ 0)
    (here : s.threads[thread]? = some (.working passed [] nNow fOk)) :
    Sound check { s.move thread .locked with shared := s.shared.cleanUp nNow fOk } := by
  have less_held := Weights.weigh_set Position.held s.threads thread _ .locked here
  have same_idle := Weights.weigh_set Position.idle s.threads thread _ .locked here
  have same_counted := Weights.weigh_set Position.counted s.threads thread _ .locked here
  simp only [Position.held, Position.idle, Nat.add_zero] at less_held same_idle
  simp only [Position.counted, if_neg positive, Nat.add_right_cancel_iff] at same_counted
  have fits : Working check s.added passed [] nNow fOk :=
    sound.fits _ (List.mem_of_getElem? here)
  rw [cleanUp_next _ _ _ positive]
  constructor
  · exact sound.queued
  · simp only [move]
    rw [sound.todo, ← less_held, ← Nat.add_assoc, BitVec.ofNat_add _ nNow, BitVec.add_sub_cancel]
  · have before := sound.within
    simp only [move]
    omega
  · simp only [move, same_idle]
    exact sound.idle
  · simp only [move, same_counted]
    exact sound.total
  · exact sound.quit
  · exact fits_set check s.added s.threads thread .locked sound.fits trivial
  · intro good
    rw [Bool.and_eq_true] at good
    refine passed_set check _ s.threads thread _ .locked here ?_ (sound.passed good.1)
    intro c inside
    rw [Position.batch, List.append_nil] at inside
    exact .inl (fits.good good.2 c inside)
  · intro bad
    rw [Bool.and_eq_false_iff] at bad
    rcases bad with before | own
    · exact sound.failed before
    · exact fits.bad own

theorem finish_sound (s : Checkers T) (thread nNow : Nat) (passed : List T) (fOk : Bool)
    (sound : Sound check s) (here : s.threads[thread]? = some (.working passed [] nNow fOk)) :
    Sound check (s.finish thread nNow fOk) := by
  by_cases positive : nNow = 0
  · subst positive
    have fits : Working check s.added passed [] 0 fOk := sound.fits _ (List.mem_of_getElem? here)
    have size := fits.size
    rw [List.append_nil] at size
    rw [List.length_eq_zero_iff.mp size.symm] at here
    exact finish_first check s thread sound fOk here
  · have cleaned := finish_next check s thread nNow passed fOk sound positive here
    rw [finish]
    split
    · exact notified_sound check _ _ cleaned (Weights.exchange_modify _ 0 Position.notify)
    · exact cleaned

/-- With nothing queued and nothing to do, no thread holds a batch. -/
theorem drained (s : Checkers T) (sound : Sound check s) (few : s.added.length < 2 ^ 32)
    (empty : s.shared.queue = []) (done : s.shared.nTodo = 0) :
    Weights.weigh Position.held s.threads = 0 := by
  have todo := sound.todo
  have within := sound.within
  rw [empty, List.length_nil, Nat.zero_add] at todo within
  rw [done] at todo
  have value := congrArg BitVec.toNat todo
  rw [BitVec.toNat_ofNat, Nat.mod_eq_of_lt (by omega)] at value
  exact value.symm

theorem leave_sound (s : Checkers T) (sound : Sound check s) (few : s.added.length < 2 ^ 32)
    (here : s.threads[0]? = some .locked) (empty : s.shared.queue = [])
    (done : s.shared.nTodo = 0) : Sound check (s.leave 0) := by
  have same_held := Weights.weigh_set Position.held s.threads 0 _ .outside here
  have same_idle := Weights.weigh_set Position.idle s.threads 0 _ .outside here
  have less_counted := Weights.weigh_set Position.counted s.threads 0 _ .outside here
  have nothing := drained check s sound few empty done
  simp only [Position.held, Position.idle, Nat.add_zero] at same_held same_idle
  simp only [Position.counted, Nat.add_zero] at less_counted
  rw [leave, if_pos rfl]
  constructor
  · simp only [empty]
    exact .refl _
  · simp only [move, same_held, empty, nothing, done]
    rfl
  · simp only [move, same_held, empty, nothing]
    exact Nat.le_refl _
  · simp only [move, same_idle]
    exact sound.idle
  · simp only [move, sound.total]
    omega
  · exact sound.quit
  · refine fits_set check [] s.threads 0 .outside ?_ trivial
    intro position member
    have fits := sound.fits position member
    cases position with
    | working passed vChecks nNow fOk =>
        obtain ⟨i, place⟩ := List.getElem?_of_mem member
        have none_held := Weights.weight_le Position.held s.threads i _ place
        rw [nothing] at none_held
        have zero : nNow = 0 := Nat.le_zero.mp none_held
        have fits : Working check s.added passed vChecks nNow fOk := fits
        have batch : passed ++ vChecks = [] := by
          rw [← List.length_eq_zero_iff, ← fits.size, zero]
        refine ⟨fits.size, fun c inside => ?_, fits.ready, fits.good, fun wrong => ?_⟩
        · rw [batch] at inside
          cases inside
        · rw [fits.ready zero] at wrong
          cases wrong
    | outside => trivial
    | waiting notified => trivial
    | locked => trivial
  · intro _ c member
    cases member
  · intro wrong
    cases wrong

theorem sleep_sound (s : Checkers T) (thread : Nat) (sound : Sound check s)
    (here : s.threads[thread]? = some .locked) : Sound check (s.sleep thread) := by
  have same_held := Weights.weigh_set Position.held s.threads thread _ (.waiting false) here
  have more_idle := Weights.weigh_set Position.idle s.threads thread _ (.waiting false) here
  have same_counted := Weights.weigh_set Position.counted s.threads thread _ (.waiting false) here
  simp only [Position.held, Position.idle, Nat.add_zero] at same_held more_idle
  simp only [Position.counted, Nat.add_right_cancel_iff] at same_counted
  constructor
  · exact sound.queued
  · simp only [sleep, move, same_held]
    exact sound.todo
  · simp only [sleep, move, same_held]
    exact sound.within
  · simp only [sleep, move, more_idle, sound.idle]
  · simp only [sleep, move, same_counted]
    exact sound.total
  · exact sound.quit
  · exact fits_set check s.added s.threads thread (.waiting false) sound.fits trivial
  · intro good
    exact passed_set check _ s.threads thread _ (.waiting false) here
      (fun c inside => by cases inside) (sound.passed good)
  · exact sound.failed

theorem nextBatch_pos (q : CCheckQueue T) : 0 < q.nextBatch := by
  rw [CCheckQueue.nextBatch]
  omega

theorem nextBatch_le (q : CCheckQueue T) (nonempty : q.queue ≠ []) :
    q.nextBatch ≤ q.queue.length := by
  have positive : 0 < q.queue.length := List.length_pos_iff.mpr nonempty
  have shared : q.queue.length % 2 ^ 32 / (q.nTotal + q.nIdle + 1) ≤ q.queue.length :=
    Nat.le_trans (Nat.div_le_self _ _) (Nat.mod_le _ _)
  rw [CCheckQueue.nextBatch]
  omega

theorem take_sound (s : Checkers T) (thread : Nat) (sound : Sound check s)
    (here : s.threads[thread]? = some .locked) (nonempty : s.shared.queue ≠ []) :
    Sound check (s.take thread) := by
  have positive := nextBatch_pos s.shared
  have enough := nextBatch_le s.shared nonempty
  rw [take]
  generalize s.shared.nextBatch = nNow at positive enough
  have split : s.shared.queue.take nNow ++ s.shared.queue.drop nNow = s.shared.queue :=
    List.take_append_drop nNow s.shared.queue
  have size : (s.shared.queue.take nNow).length = nNow := List.length_take_of_le enough
  have rest : (s.shared.queue.drop nNow).length + nNow = s.shared.queue.length := by
    rw [List.length_drop]
    omega
  revert split size rest
  generalize s.shared.queue.take nNow = vChecks
  generalize s.shared.queue.drop nNow = queue
  intro split size rest
  have more_held := Weights.weigh_set Position.held s.threads thread _
    (.working [] vChecks nNow s.shared.fAllOk) here
  have same_idle := Weights.weigh_set Position.idle s.threads thread _
    (.working [] vChecks nNow s.shared.fAllOk) here
  have same_counted := Weights.weigh_set Position.counted s.threads thread _
    (.working [] vChecks nNow s.shared.fAllOk) here
  simp only [Position.held, Position.idle, Nat.add_zero] at more_held same_idle
  simp only [Position.counted, if_neg (Nat.ne_of_gt positive),
    Nat.add_right_cancel_iff] at same_counted
  have held : queue.length + (Weights.weigh Position.held s.threads + nNow) =
      s.shared.queue.length + Weights.weigh Position.held s.threads := by omega
  constructor
  · have before := sound.queued
    rw [← split] at before
    simp only [takenChecks, List.flatMap_append, List.flatMap_cons, List.flatMap_nil,
      List.append_nil]
    refine before.trans ?_
    rw [List.append_assoc]
    refine (List.perm_append_comm).trans ?_
    rw [List.append_assoc]
    exact .refl _
  · simp only [move, more_held, held]
    exact sound.todo
  · simp only [move, more_held, held]
    exact sound.within
  · simp only [move, same_idle]
    exact sound.idle
  · simp only [move, same_counted]
    exact sound.total
  · exact sound.quit
  · refine fits_set check s.added s.threads thread _ sound.fits ?_
    refine ⟨size.symm, fun c inside => ?_, fun zero => absurd zero (Nat.ne_of_gt positive),
      fun _ c inside => ?_, sound.failed⟩
    · rw [sound.queued.mem_iff, ← split]
      exact List.mem_append_left _ (List.mem_append_left _ inside)
    · cases inside
  · intro good c member
    simp only [takenChecks, List.flatMap_append, List.flatMap_cons, List.flatMap_nil,
      List.append_nil, List.mem_append] at member
    rcases member with before | own
    · exact passed_set check _ s.threads thread _ _ here (fun c inside => by cases inside)
        (sound.passed good) c before
    · exact .inr ⟨_, mem_set_self s.threads thread _ _ here, own⟩
  · exact sound.failed

theorem proceed_sound (s : Checkers T) (thread : Nat) (sound : Sound check s)
    (few : s.added.length < 2 ^ 32) (here : s.threads[thread]? = some .locked) :
    Sound check (s.proceed thread) := by
  rw [proceed]
  split
  · rename_i empty
    split
    · rename_i returns
      rcases returns.1 with rfl | quit
      · exact leave_sound check s sound few here empty returns.2
      · rw [sound.quit] at quit
        cases quit
    · exact sleep_sound check s thread sound here
  · rename_i nonempty
    exact take_sound check s thread sound here nonempty

theorem notifyWorkers_notified (count chosen : Nat) (workers : List (Position T)) :
    Notified workers (notifyWorkers count chosen workers) := by
  rw [notifyWorkers]
  split
  · exact Weights.exchange_modify workers chosen Position.notify
  · split
    · exact Weights.exchange_map workers Position.notify
    · exact Weights.exchange_refl workers Position.notify

theorem add_sound (s : Checkers T) (vChecks : List T) (chosen : Nat) (sound : Sound check s) :
    Sound check (s.add vChecks chosen) := by
  rw [add]
  split
  · rename_i workers front
    have added : Sound check
        { s with shared := s.shared.add vChecks, added := s.added ++ vChecks } := by
      constructor
      · refine (sound.queued.append_right vChecks).trans ?_
        refine List.perm_append_comm.trans ?_
        rw [CCheckQueue.add, List.append_assoc]
        exact (List.reverse_perm vChecks).symm.append_right _
      · have size : (vChecks.reverse ++ s.shared.queue).length = 
            s.shared.queue.length + vChecks.length := by
          rw [List.length_append, List.length_reverse, Nat.add_comm]
        simp only [CCheckQueue.add, size]
        rw [sound.todo, ← BitVec.ofNat_add]
        exact congrArg (BitVec.ofNat 32) (by omega)
      · have before := sound.within
        simp only [CCheckQueue.add, List.length_append, List.length_reverse]
        omega
      · exact sound.idle
      · exact sound.total
      · exact sound.quit
      · exact fun position member =>
          fits_append check s.added vChecks position (sound.fits position member)
      · exact sound.passed
      · intro wrong
        obtain ⟨c, member, fails⟩ := sound.failed wrong
        exact ⟨c, List.mem_append_left vChecks member, fails⟩
    refine notified_sound check _ (.outside :: notifyWorkers vChecks.length chosen workers) added ?_
    simp only [front]
    exact .cons (.inl rfl) (notifyWorkers_notified _ _ _)
  · exact sound

theorem finish_here (s : Checkers T) (thread nNow : Nat) (fOk : Bool) (old : Position T)
    (here : s.threads[thread]? = some old) :
    (s.finish thread nNow fOk).threads[thread]? = some .locked := by
  have within := (List.getElem?_eq_some_iff.mp here).1
  have locked : (s.threads.set thread .locked)[thread]? = some .locked :=
    List.getElem?_set_self within
  rw [finish]
  split
  · rename_i notifies
    simp only [move]
    rw [List.getElem?_modify, locked, Option.map_eq_map, Option.map_some,
      if_neg (Ne.symm notifies.2.2)]
  · exact locked

theorem wake_here (s : Checkers T) (thread : Nat) (old : Position T)
    (here : s.threads[thread]? = some old) : (s.wake thread).threads[thread]? = some .locked :=
  List.getElem?_set_self (List.getElem?_eq_some_iff.mp here).1

theorem finish_added (s : Checkers T) (thread nNow : Nat) (fOk : Bool) :
    (s.finish thread nNow fOk).added = s.added := by
  rw [finish]
  split <;> rfl

/-- A thread that has just entered `Loop`. -/
theorem working_start (added : List T) : Working check added [] [] 0 true := by
  refine ⟨rfl, ?_, fun _ => rfl, ?_, ?_⟩
  · intro c member
    cases member
  · intro _ c member
    cases member
  · intro wrong
    cases wrong

/-- One more check of the batch is evaluated, or passed over. -/
theorem working_next (added passed vChecks : List T) (next : T) (nNow : Nat) (fOk : Bool)
    (fits : Working check added passed (next :: vChecks) nNow fOk) :
    Working check added (passed ++ [next]) vChecks nNow (if fOk then check next else fOk) := by
  have batch : passed ++ [next] ++ vChecks = passed ++ next :: vChecks := by
    rw [List.append_assoc, List.singleton_append]
  have member : next ∈ passed ++ next :: vChecks := by simp
  have positive : nNow ≠ 0 := by
    rw [fits.size, List.length_append, List.length_cons]
    omega
  refine ⟨?_, ?_, fun zero => absurd zero positive, ?_, ?_⟩
  · rw [batch]
    exact fits.size
  · rw [batch]
    exact fits.known
  · intro succeeds c inside
    cases fOk with
    | false => cases succeeds
    | true =>
        rcases List.mem_append.mp inside with before | own
        · exact fits.good rfl c before
        · rw [List.mem_singleton.mp own]
          exact succeeds
  · intro fails
    cases fOk with
    | false => exact fits.bad rfl
    | true => exact ⟨next, fits.known next member, fails⟩

theorem run_sound (s : Checkers T) (thread : Nat) (sound : Sound check s)
    (few : s.added.length < 2 ^ 32) : Sound check (s.run check thread) := by
  rw [run]
  split
  · exact sound
  · rename_i here
    exact move_sound check s thread .outside _ sound here rfl rfl rfl rfl
      (working_start check s.added)
  · rename_i notified here
    exact proceed_sound check _ thread (wake_sound check s thread notified sound here) few
      (wake_here s thread _ here)
  · rename_i here
    exact proceed_sound check s thread sound few here
  · rename_i passed next vChecks nNow fOk here
    refine move_sound check s thread _ _ sound here rfl rfl rfl ?_
      (working_next check s.added passed vChecks next nNow fOk
        (sound.fits _ (List.mem_of_getElem? here)))
    rw [Position.batch, Position.batch, List.append_assoc, List.singleton_append]
  · rename_i passed nNow fOk here
    refine proceed_sound check _ thread (finish_sound check s thread nNow passed fOk sound here) ?_
      (finish_here s thread nNow fOk _ here)
    rw [finish_added]
    exact few

theorem step_sound (s : Checkers T) (action : QueueAction T) (sound : Sound check s)
    (few : s.added.length < 2 ^ 32) : Sound check (s.step check action) := by
  cases action with
  | add vChecks chosen => exact add_sound check s vChecks chosen sound
  | run thread => exact run_sound check s thread sound few

end Checkers

end RoiCoin
