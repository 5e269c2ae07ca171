import RoiCoin.CheckQueue

/-! What `Wait` returns, and that it does. -/

namespace RoiCoin

namespace Checkers

universe u

variable {T : Type u} (check : T → Bool)

/-! ## The master is told when the work is done -/

/-- The master sleeps only while others have work in hand, of which they will tell it. -/
def Told (s : Checkers T) : Prop :=
  s.threads[0]? = some (.waiting false) → s.shared.queue = [] ∧ s.shared.nTodo ≠ 0

/-- No thread but this one is in a critical section. -/
def Exclusive (s : Checkers T) (thread : Nat) : Prop :=
  ∀ other : Nat, other ≠ thread → s.threads[other]? ≠ some .locked

/-- No thread stands in a critical section between two steps. -/
def Rested (s : Checkers T) : Prop := .locked ∉ s.threads

theorem told_move (s : Checkers T) (thread : Nat) (new : Position T) (told : Told s)
    (awake : new ≠ .waiting false) : Told (s.move thread new) :=
  fun sleeping => told (sleeping_before s.threads thread new awake sleeping)

theorem told_wake (s : Checkers T) (thread : Nat) (told : Told s) : Told (s.wake thread) :=
  fun sleeping => told (sleeping_before s.threads thread .locked (by simp) sleeping)

theorem told_finish (s : Checkers T) (thread nNow : Nat) (fOk : Bool) (told : Told s) :
    Told (s.finish thread nNow fOk) := by
  rw [finish]
  split
  · intro sleeping
    simp only [List.getElem?_modify, if_true, Option.map_eq_map, Option.map_eq_some_iff] at sleeping
    obtain ⟨old, -, notified⟩ := sleeping
    cases old <;> cases notified
  · rename_i silent
    intro sleeping
    have before := sleeping_before s.threads thread .locked (by simp) sleeping
    obtain ⟨empty, todo⟩ := told before
    by_cases positive : nNow = 0
    · subst positive
      exact ⟨empty, todo⟩
    · rw [cleanUp_next _ _ _ positive] at silent ⊢
      refine ⟨empty, fun done => silent ⟨positive, done, ?_⟩⟩
      rintro rfl
      have within := (List.getElem?_eq_some_iff.mp before).1
      have locked : (s.threads.set 0 .locked)[0]? = some .locked := List.getElem?_set_self within
      exact absurd (locked.symm.trans sleeping) (by simp)

theorem told_proceed (s : Checkers T) (thread : Nat) (told : Told s) : Told (s.proceed thread) := by
  rw [proceed]
  split
  · rename_i empty
    split
    · intro sleeping
      have before : s.threads[0]? = some (.waiting false) := by
        refine sleeping_before s.threads thread .outside (by simp) ?_
        rw [leave] at sleeping
        split at sleeping <;> exact sleeping
      have todo := told before
      rename_i returns
      exact absurd returns.2 todo.2
    · rename_i stays
      intro sleeping
      refine ⟨empty, fun done => ?_⟩
      by_cases own : thread = 0
      · exact stays ⟨.inl own, done⟩
      · refine (told ?_).2 done
        rwa [sleep, move, List.getElem?_set_ne own] at sleeping
  · rename_i nonempty
    intro sleeping
    have before := sleeping_before s.threads thread _ (by simp) sleeping
    exact absurd (told before).1 nonempty

theorem told_step (s : Checkers T) (action : QueueAction T) (told : Told s) :
    Told (s.step check action) := by
  cases action with
  | add vChecks chosen =>
      rw [step, add]
      split
      · intro sleeping
        cases sleeping
      · exact told
  | run thread =>
      rw [step, run]
      split
      · exact told
      · exact told_move s thread _ told (by simp)
      · exact told_proceed _ thread (told_wake s thread told)
      · exact told_proceed s thread told
      · exact told_move s thread _ told (by simp)
      · exact told_proceed _ thread (told_finish s thread _ _ told)

/-! ## One critical section at a time -/

theorem exclusive_set (s : Checkers T) (thread : Nat) (rested : Rested s) :
    Exclusive (s.move thread .locked) thread := by
  intro other different locked
  rw [move, List.getElem?_set_ne (Ne.symm different)] at locked
  exact rested (List.mem_of_getElem? locked)

theorem exclusive_finish (s : Checkers T) (thread nNow : Nat) (fOk : Bool) (rested : Rested s) :
    Exclusive (s.finish thread nNow fOk) thread := by
  have exclusive := exclusive_set s thread rested
  rw [finish]
  split
  · intro other different locked
    simp only [List.getElem?_modify, Option.map_eq_map, Option.map_eq_some_iff] at locked
    obtain ⟨old, here, notified⟩ := locked
    refine exclusive other different ?_
    have same : old = .locked := by
      split at notified
      · cases old <;> first | rfl | cases notified
      · exact notified
    rwa [same] at here
  · exact exclusive

theorem rested_move (s : Checkers T) (thread : Nat) (new : Position T)
    (exclusive : Exclusive s thread) (leaves : new ≠ .locked) : Rested (s.move thread new) := by
  intro member
  obtain ⟨other, locked⟩ := List.getElem?_of_mem member
  by_cases own : other = thread
  · subst own
    rw [move, List.getElem?_set] at locked
    simp only [if_true] at locked
    split at locked
    · exact leaves (Option.some.inj locked)
    · cases locked
  · rw [move, List.getElem?_set_ne (Ne.symm own)] at locked
    exact exclusive other own locked

theorem rested_proceed (s : Checkers T) (thread : Nat) (exclusive : Exclusive s thread) :
    Rested (s.proceed thread) := by
  rw [proceed]
  split
  · split
    · have left := rested_move s thread .outside exclusive (by simp)
      rw [leave]
      split <;> exact left
    · exact rested_move s thread (.waiting false) exclusive (by simp)
  · exact rested_move s thread _ exclusive (by simp)

theorem rested_exclusive (s : Checkers T) (thread : Nat) (rested : Rested s) :
    Exclusive s thread :=
  fun _ _ locked => rested (List.mem_of_getElem? locked)

theorem rested_step (s : Checkers T) (action : QueueAction T) (rested : Rested s) :
    Rested (s.step check action) := by
  cases action with
  | add vChecks chosen =>
      rw [step, add]
      split
      · rename_i workers front
        intro member
        rcases List.mem_cons.mp member with special | member
        · cases special
        · obtain ⟨old, among, change⟩ :=
            (notified_mem _ _ (notifyWorkers_notified vChecks.length chosen workers)).1 _ member
          have same : old = .locked := by
            rcases change with same | notified
            · exact same.symm
            · cases old <;> first | rfl | cases notified
          rw [same] at among
          exact rested (by rw [front]; exact List.mem_cons_of_mem _ among)
      · exact rested
  | run thread =>
      have exclusive := rested_exclusive s thread rested
      rw [step, run]
      split
      · exact rested
      · exact rested_move s thread _ exclusive (by simp)
      · exact rested_proceed _ thread (exclusive_set s thread rested)
      · exact rested_proceed s thread exclusive
      · exact rested_move s thread _ exclusive (by simp)
      · exact rested_proceed _ thread (exclusive_finish s thread _ _ rested)

/-! ## The value returned -/

/-- The round returned what evaluating its checks one after the other gives, and each check went to
one thread. -/
def Agrees (round : Round T) : Prop :=
  round.fRet = round.added.all check ∧ round.added.Perm (takenChecks round.taken)

/-- No batch is in hand where nothing is left to do. -/
theorem no_batch (s : Checkers T) (sound : Sound check s) (few : s.added.length < 2 ^ 32)
    (empty : s.shared.queue = []) (done : s.shared.nTodo = 0) (position : Position T)
    (member : position ∈ s.threads) : position.held = 0 ∧ position.batch = [] := by
  obtain ⟨i, place⟩ := List.getElem?_of_mem member
  have weight := Weights.weight_le Position.held s.threads i position place
  rw [drained check s sound few empty done, Nat.le_zero] at weight
  refine ⟨weight, ?_⟩
  cases position with
  | working passed vChecks nNow fOk =>
      have fits : Working check s.added passed vChecks nNow fOk := sound.fits _ member
      rw [Position.batch, ← List.length_eq_zero_iff, ← fits.size]
      exact weight
  | outside => rfl
  | waiting notified => rfl
  | locked => rfl

theorem round_agrees (s : Checkers T) (sound : Sound check s) (few : s.added.length < 2 ^ 32)
    (empty : s.shared.queue = []) (done : s.shared.nTodo = 0) :
    Agrees check ⟨s.added, s.taken, s.shared.fAllOk⟩ := by
  have queued := sound.queued
  rw [empty, List.nil_append] at queued
  refine ⟨?_, queued⟩
  cases good : s.shared.fAllOk with
  | false =>
      obtain ⟨c, member, fails⟩ := sound.failed good
      exact (List.all_eq_false.mpr ⟨c, member, by simp [fails]⟩).symm
  | true =>
      refine (List.all_eq_true.mpr fun c member => ?_).symm
      rcases sound.passed good c (queued.mem_iff.mp member) with succeeds | ⟨position, among, inside⟩
      · exact succeeds
      · rw [(no_batch check s sound few empty done position among).2] at inside
        cases inside

/-- What the next block finds. -/
structure Reset (s : Checkers T) : Prop where
  queue : s.shared.queue = []
  nTodo : s.shared.nTodo = 0
  fAllOk : s.shared.fAllOk = true
  isIdle : s.shared.isIdle = true

/-- A step either returns from `Wait`, with the right value, or ends no round. -/
def RoundStep (s s' : Checkers T) : Prop :=
  s'.rounds = s.rounds ∨
    (s'.rounds = s.rounds ++ [⟨s.added, s.taken, s.shared.fAllOk⟩] ∧
      Agrees check ⟨s.added, s.taken, s.shared.fAllOk⟩ ∧ Reset s')

theorem leave_idle (s : Checkers T) (sound : Sound check s) (few : s.added.length < 2 ^ 32)
    (here : s.threads[0]? = some .locked) (exclusive : Exclusive s 0) (empty : s.shared.queue = [])
    (done : s.shared.nTodo = 0) : (s.leave 0).shared.nTotal = (s.leave 0).shared.nIdle := by
  have left := leave_sound check s sound few here empty done
  have rested : Rested (s.move 0 .outside) := rested_move s 0 .outside exclusive (by simp)
  rw [left.total, left.idle]
  refine congrArg List.sum (List.map_congr_left fun position member => ?_)
  rw [leave, if_pos rfl] at member
  rcases List.mem_or_eq_of_mem_set member with among | rfl
  · have none_held := (no_batch check s sound few empty done position among).1
    cases position with
    | working passed vChecks nNow fOk => exact if_pos none_held
    | outside => rfl
    | waiting notified => rfl
    | locked => exact absurd member rested
  · rfl

theorem proceed_round (s : Checkers T) (thread : Nat) (sound : Sound check s)
    (few : s.added.length < 2 ^ 32) (here : s.threads[thread]? = some .locked)
    (exclusive : Exclusive s thread) : RoundStep check s (s.proceed thread) := by
  rw [proceed]
  split
  · rename_i empty
    split
    · rename_i returns
      rcases returns.1 with rfl | quit
      · have idle := leave_idle check s sound few here exclusive empty returns.2
        right
        refine ⟨rfl, round_agrees check s sound few empty returns.2, empty, returns.2, rfl, ?_⟩
        have todo : (s.leave 0).shared.nTodo = 0 := returns.2
        have good : (s.leave 0).shared.fAllOk = true := rfl
        rw [CCheckQueue.isIdle, idle, todo, good]
        simp
      · rw [sound.quit] at quit
        cases quit
    · exact .inl rfl
  · exact .inl rfl

theorem finish_rounds (s : Checkers T) (thread nNow : Nat) (fOk : Bool) :
    (s.finish thread nNow fOk).rounds = s.rounds := by
  rw [finish]
  split <;> rfl

/-- A step ends no round, or the one of the checks added so far. -/
theorem step_round (s : Checkers T) (action : QueueAction T) (sound : Sound check s)
    (rested : Rested s) (few : s.added.length < 2 ^ 32) :
    (s.step check action).rounds = s.rounds ∨
      ∃ round, (s.step check action).rounds = s.rounds ++ [round] ∧ round.added = s.added ∧
        Agrees check round ∧ Reset (s.step check action) := by
  cases action with
  | add vChecks chosen =>
      left
      rw [step, add]
      split <;> rfl
  | run thread =>
      have whole (middle : Checkers T) (rounds : middle.rounds = s.rounds)
          (added : middle.added = s.added) (sound : Sound check middle)
          (here : middle.threads[thread]? = some .locked) (exclusive : Exclusive middle thread) :
          (middle.proceed thread).rounds = s.rounds ∨
            ∃ round, (middle.proceed thread).rounds = s.rounds ++ [round] ∧
              round.added = s.added ∧ Agrees check round ∧ Reset (middle.proceed thread) := by
        rw [← added] at few
        rcases proceed_round check middle thread sound few here exclusive with
          same | ⟨more, agrees, reset⟩
        · exact .inl (same.trans rounds)
        · rw [rounds] at more
          exact .inr ⟨_, more, added, agrees, reset⟩
      rw [step, run]
      split
      · exact .inl rfl
      · exact .inl rfl
      · rename_i notified here
        exact whole _ rfl rfl (wake_sound check s thread notified sound here)
          (wake_here s thread _ here) (exclusive_set s thread rested)
      · rename_i here
        exact whole s rfl rfl sound here (rested_exclusive s thread rested)
      · exact .inl rfl
      · rename_i passed nNow fOk here
        exact whole _ (finish_rounds s thread nNow fOk) (finish_added s thread nNow fOk)
          (finish_sound check s thread nNow passed fOk sound here)
          (finish_here s thread nNow fOk _ here) (exclusive_finish s thread nNow fOk rested)

/-! ## `Wait` returns -/

/-- The master is in `Loop`. -/
def InWait (s : Checkers T) : Prop := ∃ position ∈ s.threads.head?, position ≠ .outside

/-- The thread can go on without a spurious wakeup. -/
def awake (s : Checkers T) (thread : Nat) : Bool :=
  match s.threads[thread]? with
  | some (.waiting notified) => notified
  | some .locked => true
  | some (.working _ _ _ _) => true
  | _ => false

def awakeStep (s : Checkers T) : QueueAction T → Bool
  | .add _ _ => false
  | .run thread => s.awake thread

/-- What a thread in this place may still do before it sleeps, the checks of the queue apart. -/
def exertion : Position T → Nat
  | .outside => 6
  | .waiting notified => if notified then 3 else 0
  | .locked => 2
  | .working _ vChecks _ _ => 5 + vChecks.length

def effort (s : Checkers T) : Nat :=
  8 * s.shared.queue.length + Weights.weigh exertion s.threads

theorem someone_awake (s : Checkers T) (sound : Sound check s) (told : Told s)
    (waits : InWait s) : ∃ thread, s.awake thread = true := by
  obtain ⟨position, front, inside⟩ := waits
  rw [List.head?_eq_getElem?] at front
  cases position with
  | outside => exact absurd rfl inside
  | locked => exact ⟨0, by rw [awake, front]⟩
  | working passed vChecks nNow fOk => exact ⟨0, by rw [awake, front]⟩
  | waiting notified =>
      cases notified with
      | true => exact ⟨0, by rw [awake, front]⟩
      | false =>
          obtain ⟨empty, todo⟩ := told front
          have held : 0 < Weights.weigh Position.held s.threads := by
            refine Nat.pos_of_ne_zero fun zero => todo ?_
            rw [sound.todo, empty, zero]
            rfl
          obtain ⟨thread, busy, here, positive⟩ := Weights.exists_weight _ s.threads held
          refine ⟨thread, ?_⟩
          rw [awake, here]
          cases busy with
          | working passed vChecks nNow fOk => rfl
          | outside => cases positive
          | waiting notified => cases positive
          | locked => cases positive

theorem effort_move (s : Checkers T) (thread : Nat) (old new : Position T)
    (here : s.threads[thread]? = some old) :
    (s.move thread new).effort + exertion old = s.effort + exertion new := by
  have change := Weights.weigh_set exertion s.threads thread old new here
  rw [effort, effort, move]
  simp only
  omega

theorem effort_finish (s : Checkers T) (thread nNow : Nat) (passed : List T) (fOk : Bool)
    (here : s.threads[thread]? = some (.working passed [] nNow fOk)) :
    (s.finish thread nNow fOk).effort ≤ s.effort := by
  have change := effort_move s thread _ .locked here
  simp only [exertion, List.length_nil] at change
  have queue : (s.shared.cleanUp nNow fOk).queue = s.shared.queue := by
    rw [CCheckQueue.cleanUp]
    split <;> rfl
  have front (threads : List (Position T)) :
      Weights.weigh exertion (threads.modify 0 Position.notify) ≤
        Weights.weigh exertion threads + 3 := by
    cases threads with
    | nil => exact Nat.zero_le _
    | cons first rest =>
        have more : exertion first.notify ≤ exertion first + 3 := by
          cases first <;> simp [Position.notify, exertion]
        simp only [Weights.weigh, List.modify_zero_cons, List.map_cons, List.sum_cons]
        omega
  rw [finish]
  split
  · have notified := front (s.threads.set thread .locked)
    simp only [effort, move, queue] at change ⊢
    omega
  · simp only [effort, move, queue] at change ⊢
    omega

theorem effort_proceed (s : Checkers T) (thread : Nat) (quit : s.shared.fQuit = false)
    (here : s.threads[thread]? = some .locked) (stays : InWait (s.proceed thread)) :
    (s.proceed thread).effort + 2 ≤ s.effort := by
  rw [proceed] at stays ⊢
  split at stays
  · rename_i empty
    rw [if_pos empty]
    split at stays
    · rename_i returns
      rcases returns.1 with rfl | wrong
      · obtain ⟨position, front, inside⟩ := stays
        rw [List.head?_eq_getElem?, leave, if_pos rfl] at front
        have gone : (s.threads.set 0 .outside)[0]? = some .outside :=
          List.getElem?_set_self (List.getElem?_eq_some_iff.mp here).1
        exact absurd (Option.some.inj (front.symm.trans gone)) inside
      · rw [quit] at wrong
        cases wrong
    · rename_i sleeps
      rw [if_neg sleeps]
      have change := effort_move s thread _ (.waiting false) here
      have same : (s.sleep thread).effort = (s.move thread (.waiting false)).effort := rfl
      simp only [exertion, Bool.false_eq_true, if_false] at change
      omega
  · rename_i nonempty
    rw [if_neg nonempty]
    have positive := nextBatch_pos s.shared
    have enough := nextBatch_le s.shared nonempty
    rw [take]
    generalize s.shared.nextBatch = nNow at positive enough
    have change := effort_move s thread _
      (.working [] (s.shared.queue.take nNow) nNow s.shared.fAllOk) here
    simp only [exertion, List.length_take_of_le enough] at change
    simp only [effort, move, List.length_drop] at change ⊢
    omega

theorem add_inside (s : Checkers T) (vChecks : List T) (chosen : Nat) (waits : InWait s) :
    s.add vChecks chosen = s := by
  rw [add]
  split
  · rename_i workers front
    obtain ⟨position, head, inside⟩ := waits
    rw [front] at head
    exact absurd (Option.some.inj head).symm inside
  · rfl

theorem proceed_added (s : Checkers T) (thread : Nat) :
    (s.proceed thread).added.length ≤ s.added.length := by
  rw [proceed]
  split
  · split
    · rw [leave]
      split
      · exact Nat.zero_le _
      · exact Nat.le_refl _
    · exact Nat.le_refl _
  · exact Nat.le_refl _

theorem step_added (s : Checkers T) (action : QueueAction T) (waits : InWait s) :
    (s.step check action).added.length ≤ s.added.length := by
  cases action with
  | add vChecks chosen =>
      rw [step, add_inside s vChecks chosen waits]
  | run thread =>
      rw [step, run]
      split
      · exact Nat.le_refl _
      · exact Nat.le_refl _
      · exact proceed_added (s.wake thread) thread
      · exact proceed_added s thread
      · exact Nat.le_refl _
      · rename_i passed nNow fOk here
        have less := proceed_added (s.finish thread nNow fOk) thread
        rwa [finish_added] at less

/-- While the master is in `Wait`, every step lowers the effort, spurious wakeups apart. -/
theorem effort_step (s : Checkers T) (action : QueueAction T) (sound : Sound check s)
    (waits : InWait s) (stays : InWait (s.step check action)) :
    (s.step check action).effort + (if s.awakeStep action = true then 1 else 0) ≤ s.effort := by
  cases action with
  | add vChecks chosen =>
      rw [step, add_inside s vChecks chosen waits]
      exact Nat.le_refl _
  | run thread =>
      rw [step, run] at stays ⊢
      rw [awakeStep, awake]
      cases place : s.threads[thread]? with
      | none => exact Nat.le_refl _
      | some position =>
          rw [place] at stays
          cases position with
          | outside =>
              have change := effort_move s thread _ (.working [] [] 0 true) place
              simp only [exertion, List.length_nil] at change
              simp only [Bool.false_eq_true, if_false]
              omega
          | locked =>
              have low := effort_proceed s thread sound.quit place stays
              simp only [if_true]
              omega
          | waiting notified =>
              have low := effort_proceed (s.wake thread) thread sound.quit
                (wake_here s thread _ place) stays
              have change := effort_move s thread _ .locked place
              have same : (s.wake thread).effort = (s.move thread .locked).effort := rfl
              cases notified with
              | true =>
                  simp only [exertion, if_true] at change ⊢
                  omega
              | false =>
                  simp only [exertion, Bool.false_eq_true, if_false] at change ⊢
                  omega
          | working passed vChecks nNow fOk =>
              cases vChecks with
              | nil =>
                  have low := effort_proceed _ thread
                    (finish_sound check s thread nNow passed fOk sound place).quit
                    (finish_here s thread nNow fOk _ place) stays
                  have before := effort_finish s thread nNow passed fOk place
                  simp only [if_true]
                  omega
              | cons next vChecks =>
                  have change := effort_move s thread _
                    (.working (passed ++ [next]) vChecks nNow (if fOk then check next else fOk)) place
                  simp only [exertion, List.length_cons] at change
                  simp only [if_true]
                  omega

/-- However the steps of the other threads fall, the master stays in `Wait` for no more of them
than this. -/
theorem wait_ends (s : Checkers T) (schedule : List (QueueAction T)) (sound : Sound check s)
    (few : s.added.length < 2 ^ 32) (inside : Runs.Always (step check) InWait s schedule) :
    Runs.countSteps (step check) awakeStep s schedule ≤ s.effort := by
  refine Runs.countSteps_le (step check) awakeStep InWait
    (fun s => Sound check s ∧ s.added.length < 2 ^ 32) effort ?_ ?_ s schedule ⟨sound, few⟩ inside
  · intro s action invariant waits
    exact ⟨step_sound check s action invariant.1 invariant.2,
      Nat.lt_of_le_of_lt (step_added check s action waits) invariant.2⟩
  · intro s action invariant waits stays
    exact effort_step check s action invariant.1 waits stays

/-! ## Every run -/

structure Reached (s : Checkers T) : Prop where
  sound : Sound check s
  told : Told s
  rested : Rested s
  rounds : ∀ round ∈ s.rounds, Agrees check round

theorem start_reached (nBatchSizeIn workers : Nat) :
    Reached check (start nBatchSizeIn workers : Checkers T) := by
  have outsiders : ∀ position ∈ List.replicate (workers + 1) (.outside : Position T),
      position = .outside := fun position member => List.eq_of_mem_replicate member
  refine ⟨start_sound check nBatchSizeIn workers, ?_, ?_, ?_⟩
  · intro sleeping
    cases outsiders _ (List.mem_of_getElem? sleeping)
  · intro member
    cases outsiders _ member
  · intro round member
    cases member

theorem step_reached (s : Checkers T) (action : QueueAction T) (reached : Reached check s)
    (few : s.added.length < 2 ^ 32) : Reached check (s.step check action) := by
  refine ⟨step_sound check s action reached.sound few, told_step check s action reached.told,
    rested_step check s action reached.rested, ?_⟩
  intro round member
  rcases step_round check s action reached.sound reached.rested few with
    same | ⟨new, more, -, agrees, -⟩
  · rw [same] at member
    exact reached.rounds round member
  · rw [more] at member
    rcases List.mem_append.mp member with before | own
    · exact reached.rounds round before
    · rw [List.mem_singleton.mp own]
      exact agrees

theorem run_reached (nBatchSizeIn workers : Nat) (actions : List (QueueAction T))
    (few : Runs.Always (step check) (fun s => s.added.length < 2 ^ 32) (start nBatchSizeIn workers)
      actions) :
    Reached check (Runs.run (step check) (start nBatchSizeIn workers) actions) := by
  refine Runs.run_invariant (step check) (fun s => s.added.length < 2 ^ 32) (Reached check) ?_ _
    actions (start_reached check nBatchSizeIn workers) few
  exact fun s action reached few => step_reached check s action reached few

/-- With any number of workers, any batch size and any order of the steps: each return of `Wait`
gives what evaluating the checks in sequence gives, every check having gone to one thread; each
check added is in the queue or was taken by one thread; the return leaves everything as the next
block needs it; and in `Wait` some thread can go on, which only so many steps can do before the
master returns. The counter has 32 bits, which a round does not exhaust. -/
theorem wait_sequential (nBatchSizeIn workers : Nat) (actions : List (QueueAction T))
    (few : Runs.Always (step check) (fun s => s.added.length < 2 ^ 32) (start nBatchSizeIn workers)
      actions) :
    let s := Runs.run (step check) (start nBatchSizeIn workers) actions
    (∀ round ∈ s.rounds,
      round.fRet = round.added.all check ∧ round.added.Perm (takenChecks round.taken)) ∧
    s.added.Perm (s.shared.queue ++ takenChecks s.taken) ∧
    (∀ action, (s.step check action).rounds ≠ s.rounds →
      (∃ round, (s.step check action).rounds = s.rounds ++ [round] ∧ round.added = s.added ∧
        round.fRet = s.added.all check) ∧ Reset (s.step check action)) ∧
    (InWait s → (∃ thread, s.awake thread = true) ∧
      ∀ schedule, Runs.Always (step check) InWait s schedule →
        Runs.countSteps (step check) awakeStep s schedule ≤ s.effort) := by
  intro s
  have reached : Reached check s := run_reached check nBatchSizeIn workers actions few
  have size : s.added.length < 2 ^ 32 := Runs.always_run (step check) _ _ actions few
  refine ⟨reached.rounds, reached.sound.queued, ?_, ?_⟩
  · intro action returns
    rcases step_round check s action reached.sound reached.rested size with
      same | ⟨round, more, added, agrees, reset⟩
    · exact absurd same returns
    · refine ⟨⟨round, more, added, ?_⟩, reset⟩
      rw [← added]
      exact agrees.1
  · intro waits
    exact ⟨someone_awake check s reached.sound reached.told waits,
      fun schedule => wait_ends check s schedule reached.sound size⟩

/-- One worker takes a check that fails, the master the other one. -/
def twoChecks : List (QueueAction Nat) :=
  [.run 1, .run 1, .add [4, 5] 0, .run 1, .run 0, .run 0, .run 1, .run 0, .run 0, .run 1, .run 0]

theorem wait_sequential_two :
    (Runs.run (step fun c => c != 4) (start 128 1) twoChecks).rounds.length = 1 ∧
      ∀ round ∈ (Runs.run (step fun c => c != 4) (start 128 1) twoChecks).rounds,
        round.fRet = round.added.all (fun c => c != 4) ∧
          round.added.Perm (takenChecks round.taken) :=
  ⟨by decide +kernel, (wait_sequential (fun c : Nat => c != 4) 128 1 twoChecks (by decide)).1⟩

end Checkers

end RoiCoin
