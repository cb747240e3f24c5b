import CodeReading.Threads

/-!
# Cleaning up the thread pool

Workers wait for tasks on a condition variable, and test under the lock whether to wait. `cleanup`
empties the queues under the lock, but stores the stop flag and wakes the workers without it: a
worker that has made its test and is about to sleep misses both.

Tasks are counted, and nobody adds any.
-/

namespace CodeReading.Tbox.ThreadPool

open Function Threads

/-- The sizes of the cabinets of tasks to do and of threads, and who holds the lock. -/
structure Shared where
  tasks : Nat
  idle : Nat
  threads : Nat
  owner : Option Nat
  stop : Bool
  notified : Bool
  asleep : Nat → Bool

/-- The points of `threadProc`, and from `cleaning` on those of `cleanup`. -/
inductive Local where
  | top | deciding | testing | dozing | sleeping | leaving | marking | running | erasing | exited
  | cleaning | storing | notifying | joining

inductive Event where
  | proceed
  | spurious

/-- A scope that takes the lock and gives it back is one action. -/
def act (minThreads : Nat) (thread : Nat) (shared : Shared) :
    Local → Event → Option (Shared × Local)
  | .top, .proceed =>
      if shared.owner = none then some ({ shared with owner := some thread }, .deciding) else none
  | .deciding, .proceed =>
      if shared.tasks ≤ shared.idle ∧ minThreads < shared.threads then
        some ({ shared with owner := none, threads := shared.threads - 1 }, .exited)
      else some ({ shared with idle := shared.idle + 1 }, .testing)
  -- `shouldThreadExitWaiting`
  | .testing, .proceed =>
      if shared.stop = true ∨ 0 < shared.tasks then
        some ({ shared with idle := shared.idle - 1 }, .leaving)
      else some (shared, .dozing)
  | .dozing, .proceed =>
      some ({ shared with owner := none, asleep := update shared.asleep thread true }, .sleeping)
  | .sleeping, .spurious =>
      if shared.asleep thread = true then
        some ({ shared with asleep := update shared.asleep thread false }, .sleeping)
      else none
  | .sleeping, .proceed =>
      if shared.owner = none ∧ shared.asleep thread = false then
        some ({ shared with owner := some thread }, .testing)
      else none
  | .leaving, .proceed =>
      if shared.stop = true then some ({ shared with owner := none }, .exited)
      else if shared.tasks = 0 then some ({ shared with owner := none }, .top)
      else some ({ shared with owner := none, tasks := shared.tasks - 1 }, .marking)
  | .marking, .proceed => if shared.owner = none then some (shared, .running) else none
  | .running, .proceed => some (shared, .erasing)
  | .erasing, .proceed => if shared.owner = none then some (shared, .top) else none
  | .cleaning, .proceed =>
      if shared.owner = none then some ({ shared with tasks := 0, threads := 0 }, .storing)
      else none
  | .storing, .proceed => some ({ shared with stop := true }, .notifying)
  | .notifying, .proceed =>
      some ({ shared with notified := true, asleep := fun _ => false }, .joining)
  | _, _ => none

def Local.locks : Local → Bool
  | deciding | testing | dozing | leaving => true
  | _ => false

/-- How far a worker is from its end once the flag is set; none for other threads. -/
def Local.distance : Local → Nat
  | leaving => 1
  | testing => 2
  | deciding | sleeping => 3
  | top => 4
  | erasing => 5
  | running => 6
  | marking => 7
  | _ => 0

variable {minThreads thread : Nat} {shared after : Shared} {own moved : Local} {event : Event}

/-- What one action does to the lock, the flag and the sleeping workers. -/
structure Effect (thread : Nat) (before : Shared) (own : Local) (after : Shared) (moved : Local) :
    Prop where
  locks : moved.locks = true ↔ after.owner = some thread
  others : ∀ other ≠ thread, (after.owner = some other ↔ before.owner = some other)
  keeps : before.stop = true → after.stop = true
  stores : after.stop = true → before.stop = true ∨ own = .storing
  tests : after.stop = true → moved ≠ .dozing
  stored : moved = .notifying → after.stop = true
  wakes : after.notified = true →
    before.notified = true ∨ own = .notifying ∧ ∀ worker, after.asleep worker = false
  sleeps : own ≠ .dozing → ∀ worker, before.asleep worker = false → after.asleep worker = false

theorem act_effect (locks : own.locks = true ↔ shared.owner = some thread)
    (acted : act minThreads thread shared own event = some (after, moved)) :
    Effect thread shared own after moved := by
  revert acted
  -- One goal for each branch of `act` and each part of the effect.
  fun_cases act minThreads thread shared own event <;> rintro ⟨⟩ <;> constructor <;>
    grind [Local.locks, update_apply]

/-- Once the flag is stored nobody is about to sleep, and once all were woken nobody sleeps. -/
def outline : Outline Shared Local where
  common shared :=
    shared.notified = true → shared.stop = true ∧ ∀ worker, shared.asleep worker = false
  own thread shared own :=
    (own.locks = true ↔ shared.owner = some thread) ∧ (shared.stop = true → own ≠ .dozing) ∧
      (own = .notifying → shared.stop = true)
  apart _ _ := True

/-- The flag is not stored between a worker's test and its sleep. -/
def Apart (state : State Shared Local) (event : Nat × Event) : Prop :=
  state.locals event.1 = .storing → ∀ worker, state.locals worker ≠ .dozing

theorem outline_sound : outline.Sound (act minThreads) Apart := by
  refine Outline.sound_of_moves (fun _ _ => trivial) ?_
  intro state thread event shared own holds apart acted
  obtain ⟨locks, awake, notifying⟩ := holds.own thread
  have effect := act_effect locks acted
  refine ⟨fun notified => ?_, ⟨effect.locks, effect.tests, effect.stored⟩, fun other distinct => ?_⟩
  · rcases effect.wakes notified with before | ⟨isNotifying, woken⟩
    · obtain ⟨stop, woken⟩ := holds.common before
      exact ⟨effect.keeps stop, fun worker => effect.sleeps (awake stop) worker (woken worker)⟩
    · exact ⟨effect.keeps (notifying isNotifying), woken⟩
  · obtain ⟨locks, awake, notifying⟩ := holds.own other
    refine ⟨locks.trans (effect.others other distinct).symm, fun stop => ?_,
      fun isNotifying => effect.keeps (notifying isNotifying)⟩
    rcases effect.stores stop with before | storing
    · exact awake before
    · exact apart storing other

theorem act_enabled (works : 0 < own.distance) (locks : shared.owner = none ∨ own.locks = true)
    (awake : shared.asleep thread = false) : act minThreads thread shared own .proceed ≠ none := by
  cases own <;> simp_all [act, Local.distance, Local.locks] <;> grind

theorem act_nearer (stop : shared.stop = true) (awake : shared.asleep thread = false)
    (works : 0 < own.distance)
    (acted : act minThreads thread shared own event = some (after, moved)) :
    moved.distance < own.distance := by
  revert acted
  fun_cases act minThreads thread shared own event <;> rintro ⟨⟩ <;> simp_all [Local.distance]

/-- `cleanup` has not stored the flag, and the workers are anywhere. -/
def Ready (state : State Shared Local) : Prop :=
  state.shared.stop = false ∧ state.shared.notified = false ∧ ∀ thread,
    state.locals thread ≠ .notifying ∧
      ((state.locals thread).locks = true ↔ state.shared.owner = some thread)

def Blocked (state : State Shared Local) (worker : Nat) : Prop :=
  state.locals worker = .sleeping ∧ state.shared.asleep worker = true

/-- Unless the flag is stored between a worker's test and its sleep, no worker is blocked once all
were notified, and as long as one has not ended some worker can act and comes nearer to its end. -/
theorem cleanup_wakes {state : State Shared Local} (ready : Ready state)
    (events : List (Nat × Event)) (final : State Shared Local)
    (apart : Machine.Guarded (step (act minThreads)) Apart state events)
    (ran : Machine.run (step (act minThreads)) state events = some final)
    (notified : final.shared.notified = true) :
    (∀ worker, ¬ Blocked final worker) ∧
    (∀ worker, 0 < (final.locals worker).distance → ∃ helper next,
      0 < (final.locals helper).distance ∧
        step (act minThreads) final (helper, .proceed) = some next) ∧
    ∀ worker event next, 0 < (final.locals worker).distance →
      step (act minThreads) final (worker, event) = some next →
        (next.locals worker).distance < (final.locals worker).distance := by
  obtain ⟨unset, before, ready⟩ := ready
  have holds := outline_sound.run events state final
    ⟨by simp [before, outline], fun thread => ⟨(ready thread).2, by simp [unset],
      fun isNotifying => absurd isNotifying (ready thread).1⟩, fun _ _ _ => trivial⟩ apart ran
  obtain ⟨stop, awake⟩ := holds.common notified
  refine ⟨fun worker blocked => absurd ((awake worker).symm.trans blocked.2) nofun, ?_, ?_⟩
  · intro worker works
    have canAct : ∃ helper, 0 < (final.locals helper).distance ∧
        (final.shared.owner = none ∨ (final.locals helper).locks = true) := by
      cases owner : final.shared.owner with
      | none => exact ⟨worker, works, .inl rfl⟩
      | some holder =>
        obtain ⟨locks, notDozing, -⟩ := holds.own holder
        have locked := locks.mpr owner
        have notDozing := notDozing stop
        refine ⟨holder, ?_, .inr locked⟩
        cases isAt : final.locals holder <;> simp_all [Local.locks, Local.distance]
    obtain ⟨helper, works, free⟩ := canAct
    obtain ⟨_, acted⟩ := Option.ne_none_iff_exists'.mp (act_enabled works free (awake helper))
    exact ⟨helper, _, works, by rw [step, acted]; rfl⟩
  · intro worker event next works taken
    exact act_nearer stop (awake worker) works (step_some _ taken).1

/-- A pool of two workers, one asleep and one that runs a task. -/
def pair : State Shared Local where
  shared := ⟨0, 1, 2, none, false, false, fun thread => thread = 1⟩
  locals thread :=
    if thread = 0 then .cleaning else if thread = 1 then .sleeping
    else if thread = 2 then .running else .exited

/-- The worker that slept before `cleanup` is woken and comes to its end. -/
theorem cleanup_wakes_pair :
    ∃ final, Machine.run (step (act 1)) pair [(0, .proceed), (2, .proceed), (0, .proceed),
        (0, .proceed), (1, .proceed), (1, .proceed), (1, .proceed)] = some final ∧
      Blocked pair 1 ∧ final.locals 1 = .exited ∧ ∀ worker, ¬ Blocked final worker := by
  have ready : Ready pair := ⟨rfl, rfl, fun thread => by unfold pair; grind [Local.locks]⟩
  refine ⟨_, rfl, ⟨rfl, rfl⟩, rfl, (@cleanup_wakes 1 pair ready [(0, .proceed), (2, .proceed),
    (0, .proceed), (0, .proceed), (1, .proceed), (1, .proceed), (1, .proceed)] _ ?_ rfl rfl).1⟩
  -- Only the third action is the store.
  refine ⟨nofun, ?_⟩
  rintro _ ⟨⟩
  refine ⟨nofun, ?_⟩
  rintro _ ⟨⟩
  refine ⟨fun _ worker => by simp [pair, update_apply]; grind, ?_⟩
  rintro _ ⟨⟩
  refine ⟨nofun, ?_⟩
  rintro _ ⟨⟩
  refine ⟨nofun, ?_⟩
  rintro _ ⟨⟩
  refine ⟨nofun, ?_⟩
  rintro _ ⟨⟩
  exact ⟨nofun, fun _ _ => trivial⟩

/-- A pool of one worker. -/
def lone : State Shared Local where
  shared := ⟨0, 0, 1, none, false, false, fun _ => false⟩
  locals thread := if thread = 0 then .cleaning else if thread = 1 then .top else .exited

/-- The worker makes its test, `cleanup` notifies, and the worker goes to sleep. -/
theorem lone_blocked :
    ∃ final, Machine.run (step (act 1)) lone [(0, .proceed), (1, .proceed), (1, .proceed),
        (1, .proceed), (0, .proceed), (0, .proceed), (1, .proceed)] = some final ∧
      final.shared.stop = true ∧ final.shared.notified = true ∧ Blocked final 1 :=
  ⟨_, rfl, rfl, rfl, rfl, rfl⟩

end CodeReading.Tbox.ThreadPool
