import CodeReading.Brpc.TimerThread
import Mathlib.Data.List.Nodup

/-!
# Tasks run at most once

The version of a slot only increases. An id is made of the version the slot has when
it is scheduled; running the task and unscheduling it both start with an exchange
from that version, so one of the two happens, once. Between the two steps of a call
the version is odd, which no id has.

A slot is in one place at a time and goes back to the pool when its version has
passed the id. Versions are assumed not to wrap around, nor the signal counter.
-/

namespace CodeReading.Brpc.Timer

open Threads List Function

/-- `INVALID_TASK_ID`, which `schedule` returns when it schedules nothing. -/
def invalidTaskId : TaskId := ⟨0, 0⟩

/-- Ids are unscheduled after `schedule` has returned them; versions and signals stay within
their types. -/
def Proper (state : State) (event : Nat × Event) : Prop :=
  state.shared.nsignals + 1 < 2 ^ 32 ∧
    match event.2 with
    | .schedule slot _ => (state.shared.tasks slot).version + 2 < 2 ^ 32
    | .unschedule id => id = invalidTaskId ∨ id ∈ state.shared.history.returned
    | _ => True

instance (state : State) (event : Nat × Event) : Decidable (Proper state event) := by
  unfold Proper
  cases event.2 <;> infer_instance

theorem uint32_eq (fits : value < 2 ^ 32) : uint32 value = value :=
  Nat.mod_eq_of_lt fits

section

variable (issued : List (TaskId × Int)) (running : Option TaskId) (slot : Nat) (task : Task)

/-- A slot in the pool: every id it had is behind its version. -/
structure Spare : Prop where
  started : 2 ≤ task.version
  even : task.version % 2 = 0
  fits : task.version < 2 ^ 32
  past : ∀ entry ∈ issued, entry.1.slot = slot → entry.1.version < task.version
  still : ∀ id, running = some id → id.slot ≠ slot

/-- A slot in use: its id is the latest one, and its version says whether the task is still to
run, running, or done. -/
structure Used : Prop where
  started : 2 ≤ task.idVersion
  even : task.idVersion % 2 = 0
  fits : task.idVersion + 2 < 2 ^ 32
  given : (⟨slot, task.idVersion⟩, task.runTime) ∈ issued
  latest : ∀ entry ∈ issued, entry.1.slot = slot → entry.1.version < task.idVersion ∨
    entry = (⟨slot, task.idVersion⟩, task.runTime)
  version : (task.version = task.idVersion ∧ ∀ id, running = some id → id.slot ≠ slot) ∨
    (task.version = task.idVersion + 2 ∧ ∀ id, running = some id → id.slot ≠ slot) ∨
    (task.version = task.idVersion + 1 ∧ running = some ⟨slot, task.idVersion⟩)

end

section

variable (shared : Shared)

/-- Every slot is in order, and the buckets have the slots that are placed there. -/
structure Slots : Prop where
  spare : ∀ slot, shared.history.place slot = .free →
    Spare shared.history.issued shared.history.running slot (shared.tasks slot)
  used : ∀ slot, shared.history.place slot ≠ .free →
    Used shared.history.issued shared.history.running slot (shared.tasks slot)
  running : ∀ id, shared.history.running = some id → shared.history.place id.slot = .timer
  even : ∀ entry ∈ shared.history.issued, entry.1.version % 2 = 0
  distinct : (shared.history.issued.map Prod.fst).Nodup
  returned : ∀ id ∈ shared.history.returned, ∃ runTime, (id, runTime) ∈ shared.history.issued
  buckets : ∀ index slot, slot ∈ (shared.buckets index).taskHead →
    shared.history.place slot = .bucket index
  listed : ∀ index, (shared.buckets index).taskHead.Nodup

/-- What ran and what was unscheduled: the version of the slot is past the id. -/
structure Record : Prop where
  runs : ∀ run ∈ shared.history.runs, run.1.version < (shared.tasks run.1.slot).version ∧
    ∃ runTime, (run.1, runTime) ∈ shared.history.issued ∧ runTime ≤ run.2
  once : (shared.history.runs.map Prod.fst).Nodup
  cancelled : ∀ verdict ∈ shared.history.verdicts, verdict.2.1 = 0 →
    verdict.1.version + 2 ≤ (shared.tasks verdict.1.slot).version ∧
      verdict.1 ∉ shared.history.runs.map Prod.fst
  caught : ∀ verdict ∈ shared.history.verdicts, verdict.2.1 = 1 → verdict.2.2 = some verdict.1
  sound : shared.history.broken = false

structure Common : Prop where
  slots : Slots shared
  record : Record shared

/-- The slots that the timer thread has besides its heap. -/
def Running.slots : Running → List Nat
  | .sorting _ left => left
  | .exchanging slot _ => [slot]
  | .calling slot => [slot]
  | .returning slot => [slot]
  | _ => []

/-- What the timer thread knows of the task at hand. -/
def AtHand (heap : List Nat) : Running → Prop
  | .comparing slot now =>
      shared.history.running = none ∧ slot ∈ heap ∧ (shared.tasks slot).runTime ≤ now
  | .exchanging slot now => shared.history.running = none ∧ (shared.tasks slot).runTime ≤ now
  | .calling slot => shared.history.running = some (shared.idOf slot)
  | .returning slot =>
      shared.history.running = none ∧
        (shared.tasks slot).version = (shared.tasks slot).idVersion + 2
  | _ => shared.history.running = none

/-- The slots of the timer thread are its own. -/
structure Holding (heap : List Nat) (at_ : Running) : Prop where
  timer : ∀ slot ∈ at_.slots ++ heap, shared.history.place slot = .timer
  distinct : (at_.slots ++ heap).Nodup
  atHand : AtHand shared heap at_

end

def Stage (thread : Nat) (shared : Shared) : Local → Prop
  | .inserting slot => shared.history.place slot = .held thread
  | .announcing id runTime => (id, runTime) ∈ shared.history.issued
  | .waking id => ∃ runTime, (id, runTime) ∈ shared.history.issued
  | .running heap at_ => Holding shared heap at_
  | _ => True

/-- Thread 0 is the timer thread. -/
def Local.Role (thread : Nat) : Local → Prop
  | .running _ _ => thread = 0
  | _ => thread ≠ 0

structure Own (thread : Nat) (shared : Shared) (own : Local) : Prop where
  role : own.Role thread
  stage : Stage thread shared own

def slotOutline : Outline Shared Local where
  common := Common
  own := Own
  apart := fun _ _ => True

/-- What an action of one thread does to the others. -/
structure Effect (thread : Nat) (before after : Shared) : Prop where
  held : ∀ slot other, other ≠ thread → before.history.place slot = .held other →
    after.history.place slot = .held other
  issued : ∀ entry ∈ before.history.issued, entry ∈ after.history.issued
  running : thread ≠ 0 → after.history.running = before.history.running
  timer : thread ≠ 0 → ∀ slot, before.history.place slot = .timer →
    after.history.place slot = .timer ∧
      (after.tasks slot).idVersion = (before.tasks slot).idVersion ∧
      (after.tasks slot).runTime = (before.tasks slot).runTime ∧
      ((before.tasks slot).version ≠ (before.tasks slot).idVersion →
        (after.tasks slot).version = (before.tasks slot).version)

variable {issued : List (TaskId × Int)} {running : Option TaskId}

theorem Used.latest_le {id : TaskId} (used : Used issued running id.slot task)
    (given : (id, runTime) ∈ issued) : id.version ≤ task.idVersion := by
  rcases used.latest _ given rfl with older | this
  · exact Nat.le_of_lt older
  · exact Nat.le_of_eq (congrArg (fun entry => entry.1.version) this)

theorem Used.spare (used : Used issued running slot task)
    (passed : task.version = task.idVersion + 2) : Spare issued running slot task := by
  have even := used.even
  have fits := used.fits
  refine ⟨by omega, by omega, by omega, ?_, ?_⟩
  · intro entry mem same
    rcases used.latest entry mem same with older | rfl
    · omega
    · exact passed ▸ Nat.lt_add_of_pos_right (by decide)
  · rcases used.version with ⟨now, -⟩ | ⟨-, still⟩ | ⟨now, -⟩
    · omega
    · exact still
    · omega

theorem Slots.started (slots : Slots shared) (slot : Nat) : 2 ≤ (shared.tasks slot).version := by
  by_cases free : shared.history.place slot = .free
  · exact (slots.spare slot free).started
  · have used := slots.used slot free
    have started := used.started
    rcases used.version with ⟨version, -⟩ | ⟨version, -⟩ | ⟨version, -⟩ <;> omega

section

variable {before after : Shared}

theorem holding_effect (notTimer : thread ≠ 0) (effect : Effect thread before after)
    (holding : Holding before heap at_) :
    Holding after heap at_ := by
  have timer := effect.timer notTimer
  have running := effect.running notTimer
  refine ⟨fun slot mem => (timer slot (holding.timer slot mem)).1, holding.distinct, ?_⟩
  have atHand := holding.atHand
  cases at_ with
  | comparing slot now =>
    obtain ⟨none, mem, due⟩ := atHand
    obtain ⟨-, -, runTime, -⟩ := timer slot (holding.timer slot mem)
    exact ⟨running.trans none, mem, runTime ▸ due⟩
  | exchanging slot now =>
    obtain ⟨none, due⟩ := atHand
    obtain ⟨-, -, runTime, -⟩ := timer slot (holding.timer slot (.head _))
    exact ⟨running.trans none, runTime ▸ due⟩
  | calling slot =>
    obtain ⟨-, version, -, -⟩ := timer slot (holding.timer slot (.head _))
    refine running.trans (Eq.trans atHand ?_)
    rw [Shared.idOf, Shared.idOf, version]
  | returning slot =>
    obtain ⟨none, passed⟩ := atHand
    obtain ⟨-, idVersion, -, version⟩ := timer slot (holding.timer slot (.head _))
    refine ⟨running.trans none, ?_⟩
    rw [version (by omega), idVersion]
    exact passed
  | top | resetting | pulling _ | consuming _ | sorting _ _ | picking | deciding | sleeping _ _
  | stopped => exact running.trans atHand

theorem own_effect (distinct : other ≠ thread) (own : Own other before theirs)
    (effect : Effect thread before after) : Own other after theirs := by
  refine ⟨own.role, ?_⟩
  have stage := own.stage
  cases theirs with
  | inserting slot => exact effect.held slot other distinct stage
  | announcing id runTime => exact effect.issued _ stage
  | waking id =>
    obtain ⟨runTime, issued⟩ := stage
    exact ⟨runTime, effect.issued _ issued⟩
  | running heap at_ =>
    have isTimer : other = 0 := own.role
    exact holding_effect (fun same => distinct (isTimer.trans same.symm)) effect stage
  | idle | stopping => trivial

/-- The action moves slots between places, and nothing happens to the tasks in them. -/
structure Moved (before after : Shared) : Prop where
  tasks : after.tasks = before.tasks := by rfl
  issued : after.history.issued = before.history.issued := by rfl
  running : after.history.running = before.history.running := by rfl
  freed : ∀ slot, after.history.place slot = .free → before.history.place slot = .free ∨
    (before.tasks slot).version = (before.tasks slot).idVersion + 2
  used : ∀ slot, after.history.place slot ≠ .free → before.history.place slot ≠ .free
  called : ∀ id, before.history.running = some id → after.history.place id.slot = .timer
  returned : ∀ id ∈ after.history.returned, id ∈ before.history.returned ∨
    ∃ runTime, (id, runTime) ∈ before.history.issued
  buckets : ∀ index slot, slot ∈ (after.buckets index).taskHead →
    after.history.place slot = .bucket index
  listed : ∀ index, (after.buckets index).taskHead.Nodup

theorem slots_moved (slots : Slots before) (moved : Moved before after) : Slots after := by
  obtain ⟨tasks, issued, running, freed, used, called, returned, buckets, listed⟩ := moved
  refine ⟨?_, ?_, ?_, issued ▸ slots.even, issued ▸ slots.distinct, ?_, buckets, listed⟩
  · intro slot free
    rw [tasks, issued, running]
    by_cases wasFree : before.history.place slot = .free
    · exact slots.spare slot wasFree
    · exact (slots.used slot wasFree).spare ((freed slot free).resolve_left wasFree)
  · intro slot notFree
    rw [tasks, issued, running]
    exact slots.used slot (used slot notFree)
  · intro id isRunning
    exact called id (running ▸ isRunning)
  · intro id mem
    rw [issued]
    exact (returned id mem).elim (slots.returned id) (fun given => given)

/-- The action changes the version of one slot in use, and what runs in that slot. -/
structure Exchanged (before after : Shared) (slot version : Nat) : Prop where
  tasks : after.tasks =
    Function.update before.tasks slot { before.tasks slot with version := version } := by rfl
  issued : after.history.issued = before.history.issued := by rfl
  place : after.history.place = before.history.place := by rfl
  returned : after.history.returned = before.history.returned := by rfl
  buckets : after.buckets = before.buckets := by rfl
  inUse : before.history.place slot ≠ .free
  elsewhere : ∀ id, id.slot ≠ slot →
    (after.history.running = some id ↔ before.history.running = some id)
  called : ∀ id, after.history.running = some id → id.slot = slot →
    before.history.place slot = .timer
  version : (version = (before.tasks slot).idVersion ∧
      ∀ id, after.history.running = some id → id.slot ≠ slot) ∨
    (version = (before.tasks slot).idVersion + 2 ∧
      ∀ id, after.history.running = some id → id.slot ≠ slot) ∨
    (version = (before.tasks slot).idVersion + 1 ∧
      after.history.running = some (before.idOf slot))

theorem slots_exchanged (slot version : Nat) (slots : Slots before)
    (exchanged : Exchanged before after slot version) : Slots after := by
  obtain ⟨tasks, issued, place, returned, buckets, inUse, elsewhere, called, versions⟩ := exchanged
  have still : ∀ other ≠ slot, (∀ id, before.history.running = some id → id.slot ≠ other) →
      ∀ id, after.history.running = some id → id.slot ≠ other := by
    intro other distinct quiet id isRunning same
    by_cases here : id.slot = slot
    · exact distinct (same.symm.trans here)
    · exact quiet id ((elsewhere id here).mp isRunning) same
  refine ⟨?_, ?_, ?_, issued ▸ slots.even, issued ▸ slots.distinct,
    issued ▸ returned ▸ slots.returned, place ▸ buckets ▸ slots.buckets, buckets ▸ slots.listed⟩
  · intro other free
    rw [place] at free
    have distinct : other ≠ slot := by
      rintro rfl
      exact inUse free
    rw [tasks, issued, update_of_ne distinct]
    have spare := slots.spare other free
    exact { spare with still := still other distinct spare.still }
  · intro other notFree
    rw [place] at notFree
    rw [tasks, issued]
    by_cases same : other = slot
    · subst same
      rw [update_self]
      have used := slots.used other notFree
      exact { used with version := versions }
    · rw [update_of_ne same]
      have used := slots.used other notFree
      refine { used with version := ?_ }
      rcases used.version with ⟨version, quiet⟩ | ⟨version, quiet⟩ | ⟨version, isRunning⟩
      · exact .inl ⟨version, still other same quiet⟩
      · exact .inr (.inl ⟨version, still other same quiet⟩)
      · exact .inr (.inr ⟨version, (elsewhere _ same).mpr isRunning⟩)
  · intro id isRunning
    rw [place]
    by_cases here : id.slot = slot
    · exact here ▸ called id isRunning here
    · exact slots.running id ((elsewhere id here).mp isRunning)

theorem record_grows (record : Record before)
    (versions : ∀ slot, (before.tasks slot).version ≤ (after.tasks slot).version)
    (issued : ∀ entry ∈ before.history.issued, entry ∈ after.history.issued)
    (runs : after.history.runs = before.history.runs)
    (verdicts : after.history.verdicts = before.history.verdicts)
    (broken : after.history.broken = before.history.broken) : Record after := by
  refine ⟨?_, runs ▸ record.once, ?_, verdicts ▸ record.caught, broken.trans record.sound⟩
  · intro run mem
    rw [runs] at mem
    obtain ⟨passed, runTime, given, due⟩ := record.runs run mem
    exact ⟨Nat.lt_of_lt_of_le passed (versions _), runTime, issued _ given, due⟩
  · intro verdict mem zero
    rw [verdicts] at mem
    obtain ⟨passed, never⟩ := record.cancelled verdict mem zero
    exact ⟨Nat.le_trans passed (versions _), runs ▸ never⟩

end

/-- What a step keeps. -/
structure Keeps (thread : Nat) (before : Shared) (result : Shared × Local) : Prop where
  common : Common result.1
  own : Own thread result.1 result.2
  effect : Effect thread before result.1

/-- The action touches no task and no list. -/
structure Quiet (before after : Shared) : Prop where
  tasks : after.tasks = before.tasks := by rfl
  buckets : after.buckets = before.buckets := by rfl
  place : after.history.place = before.history.place := by rfl
  issued : after.history.issued = before.history.issued := by rfl
  running : after.history.running = before.history.running := by rfl
  runs : after.history.runs = before.history.runs := by rfl
  verdicts : after.history.verdicts = before.history.verdicts := by rfl
  broken : after.history.broken = before.history.broken := by rfl

section

variable {after : Shared}

theorem quiet_common (common : Common before) (quiet : Quiet before after)
    (returned : ∀ id ∈ after.history.returned, id ∈ before.history.returned ∨
      ∃ runTime, (id, runTime) ∈ before.history.issued) : Common after := by
  obtain ⟨tasks, buckets, place, issued, running, runs, verdicts, broken⟩ := quiet
  constructor
  · refine slots_moved common.slots
      ⟨tasks, issued, running, ?_, ?_, ?_, returned, ?_, buckets ▸ common.slots.listed⟩
    · exact fun slot free => .inl (place ▸ free)
    · exact fun slot used => place ▸ used
    · exact place ▸ common.slots.running
    · exact place ▸ buckets ▸ common.slots.buckets
  · exact record_grows common.record (fun slot => Nat.le_of_eq (tasks ▸ rfl))
      (fun _ mem => issued ▸ mem) runs verdicts broken

theorem quiet_effect (quiet : Quiet before after) : Effect thread before after := by
  obtain ⟨tasks, -, place, issued, running, -, -, -⟩ := quiet
  refine ⟨fun slot _ _ held => place ▸ held, fun _ mem => issued ▸ mem,
    fun _ => running, fun _ slot atTimer => ⟨place ▸ atTimer, ?_⟩⟩
  rw [tasks]
  exact ⟨rfl, rfl, fun _ => rfl⟩

end

section

variable (setup : Setup) {shared : Shared}

theorem filled_eq {task : Task} (started : 2 ≤ task.version) (runTime : Int) :
    task.filled runTime = ⟨task.version, task.version, runTime⟩ := by
  simp [Task.filled, if_neg (show task.version ≠ 0 by omega)]

section

variable (free : shared.history.place slot = .free)
  (fits : (shared.tasks slot).version + 2 < 2 ^ 32)
include free fits

theorem fill_slots (slots : Slots shared) : Slots (shared.fill thread slot runTime) := by
  have spare := slots.spare slot free
  have filled := filled_eq spare.started runTime
  have notHere : ∀ other, shared.history.place other ≠ .free → other ≠ slot := by
    rintro other inUse rfl
    exact inUse free
  have older : ∀ other ≠ slot, ∀ condition : TaskId × Int → Prop,
      (∀ entry ∈ shared.history.issued, entry.1.slot = other → condition entry) →
      ∀ entry ∈ (shared.fill thread slot runTime).history.issued,
        entry.1.slot = other → condition entry := by
    intro other distinct condition before entry mem same
    rcases mem_cons.mp mem with rfl | mem
    · exact absurd same.symm distinct
    · exact before entry mem same
  simp only [Shared.fill, filled] at older ⊢
  refine ⟨?_, ?_, ?_, ?_, ?_, ?_, ?_, slots.listed⟩
  · intro other otherFree
    have distinct : other ≠ slot := by
      rintro rfl
      simp only [update_self, reduceCtorEq] at otherFree
    simp only [update_of_ne distinct] at otherFree ⊢
    have kept := slots.spare other otherFree
    exact { kept with past := older other distinct _ kept.past }
  · intro other inUse
    by_cases same : other = slot
    · subst same
      simp only [update_self]
      refine ⟨spare.started, spare.even, fits, (.head _), ?_, .inl ⟨rfl, spare.still⟩⟩
      intro entry mem same
      rcases mem_cons.mp mem with rfl | mem
      · exact .inr rfl
      · exact .inl (spare.past entry mem same)
    · simp only [update_of_ne same] at inUse ⊢
      have kept := slots.used other inUse
      exact { kept with
        given := .tail _ kept.given
        latest := older other same _ kept.latest }
  · intro id isRunning
    have atTimer := slots.running id isRunning
    have distinct := notHere id.slot (by rw [atTimer]; exact nofun)
    exact (update_of_ne distinct _ _).trans atTimer
  · intro entry mem
    rcases mem_cons.mp mem with rfl | mem
    · exact spare.even
    · exact slots.even entry mem
  · refine nodup_cons.mpr ⟨?_, slots.distinct⟩
    intro mem
    obtain ⟨entry, given, same⟩ := mem_map.mp mem
    have past := spare.past entry given (by rw [same])
    rw [same] at past
    exact Nat.lt_irrefl _ past
  · intro id mem
    obtain ⟨time, given⟩ := slots.returned id mem
    exact ⟨time, .tail _ given⟩
  · intro index other mem
    have placed := slots.buckets index other mem
    have distinct := notHere other (by rw [placed]; exact nofun)
    exact (update_of_ne distinct _ _).trans placed

theorem fill_keeps (common : Common shared) (caller : thread ≠ 0) :
    Keeps thread shared (shared.fill thread slot runTime, .inserting slot) := by
  have filled := filled_eq (common.slots.spare slot free).started runTime
  have unchanged : ∀ other, shared.history.place other ≠ .free →
      (shared.fill thread slot runTime).history.place other = shared.history.place other ∧
        (shared.fill thread slot runTime).tasks other = shared.tasks other := by
    intro other inUse
    have distinct : other ≠ slot := by
      rintro rfl
      exact inUse free
    exact ⟨update_of_ne distinct _ _, update_of_ne distinct _ _⟩
  have versions : ∀ other,
      (shared.tasks other).version ≤ ((shared.fill thread slot runTime).tasks other).version := by
    intro other
    simp only [Shared.fill, filled, update_apply]
    split
    · next same => exact Nat.le_of_eq (same ▸ rfl)
    · omega
  refine ⟨⟨fill_slots free fits common.slots, ?_⟩, ⟨caller, update_self _ _ _⟩, ?_⟩
  · exact record_grows common.record versions (fun _ => mem_cons_of_mem _) rfl rfl rfl
  · refine ⟨?_, fun _ => mem_cons_of_mem _, fun _ => rfl, ?_⟩
    · intro other _ _ held
      rw [(unchanged other (by rw [held]; exact nofun)).1]
      exact held
    · intro _ other atTimer
      obtain ⟨place, task⟩ := unchanged other (by rw [atTimer]; exact nofun)
      rw [place, task]
      exact ⟨atTimer, rfl, rfl, fun _ => rfl⟩

end

/-- A slot that its thread puts into a bucket. -/
theorem insert_moved {after : Shared} (slots : Slots shared)
    (held : shared.history.place slot = .held thread) (tasks : after.tasks = shared.tasks)
    (issued : after.history.issued = shared.history.issued)
    (running : after.history.running = shared.history.running)
    (place : after.history.place = update shared.history.place slot (.bucket index))
    (heads : ∀ other, (after.buckets other).taskHead = if other = index then slot :: (shared.buckets
      index).taskHead else (shared.buckets other).taskHead)
    (returned : ∀ id ∈ after.history.returned, id ∈ shared.history.returned ∨ ∃ runTime, (id,
      runTime) ∈ shared.history.issued) : Moved shared after := by
  have unlisted : ∀ other, slot ∉ (shared.buckets other).taskHead := by
    intro other mem
    have placed := slots.buckets other slot mem
    rw [held] at placed
    nomatch placed
  have elsewhere : ∀ other ≠ slot,
      after.history.place other = shared.history.place other := by
    intro other distinct
    rw [place, update_of_ne distinct]
  have here : after.history.place slot = .bucket index := by rw [place, update_self]
  have still : ∀ other, ∀ mem ∈ (shared.buckets other).taskHead,
      after.history.place mem = .bucket other := by
    intro other mem listed
    have distinct : mem ≠ slot := by
      rintro rfl
      exact unlisted other listed
    exact (elsewhere mem distinct).trans (slots.buckets other mem listed)
  refine ⟨tasks, issued, running, ?_, ?_, ?_, returned, ?_, ?_⟩
  · intro other free
    by_cases same : other = slot
    · rw [same, here] at free
      nomatch free
    · exact .inl (elsewhere other same ▸ free)
  · intro other inUse
    by_cases same : other = slot
    · rw [same, held]
      exact nofun
    · exact elsewhere other same ▸ inUse
  · intro id isRunning
    have atTimer := slots.running id isRunning
    rw [elsewhere _ (by rintro rfl; rw [held] at atTimer; nomatch atTimer)]
    exact atTimer
  · intro other mem listed
    rw [heads] at listed
    split at listed
    · next same =>
      subst same
      rcases mem_cons.mp listed with rfl | listed
      · exact here
      · exact still other mem listed
    · exact still other mem listed
  · intro other
    rw [heads]
    split
    · exact nodup_cons.mpr ⟨unlisted index, slots.listed index⟩
    · exact slots.listed other

section

variable (common : Common shared) (caller : thread ≠ 0)
include common caller

theorem insert_keeps (held : shared.history.place slot = .held thread) :
    Keeps thread shared (insertStep setup thread shared slot) := by
  have used := common.slots.used slot (by rw [held]; exact nofun)
  have effect : ∀ after : Shared, after.tasks = shared.tasks →
      after.history.issued = shared.history.issued →
      after.history.running = shared.history.running →
      after.history.place =
        update shared.history.place slot (.bucket (setup.bucketOf thread)) →
      Effect thread shared after := by
    intro after tasks issued running place
    have elsewhere : ∀ other, shared.history.place other ≠ .held thread →
        after.history.place other = shared.history.place other := by
      intro other notHeld
      rw [place, update_of_ne]
      rintro rfl
      exact notHeld held
    refine ⟨?_, fun entry mem => issued ▸ mem, fun _ => running, ?_⟩
    · intro other _ distinct theirs
      rw [elsewhere other (by rw [theirs]; exact fun same => distinct (Place.held.inj same))]
      exact theirs
    · intro _ other atTimer
      rw [elsewhere other (by rw [atTimer]; exact nofun), tasks]
      exact ⟨atTimer, rfl, rfl, fun _ => rfl⟩
  have heads : ∀ nearest other, (update shared.buckets (setup.bucketOf thread)
      ⟨nearest, slot :: (shared.buckets (setup.bucketOf thread)).taskHead⟩ other).taskHead =
        if other = setup.bucketOf thread then
          slot :: (shared.buckets (setup.bucketOf thread)).taskHead
        else (shared.buckets other).taskHead := by
    intro nearest other
    rw [update_apply]
    split <;> rfl
  have record : ∀ after : Shared, after.tasks = shared.tasks →
      after.history.issued = shared.history.issued → after.history.runs = shared.history.runs →
      after.history.verdicts = shared.history.verdicts →
      after.history.broken = shared.history.broken → Record after :=
    fun after tasks issued => record_grows common.record (fun _ => Nat.le_of_eq (tasks ▸ rfl))
      (fun entry mem => issued ▸ mem)
  unfold insertStep
  dsimp only
  split
  · refine ⟨⟨slots_moved common.slots ?_, record _ rfl rfl rfl rfl rfl⟩, ⟨caller, used.given⟩,
      effect _ rfl rfl rfl rfl⟩
    exact insert_moved common.slots held rfl rfl rfl rfl (heads _) (fun _ => .inl)
  · refine ⟨⟨slots_moved common.slots ?_, record _ rfl rfl rfl rfl rfl⟩, ⟨caller, trivial⟩,
      effect _ rfl rfl rfl rfl⟩
    refine insert_moved common.slots held rfl rfl rfl rfl (heads _) ?_
    intro _ mem
    rcases mem_cons.mp mem with rfl | mem
    · exact .inr ⟨_, used.given⟩
    · exact .inl mem

theorem returnSchedule_keeps {after : Shared} {id : TaskId}
    (given : ∃ runTime, (id, runTime) ∈ shared.history.issued) (quiet : Quiet shared after)
    (returned : after.history.returned = shared.history.returned) :
    Keeps thread shared (after.returnSchedule id) := by
  obtain ⟨tasks, buckets, place, issued, running, runs, verdicts, broken⟩ := quiet
  have quiet : Quiet shared (after.returnSchedule id).1 :=
    ⟨tasks, buckets, place, issued, running, runs, verdicts, broken⟩
  refine ⟨quiet_common common quiet ?_, ⟨caller, trivial⟩, quiet_effect quiet⟩
  intro _ mem
  rcases mem_cons.mp mem with rfl | mem
  · exact .inr given
  · exact .inl (returned ▸ mem)

theorem announce_keeps {id : TaskId} (given : (id, runTime) ∈ shared.history.issued) :
    Keeps thread shared (announceStep thread shared id runTime) := by
  unfold announceStep
  split
  · refine ⟨quiet_common common ?_ (fun _ => .inl), ⟨caller, runTime, given⟩, quiet_effect ?_⟩
    · exact {}
    · exact {}
  · refine returnSchedule_keeps common caller ⟨runTime, given⟩ ?_ rfl
    exact {}

end

end

section

variable {shared : Shared} {id : TaskId}

section

variable (slots : Slots shared) (given : (id, runTime) ∈ shared.history.issued)
include slots given

/-- The exchange succeeds only while the task of the id is still to run. -/
theorem pending_of_version (same : (shared.tasks id.slot).version = id.version) :
    shared.history.place id.slot ≠ .free ∧ (shared.tasks id.slot).idVersion = id.version ∧
      ∀ other, shared.history.running = some other → other.slot ≠ id.slot := by
  have inUse : shared.history.place id.slot ≠ .free := by
    intro free
    exact Nat.ne_of_lt ((slots.spare id.slot free).past _ given rfl) same.symm
  have used := slots.used id.slot inUse
  have latest := used.latest_le given
  rcases used.version with ⟨version, quiet⟩ | ⟨version, -⟩ | ⟨version, -⟩
  · exact ⟨inUse, version.symm.trans same, quiet⟩
  · omega
  · omega

/-- The version is one past the id only while its task runs. -/
theorem running_of_version (same : (shared.tasks id.slot).version = uint32 (id.version + 1)) :
    shared.history.running = some id := by
  have even : id.version % 2 = 0 := slots.even _ given
  by_cases free : shared.history.place id.slot = .free
  · have spare := slots.spare id.slot free
    have past : id.version < (shared.tasks id.slot).version := spare.past _ given rfl
    have fits := spare.fits
    have spareEven := spare.even
    rw [uint32_eq (by omega)] at same
    omega
  · have used := slots.used id.slot free
    have fits := used.fits
    have usedEven := used.even
    have latest := used.latest_le given
    rw [uint32_eq (by omega)] at same
    rcases used.version with ⟨version, -⟩ | ⟨version, -⟩ | ⟨version, isRunning⟩
    · omega
    · omega
    · have idVersion : (shared.tasks id.slot).idVersion = id.version := by omega
      rw [idVersion] at isRunning
      exact isRunning

end

theorem record_verdict {after : Shared}
    (record : Record shared)
    (versions : ∀ slot, (shared.tasks slot).version ≤ (after.tasks slot).version)
    (issued : after.history.issued = shared.history.issued)
    (runs : after.history.runs = shared.history.runs)
    (broken : after.history.broken = shared.history.broken)
    (verdicts : after.history.verdicts = verdict :: shared.history.verdicts)
    (zero : verdict.2.1 = 0 → verdict.1.version + 2 ≤ (after.tasks verdict.1.slot).version ∧
      verdict.1 ∉ shared.history.runs.map Prod.fst)
    (one : verdict.2.1 = 1 → verdict.2.2 = some verdict.1) : Record after := by
  refine ⟨?_, runs ▸ record.once, ?_, ?_, broken.trans record.sound⟩
  · intro run mem
    rw [runs] at mem
    rw [issued]
    obtain ⟨passed, ran⟩ := record.runs run mem
    exact ⟨Nat.lt_of_lt_of_le passed (versions _), ran⟩
  · intro other mem isZero
    rw [runs]
    rw [verdicts] at mem
    rcases mem_cons.mp mem with rfl | mem
    · exact zero isZero
    · obtain ⟨passed, never⟩ := record.cancelled other mem isZero
      exact ⟨Nat.le_trans passed (versions _), never⟩
  · intro other mem isOne
    rw [verdicts] at mem
    rcases mem_cons.mp mem with rfl | mem
    · exact one isOne
    · exact record.caught other mem isOne

theorem setVersion_tasks (shared : Shared) (slot version other : Nat) :
    (shared.setVersion slot version).tasks other =
      if other = slot then { shared.tasks slot with version := version }
      else shared.tasks other :=
  update_apply _ _ _ _

section

variable (common : Common shared) (caller : thread ≠ 0)
include common caller

theorem unschedule_pending_keeps (given : (id, runTime) ∈ shared.history.issued)
    (same : (shared.tasks id.slot).version = id.version) :
    Keeps thread shared (unscheduleStep shared id) := by
  have slots := common.slots
  obtain ⟨inUse, idVersion, quiet⟩ := pending_of_version slots given same
  have fits := (slots.used id.slot inUse).fits
  simp only [unscheduleStep, if_pos same, uint32_eq (show id.version + 2 < 2 ^ 32 by omega)]
  have tasks := setVersion_tasks shared id.slot (id.version + 2)
  refine ⟨⟨slots_exchanged id.slot (id.version + 2) slots ?_, ?_⟩, ⟨caller, trivial⟩, ?_⟩
  · exact {
      inUse := inUse
      elsewhere := fun _ _ => Iff.rfl
      called := fun other isRunning here => absurd here (quiet other isRunning)
      version := .inr (.inl ⟨by rw [idVersion], quiet⟩) }
  · refine record_verdict common.record ?_ rfl rfl rfl rfl (fun _ => ⟨?_, ?_⟩) (fun one => ?_)
    · intro slot
      rw [tasks]
      split
      · next here =>
        subst here
        exact same ▸ Nat.le_add_right _ 2
      · omega
    · exact Nat.le_of_eq (by rw [tasks, if_pos rfl])
    · intro mem
      obtain ⟨run, ran, isId⟩ := mem_map.mp mem
      have passed := (common.record.runs run ran).1
      rw [isId, same] at passed
      exact Nat.lt_irrefl _ passed
    · nomatch one
  · refine ⟨fun _ _ _ held => held, fun _ mem => mem, fun _ => rfl, ?_⟩
    intro _ slot atTimer
    rw [tasks]
    split
    · next here =>
      subst here
      exact ⟨atTimer, rfl, rfl, fun passed => absurd (same.trans idVersion.symm) passed⟩
    · exact ⟨atTimer, rfl, rfl, fun _ => rfl⟩

theorem unschedule_passed_keeps (passed : (shared.tasks id.slot).version ≠ id.version)
    (caught : (shared.tasks id.slot).version = uint32 (id.version + 1) → shared.history.running =
      some id) : Keeps thread shared (unscheduleStep shared id) := by
  have slots := common.slots
  simp only [unscheduleStep, if_neg passed]
  refine ⟨⟨{ slots with }, ?_⟩, ⟨caller, trivial⟩, ?_⟩
  · refine record_verdict common.record (fun _ => Nat.le_refl _) rfl rfl rfl rfl ?_ ?_
    · intro zero
      split at zero <;> nomatch zero
    · intro one
      split at one
      · next during => exact caught during
      · nomatch one
  · exact ⟨fun _ _ _ held => held, fun _ mem => mem, fun _ => rfl,
      fun _ _ atTimer => ⟨atTimer, rfl, rfl, fun _ => rfl⟩⟩

theorem unschedule_keeps (given : (id, runTime) ∈ shared.history.issued) :
    Keeps thread shared (unscheduleStep shared id) := by
  by_cases same : (shared.tasks id.slot).version = id.version
  · exact unschedule_pending_keeps common caller given same
  · exact unschedule_passed_keeps common caller same (running_of_version common.slots given)

end

end

section

variable (setup : Setup) {shared : Shared} {after : Shared}

/-- An action of the timer thread that leaves the slots of other threads alone. -/
theorem effect_timer
    (held : ∀ slot other, shared.history.place slot = .held other → after.history.place slot = .held
      other) (issued : after.history.issued = shared.history.issued) : Effect 0 shared after :=
  ⟨fun slot other _ => held slot other, fun _ mem => issued ▸ mem,
    fun caller => absurd rfl caller, fun caller => absurd rfl caller⟩

/-- A step of the timer thread that touches no task and no list. -/
theorem quiet_keeps (common : Common shared) (quiet : Quiet shared after)
    (returned : after.history.returned = shared.history.returned) (kept : Own 0 after own) :
    Keeps 0 shared (after, own) :=
  ⟨quiet_common common quiet fun _ mem => .inl (returned ▸ mem), kept, quiet_effect quiet⟩

theorem consuming_keeps (common : Common shared) (holding : Holding shared heap (.consuming bucket))
    (acted : runStep setup shared heap (.consuming bucket) = some result) :
    Keeps 0 shared result := by
  cases acted
  have slots := common.slots
  -- What the bucket has is not in the heap yet.
  have apart : ∀ slot ∈ (shared.buckets bucket).taskHead, slot ∉ heap := by
    intro slot mem inHeap
    have placed := slots.buckets bucket slot mem
    rw [holding.timer slot inHeap] at placed
    nomatch placed
  have place : ∀ slot target, shared.history.place slot = target → (∀ index, target ≠ .bucket index) →
      (if slot ∈ (shared.buckets bucket).taskHead then .timer else shared.history.place slot) =
        target := by
    intro slot target placed outside
    rw [if_neg, placed]
    intro mem
    exact outside bucket (placed.symm.trans (slots.buckets bucket slot mem))
  refine ⟨⟨slots_moved slots ⟨rfl, rfl, rfl, ?_, ?_, ?_, fun _ => .inl, ?_, ?_⟩, ?_⟩,
    ⟨rfl, ?_, ?_, holding.atHand⟩, effect_timer ?_ rfl⟩
  · intro slot free
    dsimp only at free
    split at free
    · nomatch free
    · exact .inl free
  · intro slot inUse free
    exact inUse (place slot .free free nofun)
  · intro id isRunning
    exact place id.slot .timer (slots.running id isRunning) nofun
  · intro index slot mem
    dsimp only at mem ⊢
    rw [update_apply] at mem
    split at mem
    · nomatch mem
    · next distinct =>
      have placed := slots.buckets index slot mem
      rw [if_neg]
      · exact placed
      · intro here
        exact distinct (Place.bucket.inj (placed.symm.trans (slots.buckets bucket slot here)))
  · intro index
    dsimp only
    rw [update_apply]
    split
    · exact nodup_nil
    · exact slots.listed index
  · exact record_grows common.record (fun _ => Nat.le_refl _) (fun _ mem => mem) rfl rfl rfl
  · intro slot mem
    rcases mem_append.mp mem with here | inHeap
    · exact if_pos here
    · exact place slot .timer (holding.timer slot inHeap) nofun
  · exact nodup_append'.mpr ⟨slots.listed bucket, holding.distinct, apart⟩
  · intro slot other held
    exact place slot (.held other) held nofun

theorem free_keeps (common : Common shared)
    (atTimer : shared.history.place slot = .timer)
    (passed : (shared.tasks slot).version = (shared.tasks slot).idVersion + 2)
    (idle : shared.history.running = none)
    (tasks : after.tasks = shared.tasks) (buckets : after.buckets = shared.buckets)
    (history : after.history = { shared.history with
      place := update shared.history.place slot .free })
    (timer : ∀ other ∈ at_.slots ++ heap, other ≠ slot ∧ shared.history.place other = .timer)
    (distinct : (at_.slots ++ heap).Nodup) (atHand : AtHand after heap at_) :
    Keeps 0 shared (after, .running heap at_) := by
  have slots := common.slots
  have elsewhere : ∀ other ≠ slot,
      after.history.place other = shared.history.place other := by
    intro other apart
    rw [history]
    exact update_of_ne apart _ _
  have notHere : ∀ other place, shared.history.place other = place → place ≠ .timer →
      after.history.place other = place := by
    intro other place placed apart
    rw [elsewhere, placed]
    rintro rfl
    exact apart (placed.symm.trans atTimer)
  refine ⟨⟨slots_moved slots ⟨tasks, by rw [history], by rw [history], ?_, ?_, ?_, ?_, ?_, ?_⟩, ?_⟩,
    ⟨rfl, ?_, distinct, atHand⟩, effect_timer ?_ (by rw [history])⟩
  · intro other free
    by_cases same : other = slot
    · exact .inr (same ▸ passed)
    · exact .inl (elsewhere other same ▸ free)
  · intro other inUse free
    exact inUse (notHere other .free free nofun)
  · intro id isRunning
    rw [idle] at isRunning
    nomatch isRunning
  · intro id mem
    rw [history] at mem
    exact .inl mem
  · intro index other mem
    rw [buckets] at mem
    exact notHere other _ (slots.buckets index other mem) nofun
  · exact buckets ▸ slots.listed
  · refine record_grows common.record (fun _ => Nat.le_of_eq (tasks ▸ rfl)) ?_ ?_ ?_ ?_
    · intro _ mem
      rw [history]
      exact mem
    · rw [history]
    · rw [history]
    · rw [history]
  · intro other mem
    obtain ⟨apart, placed⟩ := timer other mem
    exact (elsewhere other apart).trans placed
  · intro other _ held
    exact notHere other _ held nofun

section

variable (common : Common shared)
include common

theorem sortStep_keeps (holding : Holding shared heap (.sorting bucket (slot :: left))) :
    Keeps 0 shared (sortStep shared heap bucket slot left) := by
  have atTimer : shared.history.place slot = .timer :=
    holding.timer slot (mem_append_left _ (.head _))
  have idle : shared.history.running = none := holding.atHand
  obtain ⟨apart, distinct⟩ : slot ∉ left ++ heap ∧ (left ++ heap).Nodup :=
    nodup_cons.mp holding.distinct
  have rest : ∀ other ∈ left ++ heap, shared.history.place other = .timer :=
    fun other mem => holding.timer other (.tail _ mem)
  have used := common.slots.used slot (by rw [atTimer]; exact nofun)
  by_cases passed : (shared.tasks slot).version = (shared.tasks slot).idVersion
  · simp only [sortStep, ne_eq, passed, not_true_eq_false, if_false]
    refine quiet_keeps common {} rfl ⟨rfl, ?_, ?_, idle⟩
    · intro other mem
      rcases mem_append.mp mem with inLeft | inHeap
      · exact rest other (mem_append_left _ inLeft)
      · rcases mem_cons.mp inHeap with rfl | inHeap
        · exact atTimer
        · exact rest other (mem_append_right _ inHeap)
    · exact nodup_middle.mpr holding.distinct
  · have two : (shared.tasks slot).version = (shared.tasks slot).idVersion + 2 := by
      rcases used.version with ⟨version, -⟩ | ⟨version, -⟩ | ⟨-, isRunning⟩
      · exact absurd version passed
      · exact version
      · rw [idle] at isRunning
        nomatch isRunning
    have checked : (shared.history.broken ||
        decide ((shared.tasks slot).version ≠ uint32 ((shared.tasks slot).idVersion + 2))) =
          shared.history.broken := by
      rw [uint32_eq used.fits, decide_eq_false (fun differs => differs two), Bool.or_false]
    simp only [sortStep, if_pos passed, checked]
    refine free_keeps common atTimer two idle rfl rfl rfl ?_ distinct idle
    intro other mem
    exact ⟨fun same => apart (same ▸ mem), rest other mem⟩

/-- A task that has not run yet is added to those that ran. -/
theorem exchange_record
    (used : Used shared.history.issued shared.history.running slot (shared.tasks slot))
    (pending : (shared.tasks slot).version = (shared.tasks slot).idVersion)
    (due : (shared.tasks slot).runTime ≤ now)
    (tasks : after.tasks = (shared.setVersion slot ((shared.tasks slot).idVersion + 1)).tasks)
    (history : after.history = { shared.history with
      runs := (shared.idOf slot, now) ::
      shared.history.runs
      running := some (shared.idOf slot) }) : Record after := by
  have record := common.record
  have versions : ∀ other, (shared.tasks other).version ≤ (after.tasks other).version := by
    intro other
    rw [tasks, setVersion_tasks]
    split
    · next here =>
      subst here
      exact pending ▸ Nat.le_succ _
    · omega
  have here : (after.tasks slot).version = (shared.tasks slot).idVersion + 1 := by
    rw [tasks, setVersion_tasks, if_pos rfl]
  refine ⟨?_, ?_, ?_, ?_, ?_⟩
  · rw [history]
    intro run mem
    rcases mem_cons.mp mem with rfl | mem
    · exact ⟨Nat.lt_of_lt_of_eq (Nat.lt_succ_self _) here.symm, _, used.given, due⟩
    · obtain ⟨passed, ran⟩ := record.runs run mem
      exact ⟨Nat.lt_of_lt_of_le passed (versions _), ran⟩
  · rw [history]
    refine nodup_cons.mpr ⟨?_, record.once⟩
    intro mem
    obtain ⟨run, ran, same⟩ := mem_map.mp mem
    have passed := (record.runs run ran).1
    rw [same] at passed
    exact Nat.lt_irrefl _ (pending ▸ passed)
  · rw [history]
    intro verdict mem zero
    obtain ⟨passed, never⟩ := record.cancelled verdict mem zero
    refine ⟨Nat.le_trans passed (versions _), ?_⟩
    intro ran
    rcases mem_cons.mp ran with same | ran
    · rw [same] at passed
      have : (shared.tasks slot).idVersion + 2 ≤ (shared.tasks slot).version := passed
      omega
    · exact never ran
  · rw [history]
    exact record.caught
  · rw [history]
    exact record.sound

theorem exchangeStep_keeps (holding : Holding shared heap (.exchanging slot now)) :
    Keeps 0 shared (exchangeStep shared heap slot now) := by
  obtain ⟨idle, due⟩ := holding.atHand
  have atTimer : shared.history.place slot = .timer := holding.timer slot (.head _)
  have inUse : shared.history.place slot ≠ .free := by
    rw [atTimer]
    exact nofun
  have used := common.slots.used slot inUse
  have fits := used.fits
  rcases used.version with ⟨pending, -⟩ | ⟨passed, -⟩ | ⟨-, isRunning⟩
  · simp only [exchangeStep, if_pos pending,
      uint32_eq (show (shared.tasks slot).idVersion + 1 < 2 ^ 32 by omega)]
    refine ⟨⟨slots_exchanged slot ((shared.tasks slot).idVersion + 1) common.slots ?_,
      exchange_record common used pending due rfl rfl⟩,
      ⟨rfl, holding.timer, holding.distinct, ?_⟩, effect_timer (fun _ _ held => held) rfl⟩
    · exact {
        inUse := inUse
        elsewhere := by
          intro _ distinct
          rw [idle]
          exact ⟨fun same => absurd (congrArg TaskId.slot (Option.some.inj same)).symm distinct,
            nofun⟩
        called := fun _ _ _ => atTimer
        version := .inr (.inr ⟨rfl, rfl⟩) }
    · simp [AtHand, Shared.idOf, setVersion_tasks]
  · have notPending : (shared.tasks slot).version ≠ (shared.tasks slot).idVersion := by omega
    simp only [exchangeStep, if_neg notPending, uint32_eq fits, if_pos passed]
    obtain ⟨apart, distinct⟩ : slot ∉ heap ∧ heap.Nodup := nodup_cons.mp holding.distinct
    refine free_keeps common atTimer passed idle rfl rfl rfl ?_ distinct idle
    intro other mem
    exact ⟨fun same => apart (same ▸ mem), holding.timer other (.tail _ mem)⟩
  · rw [idle] at isRunning
    nomatch isRunning

theorem calling_keeps (holding : Holding shared heap (.calling slot))
    (acted : runStep setup shared heap (.calling slot) = some result) : Keeps 0 shared result := by
  cases acted
  have isRunning : shared.history.running = some (shared.idOf slot) := holding.atHand
  have atTimer : shared.history.place slot = .timer := holding.timer slot (.head _)
  have inUse : shared.history.place slot ≠ .free := by
    rw [atTimer]
    exact nofun
  have used := common.slots.used slot inUse
  have version : (shared.tasks slot).version ≤ (shared.tasks slot).idVersion + 2 := by
    rcases used.version with ⟨version, -⟩ | ⟨version, -⟩ | ⟨version, -⟩ <;> omega
  simp only [uint32_eq used.fits]
  refine ⟨⟨slots_exchanged slot ((shared.tasks slot).idVersion + 2) common.slots ?_, ?_⟩,
    ⟨rfl, holding.timer, holding.distinct, ?_⟩, effect_timer (fun _ _ held => held) rfl⟩
  · exact {
      inUse := inUse
      elsewhere := by
        intro _ distinct
        rw [isRunning]
        exact ⟨nofun, fun same => absurd (congrArg TaskId.slot (Option.some.inj same)).symm distinct⟩
      called := nofun
      version := .inr (.inl ⟨rfl, nofun⟩) }
  · refine record_grows common.record ?_ (fun _ mem => mem) rfl rfl rfl
    intro _
    rw [setVersion_tasks]
    split
    · next here =>
      subst here
      exact version
    · omega
  · simp [AtHand, setVersion_tasks]

theorem returning_keeps (holding : Holding shared heap (.returning slot))
    (acted : runStep setup shared heap (.returning slot) = some result) :
    Keeps 0 shared result := by
  cases acted
  obtain ⟨idle, passed⟩ := holding.atHand
  obtain ⟨apart, distinct⟩ : slot ∉ heap ∧ heap.Nodup := nodup_cons.mp holding.distinct
  refine free_keeps common (holding.timer slot (.head _)) passed idle rfl rfl rfl ?_
    distinct idle
  intro other mem
  exact ⟨fun same => apart (same ▸ mem), holding.timer other (.tail _ mem)⟩

/-- The timer thread takes the task at the top out of its heap. -/
theorem comparing_keeps (holding : Holding shared heap (.comparing slot now))
    (acted : runStep setup shared heap (.comparing slot now) = some result) :
    Keeps 0 shared result := by
  obtain ⟨idle, mem, due⟩ := holding.atHand
  simp only [runStep] at acted
  split at acted
  · cases acted
    exact quiet_keeps common {} rfl ⟨rfl, holding.timer, holding.distinct, idle⟩
  · cases acted
    have erased : (slot :: heap.erase slot).Perm heap := (perm_cons_erase mem).symm
    refine quiet_keeps common {} rfl ⟨rfl, ?_, ?_, idle, due⟩
    · intro other inside
      exact holding.timer other (erased.subset inside)
    · exact erased.nodup_iff.mpr holding.distinct

theorem runStep_keeps (holding : Holding shared heap at_)
    (acted : runStep setup shared heap at_ = some result) : Keeps 0 shared result := by
  -- Where the heap stays and no task is at hand, only the stage changes.
  have onward {after : Shared} {next : Running} (atHand : AtHand after heap next)
      (quiet : Quiet shared after := by exact {})
      (returned : after.history.returned = shared.history.returned := by rfl)
      (none : next.slots = [] := by rfl) (isNone : at_.slots = [] := by rfl) :
      Keeps 0 shared (after, .running heap next) := by
    refine quiet_keeps common quiet returned ⟨rfl, ?_, ?_, atHand⟩
    · intro slot mem
      rw [none] at mem
      exact quiet.place ▸ holding.timer slot (by rw [isNone]; exact mem)
    · have distinct := holding.distinct
      rw [isNone] at distinct
      rw [none]
      exact distinct
  cases at_ with
  | top | deciding =>
    simp only [runStep] at acted
    split at acted
    · cases acted
      exact onward holding.atHand
    · cases acted
      exact onward holding.atHand
  | resetting | sleeping _ _ =>
    cases acted
    exact onward holding.atHand
  | pulling bucket =>
    simp only [runStep] at acted
    split at acted
    · split at acted
      · cases acted
        exact onward holding.atHand
      · cases acted
        exact onward holding.atHand
    · cases acted
      exact onward holding.atHand
  | consuming bucket => exact consuming_keeps setup common holding acted
  | sorting bucket left =>
    cases left with
    | nil =>
      cases acted
      exact onward holding.atHand
    | cons slot left =>
      cases acted
      exact sortStep_keeps common holding
  | picking =>
    obtain ⟨-, acted⟩ := Option.ite_none_right_eq_some.mp acted
    cases acted
    exact onward holding.atHand
  | comparing slot now => exact comparing_keeps setup common holding acted
  | exchanging slot now =>
    cases acted
    exact exchangeStep_keeps common holding
  | calling slot => exact calling_keeps setup common holding acted
  | returning slot => exact returning_keeps setup common holding acted
  | stopped => nomatch acted

theorem pickStep_keeps (holding : Holding shared heap .picking)
    (acted : pickStep shared heap slot now = some result) : Keeps 0 shared result := by
  obtain ⟨⟨mem, -⟩, acted⟩ := Option.ite_none_right_eq_some.mp acted
  split at acted
  · cases acted
    exact quiet_keeps common {} rfl ⟨rfl, holding.timer, holding.distinct, holding.atHand⟩
  · next due =>
    cases acted
    exact quiet_keeps common {} rfl
      ⟨rfl, holding.timer, holding.distinct, holding.atHand, mem, Int.not_lt.mp due⟩

end

end

section

variable (setup : Setup)

theorem act_keeps {state : State} {thread : Nat} (common : Common state.shared)
    (own : Own thread state.shared (state.locals thread)) (proper : Proper state (thread, event))
    (acted : act setup thread state.shared (state.locals thread) event = some result) :
    Keeps thread state.shared result := by
  generalize state.locals thread = before at own acted
  obtain ⟨role, stage⟩ := own
  unfold act at acted
  split at acted
  · split at acted
    · cases acted
      exact ⟨common, ⟨role, trivial⟩, quiet_effect {}⟩
    · obtain ⟨free, acted⟩ := Option.ite_none_right_eq_some.mp acted
      cases acted
      exact fill_keeps free proper.2 common role
  · next id =>
    cases acted
    rcases proper.2 with rfl | returned
    · refine unschedule_passed_keeps common role ?_ ?_
      · have started := common.slots.started invalidTaskId.slot
        exact fun same => absurd (same ▸ started) (by decide)
      · have started := common.slots.started invalidTaskId.slot
        exact fun same => absurd (same ▸ started) (by decide)
    · obtain ⟨_, given⟩ := common.slots.returned id returned
      exact unschedule_keeps common role given
  · cases acted
    exact ⟨quiet_common common {} (fun _ => .inl), ⟨role, trivial⟩, quiet_effect {}⟩
  · cases acted
    exact insert_keeps setup common role stage
  · cases acted
    exact announce_keeps common role stage
  · cases acted
    exact returnSchedule_keeps common role stage {} rfl
  · cases acted
    exact ⟨quiet_common common {} (fun _ => .inl), ⟨role, trivial⟩, quiet_effect {}⟩
  · obtain rfl : thread = 0 := role
    exact pickStep_keeps common stage acted
  · obtain rfl : thread = 0 := role
    exact runStep_keeps setup common stage acted
  · nomatch acted

theorem slotOutline_sound : slotOutline.Sound (act setup) Proper := by
  refine Outline.sound_of_moves (fun _ _ => trivial) ?_
  intro state thread event shared own holds proper acted
  have keeps := act_keeps setup holds.common (holds.own thread) proper acted
  exact ⟨keeps.common, keeps.own, fun other distinct =>
    own_effect distinct (holds.own other) keeps.effect⟩

theorem slotOutline_start : slotOutline.Holds State.start := by
  refine ⟨⟨⟨?_, fun _ used => absurd rfl used, nofun, nofun, nodup_nil, nofun, nofun,
    fun _ => nodup_nil⟩, ⟨nofun, nodup_nil, nofun, nofun, rfl⟩⟩, ?_,
    fun _ _ _ => trivial⟩
  · intro slot _
    have spare : Spare [] none slot ⟨2, 0, 0⟩ := ⟨by decide, by decide, by decide, nofun, nofun⟩
    exact spare
  · intro thread
    by_cases timer : thread = 0
    · subst timer
      exact ⟨rfl, nofun, nodup_nil, rfl⟩
    · have idle : State.start.locals thread = .idle := if_neg timer
      rw [idle]
      exact ⟨timer, trivial⟩

end

end CodeReading.Brpc.Timer
