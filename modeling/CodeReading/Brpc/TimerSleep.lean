import CodeReading.Brpc.TimerTasks

/-!
# The timer thread does not oversleep

A bucket knows the earliest run time it was given since its tasks were taken. The
timer thread clears `_nearest_run_time` and then takes the tasks of one bucket after
the other; from then on a task that becomes the nearest of its bucket is on its way
to `_nearest_run_time`, with the thread that schedules it. So for each bucket that
was pulled, either `_nearest_run_time` is as early as the bucket, or some thread is
about to announce a task that is. `stop_and_join` writes its own time there, so this
is said of runs up to it.
-/

namespace CodeReading.Brpc.Timer

open Threads List Function

/-- The time of a bucket bounds its tasks, and the times of pulled buckets are known or about to
be announced. -/
structure Bounds (setup : Setup) (shared : Shared) : Prop where
  nearest : ∀ index, ∀ slot ∈ (shared.buckets index).taskHead,
    (shared.buckets index).nearestRunTime ≤ (shared.tasks slot).runTime
  empty : ∀ index, (shared.buckets index).taskHead = [] →
    (shared.buckets index).nearestRunTime = int64Max
  largest : shared.nearestRunTime ≤ int64Max
  pulled : shared.stop = false → ∀ index < shared.history.covered,
    shared.nearestRunTime ≤ (shared.buckets index).nearestRunTime ∨
      ∃ entry ∈ shared.history.pending, setup.bucketOf entry.1 = index ∧
        entry.2 ≤ (shared.buckets index).nearestRunTime

/-- How many buckets the timer thread has pulled, and what it knows when it sleeps. -/
def Progress (setup : Setup) (shared : Shared) : Running → Prop
  | .top | .resetting | .stopped => True
  | .pulling bucket | .consuming bucket => shared.history.covered = bucket
  | .sorting bucket _ => shared.history.covered = bucket + 1
  | .sleeping nextRunTime expected =>
      setup.numBuckets ≤ shared.history.covered ∧ expected ≤ shared.nsignals ∧
        (shared.nsignals = expected → nextRunTime ≤ shared.nearestRunTime)
  | _ => setup.numBuckets ≤ shared.history.covered

/-- A thread whose task is pending is about to announce it. -/
structure Announces (setup : Setup) (thread : Nat) (shared : Shared) (own : Local) : Prop where
  pending : ∀ runTime, (thread, runTime) ∈ shared.history.pending →
    ∃ id, own = .announcing id runTime
  progress : ∀ heap at_, own = .running heap at_ → Progress setup shared at_
  stopping : own = .stopping → shared.stop = true

def sleepOutline (setup : Setup) : Outline Shared Local where
  common := Bounds setup
  own := Announces setup
  apart := fun _ _ => True

/-- What an action of one thread does to the others. -/
structure Disturbs (thread : Nat) (before after : Shared) : Prop where
  pending : ∀ other runTime, other ≠ thread → (other, runTime) ∈ after.history.pending →
    (other, runTime) ∈ before.history.pending
  covered : thread ≠ 0 → after.history.covered = before.history.covered
  signals : thread ≠ 0 → (after.nsignals = before.nsignals ∧
    after.nearestRunTime = before.nearestRunTime) ∨ before.nsignals < after.nsignals
  stop : before.stop = true → after.stop = true

theorem progress_disturbed {before after : Shared}
    (caller : thread ≠ 0) (disturbs : Disturbs thread before after)
    (progress : Progress setup before at_) : Progress setup after at_ := by
  have covered := disturbs.covered caller
  have all : setup.numBuckets ≤ before.history.covered →
      setup.numBuckets ≤ after.history.covered := fun reached => covered ▸ reached
  cases at_ with
  | sleeping nextRunTime expected =>
    obtain ⟨reached, seen, bound⟩ := progress
    refine ⟨all reached, ?_⟩
    rcases disturbs.signals caller with ⟨signals, nearest⟩ | more
    · rw [signals, nearest]
      exact ⟨seen, bound⟩
    · exact ⟨by omega, by omega⟩
  | top | resetting | stopped => trivial
  | pulling _ | consuming _ | sorting _ _ => exact covered.trans progress
  | picking | comparing _ _ | exchanging _ _ | calling _ | returning _ | deciding =>
    exact all progress

structure Rests (setup : Setup) (thread : Nat) (before : Shared) (result : Shared × Local) :
    Prop where
  common : Bounds setup result.1
  own : Announces setup thread result.1 result.2
  disturbs : Disturbs thread before result.1

/-- The action leaves the buckets and the times alone. -/
structure Bystander (before after : Shared) : Prop where
  buckets : after.buckets = before.buckets := by rfl
  nearest : after.nearestRunTime = before.nearestRunTime := by rfl
  covered : after.history.covered = before.history.covered := by rfl
  pending : after.history.pending = before.history.pending := by rfl
  nsignals : after.nsignals = before.nsignals := by rfl
  stop : before.stop = true → after.stop = true := by exact fun stopped => stopped

section

variable {shared after : Shared}

theorem bystander_bounds (bounds : Bounds setup shared) (bystander : Bystander shared after)
    (runTimes : ∀ index, ∀ slot ∈ (shared.buckets index).taskHead,
      (after.tasks slot).runTime = (shared.tasks slot).runTime) : Bounds setup after := by
  obtain ⟨buckets, nearest, covered, pending, -, stop⟩ := bystander
  refine ⟨?_, buckets ▸ bounds.empty, nearest ▸ bounds.largest, ?_⟩
  · rw [buckets]
    intro index slot mem
    rw [runTimes index slot mem]
    exact bounds.nearest index slot mem
  · rw [buckets, covered, pending, nearest]
    intro working
    refine bounds.pulled (Bool.eq_false_iff.mpr fun stopped => ?_)
    exact Bool.false_ne_true (working.symm.trans (stop stopped))

theorem bystander_disturbs (bystander : Bystander shared after) : Disturbs thread shared after :=
  ⟨fun _ _ _ mem => bystander.pending ▸ mem, fun _ => bystander.covered,
    fun _ => .inl ⟨bystander.nsignals, bystander.nearest⟩, bystander.stop⟩

section

variable (bounds : Bounds setup shared)
include bounds

/-- A step that leaves the buckets and the times alone. -/
theorem bystander_rests (bystander : Bystander shared after)
    (runTimes : ∀ index, ∀ slot ∈ (shared.buckets index).taskHead, (after.tasks slot).runTime =
      (shared.tasks slot).runTime) (silent : ∀ runTime, (thread, runTime) ∉ shared.history.pending)
    (progress : ∀ heap at_, own = .running heap at_ → Progress setup after at_)
    (stopping : own = .stopping → after.stop = true) : Rests setup thread shared (after, own) := by
  refine ⟨bystander_bounds bounds bystander runTimes, ⟨?_, progress, stopping⟩,
    bystander_disturbs bystander⟩
  intro runTime mem
  exact absurd (bystander.pending ▸ mem) (silent runTime)

/-- A bucket is replaced by one that is bounded and known too. -/
theorem bounds_update {after : Shared} {index : Nat} {bucket : Bucket}
    (buckets : after.buckets = update shared.buckets index bucket)
    (listed : ∀ slot ∈ bucket.taskHead, bucket.nearestRunTime ≤ (shared.tasks slot).runTime)
    (empty : bucket.taskHead = [] → bucket.nearestRunTime = int64Max)
    (known : shared.stop = false → index < after.history.covered →
      shared.nearestRunTime ≤ bucket.nearestRunTime ∨ ∃ entry ∈ after.history.pending,
        setup.bucketOf entry.1 = index ∧ entry.2 ≤ bucket.nearestRunTime)
    (covered : ∀ other < after.history.covered, other ≠ index → other < shared.history.covered)
    (pending : ∀ entry ∈ shared.history.pending, entry ∈ after.history.pending)
    (tasks : after.tasks = shared.tasks := by rfl)
    (nearest : after.nearestRunTime = shared.nearestRunTime := by rfl)
    (stop : after.stop = shared.stop := by rfl) : Bounds setup after := by
  refine ⟨?_, ?_, nearest ▸ bounds.largest, ?_⟩ <;> rw [buckets]
  · intro other
    rw [tasks]
    rcases eq_or_ne other index with rfl | differ
    · rwa [update_self]
    · rw [update_of_ne differ]
      exact bounds.nearest other
  · intro other
    rcases eq_or_ne other index with rfl | differ
    · rwa [update_self]
    · rw [update_of_ne differ]
      exact bounds.empty other
  · rw [stop, nearest]
    intro working other reached
    rcases eq_or_ne other index with rfl | differ
    · rw [update_self]
      exact known working reached
    · rw [update_of_ne differ]
      exact (bounds.pulled working other (covered other reached differ)).imp_right
        fun ⟨entry, mem, rest⟩ => ⟨entry, pending entry mem, rest⟩

theorem insert_rests (silent : ∀ runTime, (thread, runTime) ∉ shared.history.pending) :
    Rests setup thread shared (insertStep setup thread shared slot) := by
  unfold insertStep
  dsimp only
  split
  · next earlier =>
    refine ⟨bounds_update bounds rfl ?_ nofun ?_ (fun _ less _ => less) (fun _ => .tail _),
      ⟨?_, nofun, nofun⟩, ⟨?_, fun _ => rfl, fun _ => .inl ⟨rfl, rfl⟩, id⟩⟩
    · intro other mem
      rcases mem_cons.mp mem with rfl | mem
      · exact Int.le_refl _
      · exact Int.le_trans (Int.le_of_lt earlier) (bounds.nearest _ other mem)
    · exact fun _ _ => .inr ⟨_, .head _, rfl, Int.le_refl _⟩
    · intro runTime mem
      rcases mem_cons.mp mem with same | mem
      · obtain rfl : runTime = _ := congrArg Prod.snd same
        exact ⟨_, rfl⟩
      · exact absurd mem (silent runTime)
    · intro other runTime distinct mem
      rcases mem_cons.mp mem with same | mem
      · exact absurd (congrArg Prod.fst same) distinct
      · exact mem
  · next later =>
    refine ⟨bounds_update bounds rfl ?_ nofun ?_ (fun _ less _ => less) (fun _ => id),
      ⟨fun runTime mem => absurd mem (silent runTime), nofun, nofun⟩,
      ⟨fun _ _ _ mem => mem, fun _ => rfl, fun _ => .inl ⟨rfl, rfl⟩, id⟩⟩
    · intro other mem
      rcases mem_cons.mp mem with rfl | mem
      · exact Int.not_lt.mp later
      · exact bounds.nearest _ other mem
    · exact fun working reached => bounds.pulled working _ reached

/-- The nearest task of a bucket is compared with `_nearest_run_time`. -/
theorem announce_rests {id : TaskId}
    (announces : Announces setup thread shared (.announcing id runTime))
    (signals : shared.nsignals + 1 < 2 ^ 32) :
    Rests setup thread shared (announceStep thread shared id runTime) := by
  have silent : ∀ time, (thread, time) ∉
      shared.history.pending.filter fun entry => entry.1 ≠ thread := by
    intro time mem
    exact of_decide_eq_true (mem_filter.mp mem).2 rfl
  -- The entries of this thread have its run time, and the others are still there.
  have announced : ∀ nearest : Int, nearest ≤ shared.nearestRunTime → nearest ≤ runTime →
      shared.stop = false → ∀ index < shared.history.covered,
      nearest ≤ (shared.buckets index).nearestRunTime ∨
        ∃ entry ∈ shared.history.pending.filter fun entry => entry.1 ≠ thread,
          setup.bucketOf entry.1 = index ∧ entry.2 ≤ (shared.buckets index).nearestRunTime := by
    intro nearest _ _ working index reached
    rcases bounds.pulled working index reached with known | ⟨entry, mem, here, bound⟩
    · exact .inl (by omega)
    · by_cases mine : entry.1 = thread
      · obtain ⟨other, same⟩ := announces.pending entry.2 (mine ▸ mem)
        obtain ⟨-, rfl⟩ := Local.announcing.inj same
        exact .inl (by omega)
      · exact .inr ⟨entry, mem_filter.mpr ⟨mem, decide_eq_true mine⟩, here, bound⟩
  have others : ∀ other time, other ≠ thread →
      (other, time) ∈ (shared.history.pending.filter fun entry => entry.1 ≠ thread) →
      (other, time) ∈ shared.history.pending :=
    fun _ _ _ mem => (mem_filter.mp mem).1
  unfold announceStep
  dsimp only
  split
  · next earlier =>
    refine ⟨⟨bounds.nearest, bounds.empty, ?_, ?_⟩, ⟨?_, nofun, nofun⟩,
      ⟨others, fun _ => rfl, ?_, fun stopped => stopped⟩⟩
    · exact Int.le_trans (Int.le_of_lt earlier) bounds.largest
    · exact announced runTime (by omega) (Int.le_refl _)
    · exact fun time mem => absurd mem (silent time)
    · intro _
      right
      rw [uint32_eq signals]
      exact Nat.lt_succ_self _
  · next later =>
    refine ⟨{ bounds with pulled := ?_ }, ⟨?_, nofun, nofun⟩,
      ⟨others, fun _ => rfl, fun _ => .inl ⟨rfl, rfl⟩, fun stopped => stopped⟩⟩
    · exact announced _ (Int.le_refl _) (Int.not_lt.mp later)
    · exact fun time mem => absurd mem (silent time)

theorem stop_rests (stopped : shared.stop = true) (signals : shared.nsignals + 1 < 2 ^ 32)
    (silent : ∀ runTime, (thread, runTime) ∉ shared.history.pending)
    (acted : act setup thread shared .stopping .proceed = some result) :
    Rests setup thread shared result := by
  cases acted
  refine ⟨⟨bounds.nearest, bounds.empty, show (0 : Int) ≤ int64Max by decide, ?_⟩, ⟨?_, nofun, nofun⟩,
    ⟨fun _ _ _ mem => mem, fun _ => rfl, fun _ => .inr ?_, id⟩⟩
  · intro working
    exact absurd (working.symm.trans stopped) Bool.false_ne_true
  · exact fun runTime mem => absurd mem (silent runTime)
  · dsimp only
    rw [uint32_eq signals]
    omega

end

end

section

variable {shared : Shared}

/-- A step of the timer thread that leaves the buckets and the times alone. -/
theorem stage_rests {next : List Nat} {after : Shared} (bounds : Bounds setup shared)
    (silent : ∀ runTime, (0, runTime) ∉ shared.history.pending)
    (progress : Progress setup after at_) (bystander : Bystander shared after := by exact {})
    (runTimes : ∀ slot, (after.tasks slot).runTime = (shared.tasks slot).runTime := by
      exact fun _ => rfl) : Rests setup 0 shared (after, .running next at_) := by
  refine bystander_rests bounds bystander (fun _ slot _ => runTimes slot) silent ?_ nofun
  intro _ stage same
  obtain ⟨-, rfl⟩ := Local.running.inj same
  exact progress

/-- A step of the timer thread that changes what it has pulled. -/
theorem pull_rests {after : Shared} (bounds : Bounds setup after)
    (silent : ∀ runTime, (0, runTime) ∉ shared.history.pending)
    (pending : after.history.pending = shared.history.pending) (stop : after.stop = shared.stop)
    (progress : Progress setup after at_) : Rests setup 0 shared (after, .running heap at_) := by
  refine ⟨bounds, ⟨?_, ?_, nofun⟩, ⟨?_, fun caller => absurd rfl caller,
    fun caller => absurd rfl caller, fun stopped => stop.trans stopped⟩⟩
  · exact fun runTime mem => absurd (pending ▸ mem) (silent runTime)
  · intro _ _ same
    obtain ⟨-, rfl⟩ := Local.running.inj same
    exact progress
  · exact fun _ _ _ mem => pending ▸ mem

theorem setVersion_runTime (slot version other : Nat) :
    ((shared.setVersion slot version).tasks other).runTime = (shared.tasks other).runTime := by
  rw [setVersion_tasks]
  split
  · next same => rw [same]
  · rfl

section

variable (bounds : Bounds setup shared) (silent : ∀ runTime, (0, runTime) ∉ shared.history.pending)
include bounds silent

theorem sortStep_rests {bucket slot : Nat}
    (progress : Progress setup shared (.sorting bucket (slot :: left))) :
    Rests setup 0 shared (sortStep shared heap bucket slot left) := by
  unfold sortStep
  dsimp only
  split
  · exact stage_rests bounds silent progress
  · exact stage_rests bounds silent progress

theorem exchangeStep_rests {slot : Nat} (progress : Progress setup shared (.exchanging slot now)) :
    Rests setup 0 shared (exchangeStep shared heap slot now) := by
  unfold exchangeStep
  dsimp only
  split
  · exact stage_rests bounds silent progress {} (setVersion_runTime slot _)
  · split
    · exact stage_rests bounds silent progress
    · exact stage_rests bounds silent progress

theorem consuming_rests (progress : Progress setup shared (.consuming bucket))
    (acted : runStep setup shared heap (.consuming bucket) = some result) :
    Rests setup 0 shared result := by
  cases acted
  refine pull_rests (bounds_update bounds rfl nofun (fun _ => rfl) (fun _ _ => .inl bounds.largest) ?_
    fun _ => id) silent rfl rfl rfl
  intro index reached _
  have covered : shared.history.covered = bucket := progress
  dsimp only at reached
  omega

theorem runStep_rests {result : Shared × Local} (progress : Progress setup shared at_)
    (acted : runStep setup shared heap at_ = some result) : Rests setup 0 shared result := by
  have onward : ∀ (next : List Nat) (stage : Running), Progress setup shared stage →
      Rests setup 0 shared (shared, .running next stage) :=
    fun next stage progress => stage_rests bounds silent progress
  cases at_ with
  | top =>
    simp only [runStep] at acted
    split at acted
    · cases acted
      exact onward _ _ trivial
    · cases acted
      exact onward _ _ trivial
  | resetting =>
    cases acted
    exact pull_rests ⟨bounds.nearest, bounds.empty, Int.le_refl _,
      fun _ index none => absurd none (Nat.not_lt_zero index)⟩ silent rfl rfl rfl
  | pulling bucket =>
    have covered : shared.history.covered = bucket := progress
    simp only [runStep] at acted
    split at acted
    · split at acted
      · next none =>
        cases acted
        refine pull_rests { bounds with pulled := ?_ } silent rfl rfl rfl
        intro working index reached
        dsimp only at reached ⊢
        by_cases same : index = bucket
        · rw [same, bounds.empty bucket none]
          exact .inl bounds.largest
        · exact bounds.pulled working index (by omega)
      · cases acted
        exact onward _ _ covered
    · next all =>
      cases acted
      exact onward _ _ (show setup.numBuckets ≤ shared.history.covered by omega)
  | consuming bucket => exact consuming_rests bounds silent progress acted
  | sorting bucket left =>
    cases left with
    | nil =>
      cases acted
      exact onward _ _ progress
    | cons slot left =>
      cases acted
      exact sortStep_rests bounds silent progress
  | picking =>
    obtain ⟨-, acted⟩ := Option.ite_none_right_eq_some.mp acted
    cases acted
    exact onward _ _ progress
  | comparing slot now =>
    simp only [runStep] at acted
    split at acted
    · cases acted
      exact onward _ _ trivial
    · cases acted
      exact onward _ _ progress
  | exchanging slot now =>
    cases acted
    exact exchangeStep_rests bounds silent progress
  | calling slot =>
    cases acted
    exact stage_rests bounds silent progress {} (setVersion_runTime slot _)
  | returning slot =>
    cases acted
    exact stage_rests bounds silent progress
  | deciding =>
    simp only [runStep] at acted
    split at acted
    · cases acted
      exact onward _ _ trivial
    · next later =>
      cases acted
      have bound := Int.not_lt.mp later
      refine pull_rests ⟨bounds.nearest, bounds.empty, Int.le_trans bound bounds.largest, ?_⟩
        silent rfl rfl ⟨progress, Nat.le_refl _, fun _ => Int.le_refl _⟩
      intro working index reached
      exact (bounds.pulled working index reached).imp_left (Int.le_trans bound)
  | sleeping _ _ =>
    cases acted
    exact onward _ _ trivial
  | stopped => cases acted

end

end

section

variable (setup : Setup)

/-- Proper events while the slots are in order. -/
def Orderly (state : State) (event : Nat × Event) : Prop :=
  Proper state event ∧ slotOutline.Holds state

theorem act_rests {state : State}
    (holds : (sleepOutline setup).Holds state) (orderly : Orderly state (thread, event))
    (acted : act setup thread state.shared (state.locals thread) event = some result) :
    Rests setup thread state.shared result := by
  obtain ⟨proper, slots⟩ := orderly
  have bounds : Bounds setup state.shared := holds.common
  have announces : Announces setup thread state.shared (state.locals thread) := holds.own thread
  have own : Own thread state.shared (state.locals thread) := slots.own thread
  generalize state.locals thread = before at announces own acted
  have silent : (∀ id runTime, before ≠ .announcing id runTime) →
      ∀ runTime, (thread, runTime) ∉ state.shared.history.pending := by
    intro notAnnouncing runTime mem
    obtain ⟨id, same⟩ := announces.pending runTime mem
    exact notAnnouncing id runTime same
  unfold act at acted
  split at acted
  · next slot runTime =>
    split at acted
    · cases acted
      exact bystander_rests bounds {} (fun _ _ _ => rfl) (silent nofun) nofun nofun
    · obtain ⟨free, acted⟩ := Option.ite_none_right_eq_some.mp acted
      cases acted
      refine bystander_rests bounds {} ?_ (silent nofun) nofun nofun
      intro index other mem
      have placed := slots.common.slots.buckets index other mem
      have distinct : other ≠ slot := by
        rintro rfl
        rw [free] at placed
        nomatch placed
      exact congrArg Task.runTime (update_of_ne distinct _ _)
  · next id =>
    cases acted
    refine bystander_rests bounds ?_ ?_ (silent nofun) nofun nofun
    · dsimp only
      split <;> exact {}
    · intro _ slot _
      dsimp only
      split
      · exact setVersion_runTime id.slot _ slot
      · rfl
  · cases acted
    refine bystander_rests bounds ?_ (fun _ _ _ => rfl) (silent nofun) nofun (fun _ => rfl)
    exact { stop := fun _ => rfl }
  · cases acted
    exact insert_rests bounds (silent nofun)
  · cases acted
    exact announce_rests bounds announces proper.1
  · cases acted
    exact bystander_rests bounds {} (fun _ _ _ => rfl) (silent nofun) nofun nofun
  · exact stop_rests bounds (announces.stopping rfl) proper.1 (silent nofun) acted
  · next heap slot _ =>
    obtain rfl : thread = 0 := own.role
    have progress := announces.progress heap .picking rfl
    obtain ⟨-, acted⟩ := Option.ite_none_right_eq_some.mp acted
    split at acted
    · cases acted
      exact stage_rests bounds (silent nofun) progress
    · cases acted
      exact stage_rests bounds (silent nofun) progress
  · next heap at_ =>
    obtain rfl : thread = 0 := own.role
    exact runStep_rests bounds (silent nofun) (announces.progress heap at_ rfl) acted
  · nomatch acted

theorem sleepOutline_sound : (sleepOutline setup).Sound (act setup) Orderly := by
  refine Outline.sound_of_moves (fun _ _ => trivial) ?_
  intro state _ _ shared own holds orderly acted
  have rests := act_rests setup holds orderly acted
  have disturbs := rests.disturbs
  refine ⟨rests.common, rests.own, fun other distinct => ?_⟩
  have announces : Announces setup other state.shared (state.locals other) := holds.own other
  have role := (orderly.2.own other).role
  refine ⟨?_, ?_, fun stopping => disturbs.stop (announces.stopping stopping)⟩
  · exact fun runTime mem => announces.pending runTime (disturbs.pending other runTime distinct mem)
  · intro heap at_ same
    rw [same] at role
    have isTimer : other = 0 := role
    exact progress_disturbed (fun caller => distinct (isTimer.trans caller.symm)) disturbs
      (announces.progress heap at_ same)

theorem sleepOutline_start : (sleepOutline setup).Holds State.start := by
  refine ⟨⟨nofun, fun _ _ => rfl, Int.le_refl _, nofun⟩, ?_, fun _ _ _ => trivial⟩
  intro thread
  refine ⟨nofun, ?_, ?_⟩
  · intro _ _ same
    by_cases timer : thread = 0
    · subst timer
      obtain ⟨-, rfl⟩ := Local.running.inj same
      trivial
    · rw [show State.start.locals thread = .idle from if_neg timer] at same
      nomatch same
  · intro same
    by_cases timer : thread = 0
    · subst timer
      nomatch same
    · rw [show State.start.locals thread = .idle from if_neg timer] at same
      nomatch same

/-- Along every interleaving a task runs at most once and not before its time; an id that was
unscheduled with 0 never runs, and one that was found running is running. When the timer thread
sleeps, a task in a bucket is due no earlier than it wakes up, or it was signalled, or some
thread has put a task that is as early into this bucket and is about to announce it. -/
theorem timer_runs (events : List (Nat × Event)) (final : State)
    (guarded : Machine.Guarded (step setup) Proper State.start events)
    (ran : Machine.run (step setup) State.start events = some final) :
    (final.shared.history.runs.map Prod.fst).Nodup ∧
      (∀ run ∈ final.shared.history.runs,
        (∃ runTime, (run.1, runTime) ∈ final.shared.history.issued) ∧
          ∀ runTime, (run.1, runTime) ∈ final.shared.history.issued → runTime ≤ run.2) ∧
      (∀ verdict ∈ final.shared.history.verdicts,
        (verdict.2.1 = 0 → verdict.1 ∉ final.shared.history.runs.map Prod.fst) ∧
          (verdict.2.1 = 1 → verdict.2.2 = some verdict.1)) ∧
      (final.shared.stop = false → ∀ heap nextRunTime expected,
        final.locals 0 = .running heap (.sleeping nextRunTime expected) →
        ∀ index < setup.numBuckets, ∀ slot ∈ (final.shared.buckets index).taskHead,
          nextRunTime ≤ (final.shared.tasks slot).runTime ∨ final.shared.nsignals ≠ expected ∨
            ∃ thread id runTime, final.locals thread = .announcing id runTime ∧
              setup.bucketOf thread = index ∧
              runTime ≤ (final.shared.tasks slot).runTime) := by
  have slots : slotOutline.Holds final :=
    (slotOutline_sound setup).run events _ _ slotOutline_start guarded ran
  have sleep : (sleepOutline setup).Holds final := by
    refine (sleepOutline_sound setup).run events _ _ (sleepOutline_start setup) ?_ ran
    exact Machine.guarded_and (step setup)
      (fun _ _ _ allowed taken => (slotOutline_sound setup).step allowed taken)
      slotOutline_start guarded
  have record := slots.common.record
  refine ⟨record.once, ?_, ?_, ?_⟩
  · intro run mem
    obtain ⟨-, runTime, given, due⟩ := record.runs run mem
    refine ⟨⟨runTime, given⟩, ?_⟩
    intro other alsoGiven
    have same : (run.1, other) = (run.1, runTime) :=
      inj_on_of_nodup_map slots.common.slots.distinct alsoGiven given rfl
    obtain ⟨-, rfl⟩ := Prod.mk.inj same
    exact due
  · exact fun verdict mem =>
      ⟨fun zero => (record.cancelled verdict mem zero).2, record.caught verdict mem⟩
  · intro working heap nextRunTime expected asleep index _ slot mem
    obtain ⟨_, -, _⟩ := (sleep.own 0).progress heap _ asleep
    have nearest := sleep.common.nearest index slot mem
    rcases sleep.common.pulled working index (by omega) with
      known | ⟨entry, pending, here, early⟩
    · by_cases signalled : final.shared.nsignals = expected
      · exact .inl (by omega)
      · exact .inr (.inl signalled)
    · obtain ⟨id, announcing⟩ := (sleep.own entry.1).pending entry.2 pending
      exact .inr (.inr ⟨entry.1, id, entry.2, announcing, here, Int.le_trans early nearest⟩)

def oneBucket : Setup where
  numBuckets := 1
  bucketOf := fun _ => 0
  inside := fun _ => Nat.zero_lt_one

/-- The timer thread runs one task, which is found running; the next one in its slot is
unscheduled before the timer thread takes it and goes to sleep. -/
def runAndUnschedule : List (Nat × Event) :=
  [(1, .schedule 5 10), (1, .proceed), (1, .proceed), (1, .proceed)] ++
    List.replicate 7 (0, .proceed) ++
    [(0, .pick 5 12), (0, .proceed), (0, .proceed), (2, .unschedule ⟨5, 2⟩), (0, .proceed),
      (0, .proceed), (3, .schedule 5 30), (3, .proceed), (3, .proceed), (3, .proceed),
      (2, .unschedule ⟨5, 4⟩)] ++
    List.replicate 10 (0, .proceed)

theorem runAndUnschedule_verdicts :
    ∃ final, Machine.run (step oneBucket) State.start runAndUnschedule = some final ∧
      final.shared.history.runs = [(⟨5, 2⟩, 12)] ∧
      final.shared.history.verdicts = [(⟨5, 4⟩, 0, none), (⟨5, 2⟩, 1, some ⟨5, 2⟩)] ∧
      (∀ verdict ∈ final.shared.history.verdicts,
        (verdict.2.1 = 0 → verdict.1 ∉ final.shared.history.runs.map Prod.fst) ∧
          (verdict.2.1 = 1 → verdict.2.2 = some verdict.1)) := by
  have checked : ((Machine.run (step oneBucket) State.start runAndUnschedule).any fun final =>
      final.shared.history.runs = [(⟨5, 2⟩, 12)] ∧
        final.shared.history.verdicts = [(⟨5, 4⟩, 0, none), (⟨5, 2⟩, 1, some ⟨5, 2⟩)]) =
      true := by
    decide
  obtain ⟨final, ran, facts⟩ := (Option.any_eq_true _ _).mp checked
  obtain ⟨runs, verdicts⟩ := of_decide_eq_true facts
  exact ⟨final, ran, runs, verdicts,
    (timer_runs oneBucket runAndUnschedule final (by decide) ran).2.2.1⟩

/-- Two threads share a bucket. The first one has put a task into it and not announced it yet;
the second one, whose task is not the nearest of the bucket, returns, and the timer thread goes
to sleep for as long as nobody signals. -/
def sleepUnannounced : List (Nat × Event) :=
  List.replicate 5 (0, .proceed) ++
    [(1, .schedule 7 10), (1, .proceed), (2, .schedule 8 20), (2, .proceed), (0, .proceed)]

theorem sleepUnannounced_late :
    Machine.Guarded (step oneBucket) Proper State.start sleepUnannounced ∧
      ∃ final, Machine.run (step oneBucket) State.start sleepUnannounced = some final ∧
        final.shared.stop = false ∧
        final.locals 0 = .running [] (.sleeping int64Max final.shared.nsignals) ∧
        8 ∈ (final.shared.buckets 0).taskHead ∧
        final.shared.idOf 8 ∈ final.shared.history.returned ∧
        (final.shared.tasks 8).runTime < int64Max := by
  refine ⟨by decide, ?_⟩
  have checked : ((Machine.run (step oneBucket) State.start sleepUnannounced).any fun final =>
      final.shared.stop = false ∧
        final.locals 0 = .running [] (.sleeping int64Max final.shared.nsignals) ∧
        8 ∈ (final.shared.buckets 0).taskHead ∧
        final.shared.idOf 8 ∈ final.shared.history.returned ∧
        (final.shared.tasks 8).runTime < int64Max) = true := by
    decide
  obtain ⟨final, ran, facts⟩ := (Option.any_eq_true _ _).mp checked
  exact ⟨final, ran, of_decide_eq_true facts⟩

end

end CodeReading.Brpc.Timer
