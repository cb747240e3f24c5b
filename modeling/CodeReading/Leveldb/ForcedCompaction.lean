import CodeReading.Leveldb.GroupCommit

/-!
# Forcing a memtable compaction

`Write(options, nullptr)` is how `TEST_CompactMemTable` and `CompactRange` ask for
the memtable to be switched. A null writer that comes to the front of the queue
passes `MakeRoomForWrite` with `force` set and returns OK only behind a switch. A
null writer that a leader takes into its group returns OK with that group, and
nothing was switched for it.
-/

namespace CodeReading.Leveldb.WriteQueue

open List Machine

/-- In this state a turn of `MakeRoomForWrite` that finds room would build a group
with a null writer among the followers. -/
def Absorbs (state : State) : Prop :=
  ∃ leader batch rest, state.writers = leader :: rest ∧ leader.batch = some batch ∧
    ∃ writer ∈ (buildBatchGroup state.tmpBatch leader batch rest).followers,
      writer.batch = none

/-- The guard on runs: no group is built that absorbs a null writer. -/
def NoAbsorption (config : Config) (state : State) : Event → Prop
  | .makeRoom _ _ => ∀ force allowDelay, state.phase = .makingRoom force allowDelay →
      state.hasRoom config force = true → ¬ Absorbs state
  | _ => True

/-- The acknowledged updates that preceded a forcing call have left the memtable. -/
def Forced (call : Returned) : Prop :=
  call.writer.batch = none → call.status = .ok → ∀ entry ∈ call.writer.before, entry ∉ call.mem

/-- The group that is under way. -/
def Phase.group : Phase → Option Group
  | .idle | .makingRoom _ _ => none
  | .appending group | .syncing group | .inserting group _ _ | .finishing group _ => some group

/-- A null writer at the front has still to force a switch, or the memtable is
empty since its switch; no group under way has a null writer. -/
structure Forcing (state : State) : Prop where
  led : ∀ force allowDelay, state.phase = .makingRoom force allowDelay → state.writers ≠ []
  front : ∀ allowDelay writer rest, state.phase = .makingRoom false allowDelay →
    state.writers = writer :: rest → writer.batch = none → state.mem = []
  members : ∀ group, state.phase.group = some group → ∀ writer ∈ group.members,
    writer.batch ≠ none
  returned : ∀ call ∈ state.history.returned, Forced call

theorem opened_forcing (start : Nat) : Forcing (.opened start) where
  led := by rintro _ _ ⟨⟩
  front := by rintro _ _ _ ⟨⟩
  members := by rintro _ ⟨⟩
  returned := by simp [State.opened]

variable {state : State}

/-- A step within a group, or one that leaves the phase alone, keeps everything
unless it returns a call. -/
theorem forcing_moves {after : State} (forcing : Forcing state)
    (group : ∀ group, after.phase.group = some group → ∃ earlier, state.phase.group = some earlier ∧
      group.members = earlier.members)
    (outside : ∀ force allowDelay, after.phase ≠ .makingRoom force allowDelay := by rintro _ _ ⟨⟩)
    (returned : after.history.returned = state.history.returned := by rfl) : Forcing after where
  led := fun force allowDelay now => absurd now (outside force allowDelay)
  front := fun allowDelay _ _ now => absurd now (outside false allowDelay)
  members := by
    intro current now writer member
    obtain ⟨earlier, was, same⟩ := group current now
    exact forcing.members earlier was writer (same ▸ member)
  returned := by
    rw [returned]
    exact forcing.returned

variable {writer : Writer}

/-- A call that returns alone is no null writer, fails, or finds the memtable empty. -/
theorem leave_forcing (rest : List Writer) (forcing : Forcing state)
    (right : writer.batch = none → status = .ok → state.mem = []) :
    Forcing (state.leave writer rest status) where
  led := by rintro _ _ ⟨⟩
  front := by rintro _ _ _ ⟨⟩
  members := by rintro _ ⟨⟩
  returned := by
    intro call member
    rcases mem_append.mp member with old | new
    · exact forcing.returned call old
    · obtain rfl := mem_singleton.mp new
      intro null good _ _
      simp [right null good]

variable {next : State}

theorem makeRoom_forcing (config : Config) (forcing : Forcing state)
    (phase : state.phase = .makingRoom force allowDelay)
    (guarded : NoAbsorption config state (.makeRoom opened closed))
    (taken : state.makeRoom config force allowDelay opened closed = some next) : Forcing next := by
  unfold State.makeRoom at taken
  cases queue : state.writers with
  | nil => simp [queue] at taken
  | cons writer rest =>
    simp only [queue] at taken
    split at taken
    next failed =>
      cases taken
      exact leave_forcing rest forcing (fun _ good => absurd good failed)
    split at taken
    next =>
      cases taken
      refine ⟨?_, ?_, by rintro _ ⟨⟩, forcing.returned⟩
      · rintro _ _ _ ⟨⟩
      · rintro _ _ _ ⟨⟩ ⟨⟩ null
        exact forcing.front allowDelay writer rest phase queue null
    split at taken
    next room =>
      have unforced : force = false := by
        cases force with
        | false => rfl
        | true => simp [State.hasRoom] at room
      subst unforced
      split at taken
      next null =>
        cases taken
        exact leave_forcing rest forcing
          (fun _ _ => forcing.front allowDelay writer rest phase queue null)
      next batch has =>
        cases taken
        refine ⟨by rintro _ _ ⟨⟩, by rintro _ _ _ ⟨⟩, ?_, forcing.returned⟩
        rintro _ ⟨⟩ member among
        rcases mem_cons.mp among with rfl | follower
        · rw [has]
          exact Option.some_ne_none batch
        · intro null
          exact guarded false allowDelay phase room
            ⟨writer, batch, rest, queue, has, member, follower, null⟩
    split at taken
    next => cases taken
    split at taken
    next => cases taken
    split at taken
    next refused =>
      cases taken
      exact leave_forcing rest forcing (fun _ good => absurd good refused)
    next =>
      cases taken
      refine ⟨?_, fun _ _ _ _ _ _ => rfl, by rintro _ ⟨⟩, forcing.returned⟩
      rintro _ _ _ ⟨⟩

/-- The writers of a finished group brought batches, so nothing was forced. -/
theorem finish_forcing (forcing : Forcing state) (phase : state.phase = .finishing group status)
    (front : ∃ rest, state.writers = group.members ++ rest) :
    Forcing (state.finish group status) where
  led := by rintro _ _ ⟨⟩
  front := by rintro _ _ _ ⟨⟩
  members := by rintro _ ⟨⟩
  returned := by
    obtain ⟨rest, queue⟩ := front
    have ready : state.writers.take group.members.length = group.members := by
      rw [queue, take_left]
    intro call member
    simp only [State.finish, ready] at member
    rcases mem_append.mp member with old | new
    · exact forcing.returned call old
    · obtain ⟨writer, among, rfl⟩ := mem_map.mp new
      intro null
      exact absurd null (forcing.members group (by rw [phase]; rfl) writer among)

theorem advance_forcing (event : Event) (forcing : Forcing state)
    (taken : state.advance event = some next) : Forcing next := by
  unfold State.advance at taken
  split at taken
  · split at taken
    next group phase =>
      cases taken
      refine forcing_moves forcing ?_
      rintro _ ⟨⟩
      exact ⟨group, by rw [phase]; rfl, rfl⟩
    next => cases taken
  · split at taken
    next group phase =>
      have same (after : Group) (members : after.members = group.members) :
          ∃ earlier, state.phase.group = some earlier ∧ after.members = earlier.members :=
        ⟨group, by rw [phase]; rfl, members⟩
      split at taken
      · simp only at taken
        split at taken
        all_goals
          cases taken
          refine forcing_moves forcing ?_
          rintro _ ⟨⟩
          exact same _ rfl
      · cases taken
        refine forcing_moves forcing ?_
        rintro _ ⟨⟩
        exact same _ rfl
    next => cases taken
  · split at taken
    next group sequence _ _ phase =>
      cases taken
      refine forcing_moves forcing ?_
      rintro _ ⟨⟩
      exact ⟨group, by rw [phase]; rfl, rfl⟩
    next group sequence phase =>
      cases taken
      refine forcing_moves forcing ?_
      rintro _ ⟨⟩
      exact ⟨group, by rw [phase]; rfl, rfl⟩
    next => cases taken
  · cases taken

theorem enter_forcing (batch : Option WriteBatch) (sync : Bool) (forcing : Forcing state) :
    Forcing (state.enter batch sync) where
  led := by
    intro _ allowDelay phase
    simp [State.enter]
  front := by
    intro allowDelay _ _ phase queue null
    -- The front of the queue was there before.
    cases before : state.writers with
    | nil => exact absurd before (forcing.led false allowDelay phase)
    | cons first others =>
      simp only [State.enter, before, cons_append, cons.injEq] at queue
      exact forcing.front allowDelay first others phase before (queue.1 ▸ null)
  members := forcing.members
  returned := forcing.returned

theorem step_forcing (config : Config)
    (guarded : NoAbsorption config state event) (taken : step config state event = some next)
    (consistent : Consistent start state) (forcing : Forcing state) : Forcing next := by
  cases event with
  | enter batch sync =>
    cases taken
    exact enter_forcing batch sync forcing
  | background flushed numLevel0 error =>
    cases taken
    exact { forcing with }
  | append => exact advance_forcing .append forcing taken
  | sync result => exact advance_forcing (.sync result) forcing taken
  | insert => exact advance_forcing .insert forcing taken
  | lead =>
    cases phase : state.phase with
    | idle =>
      cases queue : state.writers with
      | nil => simp [step, phase, queue] at taken
      | cons writer rest =>
        simp only [step, phase, queue] at taken
        cases taken
        refine ⟨?_, ?_, by rintro _ ⟨⟩, forcing.returned⟩
        · rintro _ _ _ ⟨⟩
        · -- A null writer starts out with `force` set.
          intro allowDelay _ _ now queue' null
          obtain ⟨rfl, rfl⟩ := cons.inj queue'
          have forced := (Phase.makingRoom.inj now).1
          simp [null] at forced
    | _ => simp [step, phase] at taken
  | makeRoom opened closed =>
    cases phase : state.phase with
    | makingRoom force allowDelay =>
      simp only [step, phase] at taken
      exact makeRoom_forcing config forcing phase guarded taken
    | _ => simp [step, phase] at taken
  | finish =>
    cases phase : state.phase with
    | finishing group status =>
      simp only [step, phase] at taken
      cases taken
      have progress := consistent.progress
      simp only [Progress, phase] at progress
      exact finish_forcing forcing phase progress.1.front
    | _ => simp [step, phase] at taken

/-- In every run that builds no group around a null writer, a forcing call that
returned OK found every update acknowledged before it gone from the memtable. -/
theorem forced_compaction (config : Config) (start : Nat) (events : List Event) (state : State)
    (guarded : Machine.Guarded (step config) (NoAbsorption config) (.opened start) events)
    (reached : Machine.run (step config) (.opened start) events = some state) :
    ∀ call ∈ state.history.returned, call.writer.batch = none → call.status = .ok →
      ∀ entry ∈ call.writer.before, entry ∉ call.mem := by
  have both := guarded_invariant (step config) (NoAbsorption config)
    (fun state => Consistent start state ∧ Forcing state)
    (fun before event _ allowed taken holds =>
      ⟨step_consistent config taken holds.1, step_forcing config allowed taken holds.1 holds.2⟩)
      ⟨opened_consistent start, opened_forcing start⟩ guarded reached
  exact both.2.returned

theorem onePut_bounded : ([.put [1] [2]] : List ByteUpdate).length < 2 ^ 31 := by decide

/-- One update, acknowledged; then a forcing call that comes to the front. -/
def forcedRun : List Event :=
  [.enter (some ⟨[.put [1] [2]], onePut_bounded⟩) false, .lead, .makeRoom .ok .ok, .append,
    .sync .ok, .insert, .insert, .finish, .enter none false, .lead, .makeRoom .ok .ok,
    .makeRoom .ok .ok]

theorem alone_noAbsorption (config : Config) (alone : state.writers = [writer]) :
    NoAbsorption config state (.makeRoom opened closed) := by
  rintro force allowDelay phase room ⟨leader, batch, rest, queue, has, follower, among, null⟩
  rw [alone] at queue
  obtain ⟨rfl, rfl⟩ := cons.inj queue
  simp [buildBatchGroup, groupLoop] at among

theorem forced_compaction_alone :
    Machine.Guarded (step ⟨List.length, 4⟩) (NoAbsorption ⟨List.length, 4⟩) (.opened 0) forcedRun ∧
      ∃ state, Machine.run (step ⟨List.length, 4⟩) (.opened 0) forcedRun = some state ∧
        ∀ call ∈ state.history.returned, call.writer.batch = none → call.status = .ok →
          ∀ entry ∈ call.writer.before, entry ∉ call.mem := by
  have guarded : Machine.Guarded (step ⟨length, 4⟩) (NoAbsorption ⟨length, 4⟩)
      (.opened 0) forcedRun := by
    iterate 2 refine guarded_cons _ rfl trivial ?_
    refine guarded_cons _ rfl (alone_noAbsorption _ rfl) ?_
    iterate 7 refine guarded_cons _ rfl trivial ?_
    refine guarded_cons _ rfl (alone_noAbsorption _ rfl) ?_
    exact guarded_cons _ rfl (alone_noAbsorption _ rfl) trivial
  obtain ⟨state, reached⟩ : ∃ state,
      run (step ⟨length, 4⟩) (.opened 0) forcedRun = some state :=
    Option.isSome_iff_exists.mp rfl
  exact ⟨guarded, state, reached, forced_compaction ⟨length, 4⟩ 0 forcedRun state guarded reached⟩

/-- One update, acknowledged; then a writer with a forcing call behind it, which
it takes into its group. -/
def absorbedRun : List Event :=
  [.enter (some ⟨[.put [1] [2]], onePut_bounded⟩) false, .lead, .makeRoom .ok .ok, .append,
    .sync .ok, .insert, .insert, .finish, .enter (some ⟨[.put [3] [4]], by decide⟩) false,
    .enter none false, .lead, .makeRoom .ok .ok, .append, .sync .ok, .insert, .insert, .finish]

/-- The forcing call returned OK while an update acknowledged before it started was
still in the memtable. -/
theorem absorbed_not_compacted :
    ∃ state, Machine.run (step ⟨List.length, 4⟩) (.opened 0) absorbedRun = some state ∧
      ∃ call ∈ state.history.returned, call.writer.batch = none ∧ call.status = .ok ∧
        ∃ entry ∈ call.writer.before, entry ∈ call.mem := by
  refine ⟨_, rfl, ?_⟩
  decide

end CodeReading.Leveldb.WriteQueue
