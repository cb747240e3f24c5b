import CodeReading.Leveldb.WriteQueue

/-!
# What group commit keeps

`Consistent` says, of a state of the queue, that calls return in the order they
entered, that the memtable received exactly the batches of the calls that returned
OK and the part of the current group inserted so far, under consecutive sequence
numbers, and that no group with a syncing writer skips `Sync`. Every event keeps
it.
-/

namespace CodeReading.Leveldb.WriteQueue

open List
open Writer (updates)

/-- The merged updates are those of the first writer and its followers in order;
as long as the first batch is used directly, no follower brought updates. -/
structure Merged (first : Writer) (grouping : Grouping) : Prop where
  updates : grouping.updates = first.updates ++ grouping.followers.flatMap Writer.updates
  direct : grouping.temporary = false → grouping.followers.flatMap Writer.updates = []

/-- One turn of the loop: it stops, or the next writer joins. -/
theorem groupLoop_turn (maxSize size : Nat)
    (writer : Writer) (rest : List Writer) (merged : Merged first grouping) :
    groupLoop first [] maxSize size grouping (writer :: rest) = grouping ∨
      (writer.sync = true → first.sync = true) ∧
      ∃ size' joined, Merged first joined ∧ joined.followers = grouping.followers ++ [writer] ∧
        groupLoop first [] maxSize size grouping (writer :: rest) =
          groupLoop first [] maxSize size' joined rest := by
  by_cases mismatch : (writer.sync && !first.sync) = true
  · exact .inl (by simp only [groupLoop, if_pos mismatch])
  have allowed : writer.sync = true → first.sync = true := by
    intro wanted
    simpa [wanted] using mismatch
  cases kind : writer.batch with
  | none =>
    have silent : writer.updates = [] := by simp [updates, kind]
    refine .inr ⟨allowed, size, { grouping with followers := grouping.followers ++ [writer] },
      ⟨?_, ?_⟩, rfl, ?_⟩
    · simp [merged.updates, silent]
    · intro untouched
      simpa [silent] using merged.direct untouched
    · simp only [groupLoop, if_neg mismatch, kind]
  | some batch =>
    have own : writer.updates = batch.updates := by simp [updates, kind]
    by_cases large : maxSize < size + batch.byteSize
    · exact .inl (by simp only [groupLoop, if_neg mismatch, kind, if_pos large])
    · refine .inr ⟨allowed, size + batch.byteSize, ⟨grouping.followers ++ [writer],
        (if grouping.temporary then grouping.updates else [] ++ first.updates) ++ batch.updates,
        true⟩, ⟨?_, by simp⟩, rfl, ?_⟩
      · cases copied : grouping.temporary with
        | true => simp [merged.updates, own]
        | false => simp [merged.direct copied, own]
      · simp only [groupLoop, if_neg mismatch, kind, if_neg large]

/-- The writers that join are the first ones of the queue, and none of them asks
for a sync that the first writer does not make. -/
theorem groupLoop_spec (first : Writer) (maxSize : Nat) (rest : List Writer) (size : Nat)
    (grouping : Grouping) (merged : Merged first grouping) :
    let result := groupLoop first [] maxSize size grouping rest
    Merged first result ∧ ∃ taken left, rest = taken ++ left ∧
      result.followers = grouping.followers ++ taken ∧
      ∀ writer ∈ taken, writer.sync = true → first.sync = true := by
  induction rest generalizing size grouping with
  | nil => exact ⟨merged, [], [], rfl, by simp [groupLoop], by simp⟩
  | cons writer rest ih =>
    intro result
    rcases groupLoop_turn maxSize size writer rest merged with
      stopped | ⟨allowed, size', joined, stillMerged, followers, continued⟩
    · refine ⟨?_, [], writer :: rest, rfl, ?_, by simp⟩
      · simpa only [result, stopped] using merged
      · simp [result, stopped]
    · obtain ⟨final, taken, left, split, all, synced⟩ :=
        ih size' joined stillMerged
      simp only [result, continued]
      refine ⟨final, writer :: taken, left, by rw [split]; rfl, ?_, ?_⟩
      · rw [all, followers, append_assoc]
        rfl
      · intro other mem
        rcases mem_cons.mp mem with rfl | mem
        · exact allowed
        · exact synced other mem

theorem buildBatchGroup_spec (rest : List Writer) (has : first.batch = some batch) :
    let grouping := buildBatchGroup [] first batch rest
    grouping.updates = (first :: grouping.followers).flatMap updates ∧
      (∃ left, rest = grouping.followers ++ left) ∧
      ∀ writer ∈ first :: grouping.followers, writer.sync = true → first.sync = true := by
  intro grouping
  have own : first.updates = batch.updates := by simp [updates, has]
  obtain ⟨merged, _, left, split, followers, synced⟩ := groupLoop_spec first
    (maxGroupSize batch.byteSize) rest batch.byteSize ⟨[], batch.updates, false⟩
    ⟨by simp [own], fun _ => rfl⟩
  rw [nil_append] at followers
  refine ⟨merged.updates, ⟨left, by rw [split]; exact congrArg (· ++ left) followers.symm⟩, ?_⟩
  intro writer mem
  rcases mem_cons.mp mem with rfl | mem
  · exact id
  · exact synced writer (followers ▸ mem)

/-- A merged batch takes at least two bytes an update, and stays below the limit. -/
theorem groupLoop_count (first : Writer) (maxSize : Nat) (rest : List Writer) (size : Nat)
    (grouping : Grouping)
    (sized : 2 * (if grouping.temporary then grouping.updates else first.updates).length ≤ size)
    (small : grouping.temporary = true → size ≤ maxSize)
    (direct : grouping.temporary = false → grouping.updates = first.updates) :
    let result := groupLoop first [] maxSize size grouping rest
    result.updates = first.updates ∨ 2 * result.updates.length ≤ maxSize := by
  induction rest generalizing size grouping with
  | nil =>
    cases copied : grouping.temporary with
    | false => exact .inl (direct copied)
    | true =>
      rw [copied, if_pos rfl] at sized
      exact .inr (Nat.le_trans sized (small copied))
  | cons writer rest ih =>
    have stopped : grouping.updates = first.updates ∨ 2 * grouping.updates.length ≤ maxSize := by
      cases copied : grouping.temporary with
      | false => exact .inl (direct copied)
      | true =>
        rw [copied, if_pos rfl] at sized
        exact .inr (Nat.le_trans sized (small copied))
    by_cases mismatch : (writer.sync && !first.sync) = true
    · simpa only [groupLoop, if_pos mismatch] using stopped
    cases kind : writer.batch with
    | none =>
      simp only [groupLoop, if_neg mismatch, kind]
      exact ih size _ sized small direct
    | some batch =>
      by_cases large : maxSize < size + batch.byteSize
      · simpa only [groupLoop, if_neg mismatch, kind, if_pos large] using stopped
      · simp only [groupLoop, if_neg mismatch, kind, if_neg large]
        have added := byteSize_updates batch
        apply ih
        · simp only [if_true, nil_append, length_append]
          omega
        · exact fun _ => Nat.le_of_not_lt large
        · simp

/-- The count of a group fits an `int`, as the count of each batch does. -/
theorem buildBatchGroup_count (first : Writer) (batch : WriteBatch) (rest : List Writer)
    (has : first.batch = some batch) :
    (buildBatchGroup [] first batch rest).updates.length < 2 ^ 31 := by
  have own : first.updates = batch.updates := by simp [updates, has]
  have sized := byteSize_updates batch
  have bounded := batch.bounded
  have limit : maxGroupSize batch.byteSize ≤ 2 ^ 20 := by
    unfold maxGroupSize
    split <;> omega
  rcases groupLoop_count first (maxGroupSize batch.byteSize) rest batch.byteSize
      ⟨[], batch.updates, false⟩ (by simp only [own]; simp; omega) (by simp)
      (fun _ => own.symm) with same | short
  · rw [buildBatchGroup, same, own]
    exact bounded
  · rw [buildBatchGroup]
    omega

theorem buildBatchGroup_count_pair :
    ∃ writer batch, writer.batch = some batch ∧
      (buildBatchGroup [] writer batch [writer]).updates.length < 2 ^ 31 :=
  ⟨⟨some ⟨[.delete [1]], by decide⟩, false, []⟩, _, rfl, buildBatchGroup_count _ _ _ rfl⟩

/-- The updates of the calls that returned OK, in the order they returned. -/
def State.applied (state : State) : List ByteUpdate :=
  state.history.returned.flatMap fun call =>
    if call.status = .ok then call.writer.updates else []

/-- The updates of the current group that are already in the memtable. -/
def State.underway (state : State) : List ByteUpdate :=
  match state.phase with
  | .inserting group _ left =>
      group.grouping.updates.take (group.grouping.updates.length - left.length)
  | .finishing group .ok => group.grouping.updates
  | _ => []

/-- A built group stands at the front of the queue with its merged updates. -/
structure Underway (state : State) (group : Group) : Prop where
  front : ∃ rest, state.writers = group.members ++ rest
  updates : group.grouping.updates = group.members.flatMap Writer.updates
  led : ∀ writer ∈ group.members, writer.sync = true → group.leader.sync = true
  last : group.lastSequence + 1 = group.sequence + group.grouping.updates.length
  direct : group.grouping.temporary = false → state.tmpBatch = []

/-- What holds of the current phase. `Sync` has been called by the time of the
insertion exactly when the leader asked for it, and it did not fail. -/
def Progress (start : Nat) (state : State) : Prop :=
  let next := start + state.history.insertions.length + 1
  match state.phase with
  | .idle | .makingRoom _ _ =>
      state.tmpBatch = [] ∧ (state.bgError = .ok → state.lastSequence + 1 = next)
  | .appending group | .syncing group =>
      Underway state group ∧ group.synced = none ∧ group.sequence = next
  | .inserting group sequence left =>
      Underway state group ∧ (group.leader.sync = true → group.synced = some .ok) ∧
        (group.leader.sync = false → group.synced = none) ∧ sequence = next ∧
        ∃ done, group.grouping.updates = done ++ left ∧ group.sequence + done.length = next
  | .finishing group status =>
      Underway state group ∧ (group.leader.sync = true → group.synced = some status) ∧
        (group.leader.sync = false → status = .ok ∧ group.synced = none) ∧
        (status = .ok → group.sequence + group.grouping.updates.length = next)

/-- A finished group of writers returned together; if one of them asked for it and
the group was built, `Sync` was called, and it succeeded if they returned OK. -/
def FinishedRight (finished : List Writer × Status × Option Group) : Prop :=
  ∀ group, finished.2.2 = some group → finished.1 = group.members ∧
    ∀ writer ∈ finished.1, writer.sync = true →
      group.synced ≠ none ∧ (finished.2.1 = .ok → group.synced = some .ok)

/-- The invariant of the queue. -/
structure Consistent (start : Nat) (state : State) : Prop where
  order : state.history.entered = state.history.returned.map Returned.writer ++ state.writers
  grouped : (state.history.returned.map fun call => (call.writer, call.status)) =
    state.history.finished.flatMap fun finished => finished.1.map fun writer =>
      (writer, finished.2.1)
  synced : ∀ finished ∈ state.history.finished, FinishedRight finished
  inserted : state.history.insertions = number (start + 1) (state.applied ++ state.underway)
  progress : Progress start state

theorem opened_consistent (start : Nat) : Consistent start (.opened start) where
  order := rfl
  grouped := rfl
  synced := by simp [State.opened]
  inserted := rfl
  progress := ⟨rfl, fun _ => rfl⟩

variable {after : State} {start : Nat}

/-- Progress does not depend on the memtables, and a queue that grows at its back or
a background error does not disturb it. -/
theorem progress_frame (progress : Progress start before) (phase : after.phase = before.phase)
    (insertions : after.history.insertions = before.history.insertions)
    (tmpBatch : after.tmpBatch = before.tmpBatch)
    (lastSequence : after.lastSequence = before.lastSequence)
    (error : after.bgError = .ok → before.bgError = .ok)
    (writers : ∃ extra, after.writers = before.writers ++ extra) : Progress start after := by
  have carried (group : Group) (underway : Underway before group) : Underway after group := by
    obtain ⟨extra, grown⟩ := writers
    obtain ⟨rest, front⟩ := underway.front
    refine { underway with front := ⟨rest ++ extra, ?_⟩, direct := ?_ }
    · rw [grown, front, append_assoc]
    · intro direct
      rw [tmpBatch]
      exact underway.direct direct
  unfold Progress at *
  rw [phase, insertions, lastSequence, tmpBatch]
  cases kind : before.phase with
  | idle | makingRoom _ _ =>
    rw [kind] at progress
    exact ⟨progress.1, fun good => progress.2 (error good)⟩
  | appending group | syncing group | inserting group _ _ | finishing group _ =>
    rw [kind] at progress
    exact ⟨carried group progress.1, progress.2⟩

variable {state : State}

theorem enter_consistent (batch : Option WriteBatch) (sync : Bool)
    (consistent : Consistent start state) : Consistent start (state.enter batch sync) where
  order := by
    simp only [State.enter]
    rw [consistent.order, append_assoc]
  grouped := consistent.grouped
  synced := consistent.synced
  inserted := consistent.inserted
  progress := progress_frame consistent.progress rfl rfl rfl rfl id ⟨_, rfl⟩

theorem background_consistent (flushed : Bool) (numLevel0 : Nat) (error : Status)
    (consistent : Consistent start state) :
    Consistent start (state.background flushed numLevel0 error) where
  order := consistent.order
  grouped := consistent.grouped
  synced := consistent.synced
  inserted := consistent.inserted
  progress := by
    refine progress_frame consistent.progress rfl rfl rfl rfl ?_ ⟨[], by simp [State.background]⟩
    simp only [State.background]
    split
    · exact fun _ => by assumption
    · exact id

variable {rest : List Writer} {writer : Writer}

section

variable (consistent : Consistent start state) (front : state.writers = writer :: rest)
include consistent front

/-- A call returns alone: without updates of its own, or with an error. -/
theorem leave_consistent (outside : state.underway = [])
    (settled : state.tmpBatch = [] ∧ (state.bgError = .ok → state.lastSequence + 1 = start +
      state.history.insertions.length + 1)) (silent : status = .ok → writer.updates = []) :
    Consistent start (state.leave writer rest status) where
  order := by
    simp only [State.leave, map_append]
    rw [consistent.order, front]
    simp
  grouped := by
    simp only [State.leave, map_append, flatMap_append]
    rw [consistent.grouped]
    simp
  synced := by
    intro finished mem
    rcases mem_append.mp mem with old | new
    · exact consistent.synced finished old
    · obtain rfl := mem_singleton.mp new
      rintro _ ⟨⟩
  inserted := by
    have nothing : (if status = .ok then writer.updates else []) = [] := by
      split
      next good => exact silent good
      next => rfl
    have applied : (state.leave writer rest status).applied = state.applied := by
      simp [State.applied, State.leave, nothing]
    have idle : (state.leave writer rest status).underway = state.underway := outside.symm
    rw [applied, idle]
    exact consistent.inserted
  progress := settled

theorem begin_consistent (has : writer.batch = some batch) (outside : state.underway = [])
    (empty : state.tmpBatch = [])
    (sequence : state.lastSequence + 1 = start + state.history.insertions.length + 1) :
    Consistent start (state.begin writer batch rest) where
  order := consistent.order
  grouped := consistent.grouped
  synced := consistent.synced
  inserted := by
    have idle : (state.begin writer batch rest).underway = state.underway := outside.symm
    rw [idle]
    exact consistent.inserted
  progress := by
    obtain ⟨updates, ⟨left, split⟩, led⟩ := buildBatchGroup_spec rest has
    refine ⟨⟨⟨left, ?_⟩, ?_, ?_, ?_, ?_⟩, rfl, sequence⟩
    · simp only [State.begin, Group.members, empty, front]
      rw [cons_append, ← split]
    · simpa only [Group.members, empty] using updates
    · simpa only [Group.members, empty] using led
    · simp only
      omega
    · intro direct
      simp only [State.begin]
      rw [if_neg (Bool.eq_false_iff.mp direct), empty]

end

variable {next : State}

/-- One turn of `MakeRoomForWrite`. Only a turn that finds room builds a group, and
then there is no background error, so the sequence numbers are up to date. -/
theorem makeRoom_consistent (config : Config)
    (consistent : Consistent start state) (phase : state.phase = .makingRoom force allowDelay)
    (taken : state.makeRoom config force allowDelay opened closed = some next) :
    Consistent start next := by
  have outside : state.underway = [] := by simp [State.underway, phase]
  have settled : state.tmpBatch = [] ∧ (state.bgError = .ok →
      state.lastSequence + 1 = start + state.history.insertions.length + 1) := by
    have progress := consistent.progress
    simpa only [Progress, phase] using progress
  -- A turn that stays in the loop changes nothing that the invariant speaks of.
  have stays (after : State) (force allowDelay : Bool)
      (now : after.phase = .makingRoom force allowDelay)
      (writers : after.writers = state.writers) (history : after.history = state.history)
      (tmpBatch : after.tmpBatch = state.tmpBatch)
      (lastSequence : after.lastSequence = state.lastSequence)
      (error : after.bgError = .ok → state.bgError = .ok) : Consistent start after := by
    have idle : after.underway = [] := by simp [State.underway, now]
    refine ⟨?_, ?_, ?_, ?_, ?_⟩
    · rw [history, writers]
      exact consistent.order
    · rw [history]
      exact consistent.grouped
    · rw [history]
      exact consistent.synced
    · rw [idle, ← outside, State.applied, history]
      exact consistent.inserted
    · simp only [Progress, now, history, tmpBatch, lastSequence]
      exact ⟨settled.1, fun good => settled.2 (error good)⟩
  unfold State.makeRoom at taken
  cases front : state.writers with
  | nil => simp [front] at taken
  | cons writer rest =>
    simp only [front] at taken
    split at taken
    next failed =>
      cases taken
      exact leave_consistent consistent front outside settled
        (fun good => absurd good failed)
    next healthy =>
    split at taken
    next =>
      cases taken
      exact stays _ _ _ rfl front.symm rfl rfl rfl id
    split at taken
    next =>
      split at taken
      next none =>
        cases taken
        exact leave_consistent consistent front outside settled
          (fun _ => by simp [updates, none])
      next _ has =>
        cases taken
        exact begin_consistent consistent front has outside settled.1
          (settled.2 (not_not.mp healthy))
    split at taken
    next => cases taken
    split at taken
    next => cases taken
    split at taken
    next refused =>
      cases taken
      exact leave_consistent consistent front outside settled
        (fun good => absurd good refused)
    next =>
      cases taken
      exact stays _ _ _ rfl front.symm rfl rfl rfl (fun _ => not_not.mp healthy)

/-- A step that touches neither the queue nor the history, nor what counts as
inserted, keeps everything but progress. -/
theorem consistent_moves (consistent : Consistent start state)
    (writers : after.writers = state.writers) (history : after.history = state.history)
    (underway : after.underway = state.underway) (progress : Progress start after) :
    Consistent start after where
  order := by
    rw [history, writers]
    exact consistent.order
  grouped := by
    rw [history]
    exact consistent.grouped
  synced := by
    rw [history]
    exact consistent.synced
  inserted := by
    rw [underway, State.applied, history]
    exact consistent.inserted
  progress := progress

/-- The group stays where it is while the leader works without the mutex. -/
theorem Underway.moved (underway : Underway state group) (synced : Option Status)
    (writers : after.writers = state.writers) (tmpBatch : after.tmpBatch = state.tmpBatch) :
    Underway after { group with synced := synced } :=
  { underway with front := writers ▸ underway.front, direct := tmpBatch ▸ underway.direct }

section

variable (consistent : Consistent start state)
include consistent

theorem append_consistent (taken : state.advance .append = some next) : Consistent start next := by
  have progress := consistent.progress
  cases phase : state.phase with
  | appending group =>
    simp only [Progress, phase] at progress
    obtain ⟨underway, synced, sequence⟩ := progress
    simp only [State.advance, phase] at taken
    cases taken
    refine consistent_moves consistent rfl rfl ?_ ?_
    · simp [State.underway, phase]
    · exact ⟨underway.moved group.synced rfl rfl, synced, sequence⟩
  | _ => simp [State.advance, phase] at taken

/-- `Sync` is called exactly when the leader asks for it; a failure skips the
insertion. -/
theorem sync_consistent (taken : state.advance (.sync result) = some next) :
    Consistent start next := by
  have progress := consistent.progress
  cases phase : state.phase with
  | syncing group =>
    simp only [Progress, phase] at progress
    obtain ⟨underway, synced, sequence⟩ := progress
    simp only [State.advance, phase] at taken
    split at taken
    next wanted =>
      have asked : ¬ group.leader.sync = false := by simp [wanted]
      split at taken
      next good =>
        cases taken
        refine consistent_moves consistent rfl rfl ?_ ?_
        · simp [State.underway, phase]
        · exact ⟨underway.moved _ rfl rfl, fun _ => by rw [good], fun no => absurd no asked,
            sequence, [], rfl, sequence⟩
      next failed =>
        cases taken
        refine consistent_moves consistent rfl rfl ?_ ?_
        · cases result <;> simp_all [State.underway]
        · exact ⟨underway.moved _ rfl rfl, fun _ => rfl, fun no => absurd no asked,
            fun good => absurd good failed⟩
    next unwanted =>
      cases taken
      refine consistent_moves consistent rfl rfl ?_ ?_
      · simp [State.underway, phase]
      · exact ⟨underway.moved group.synced rfl rfl, fun wanted => absurd wanted unwanted,
          fun _ => synced, sequence, [], rfl, sequence⟩
  | _ => simp [State.advance, phase] at taken

theorem insert_consistent (taken : state.advance .insert = some next) : Consistent start next := by
  have progress := consistent.progress
  cases phase : state.phase with
  | inserting group sequence left =>
    simp only [Progress, phase] at progress
    obtain ⟨underway, wanted, unwanted, current, done, split, count⟩ := progress
    have before : state.underway = done := by simp [State.underway, phase, split]
    cases left with
    | nil =>
      simp only [State.advance, phase] at taken
      cases taken
      refine consistent_moves consistent rfl rfl ?_ ?_
      · simp [State.underway, phase]
      · refine ⟨underway.moved group.synced rfl rfl, wanted, fun no => ⟨rfl, unwanted no⟩, ?_⟩
        intro _
        rw [split, append_nil]
        exact count
    | cons update left =>
      simp only [State.advance, phase] at taken
      cases taken
      have longer : group.grouping.updates = (done ++ [update]) ++ left := by simp [split]
      have after : group.grouping.updates.take (group.grouping.updates.length - left.length) =
          done ++ [update] := by
        rw [longer, length_append, Nat.add_sub_cancel, take_left]
      refine { consistent with inserted := ?_, progress := ?_ }
      · have all := consistent.inserted
        have length := congrArg length all
        rw [before, number_length] at length
        simp only [State.underway, after]
        rw [before] at all
        rw [← append_assoc, number_append]
        refine congr (congrArg _ all) ?_
        simp only [number, cons.injEq, and_true, Entry.mk.injEq]
        rw [current, length, Nat.add_right_comm]
        rfl
      · refine ⟨underway.moved group.synced rfl rfl, wanted, unwanted, ?_, done ++ [update],
          longer, ?_⟩
        · simp only [length_append, length_singleton]
          omega
        · simp only [length_append, length_singleton]
          omega
  | _ => simp [State.advance, phase] at taken

/-- The group's writers return together. Its updates count as applied exactly when
its status is good, and otherwise no later group can be built. -/
theorem finish_consistent (phase : state.phase = .finishing group status) :
    Consistent start (state.finish group status) := by
  have progress := consistent.progress
  simp only [Progress, phase] at progress
  obtain ⟨underway, wanted, unwanted, count⟩ := progress
  obtain ⟨rest, front⟩ := underway.front
  have ready : state.writers.take group.members.length = group.members := by
    rw [front, take_left]
  have left : state.writers.drop group.members.length = rest := by
    rw [front, drop_left]
  refine ⟨?_, ?_, ?_, ?_, ?_, ?_⟩
  · simp only [State.finish, ready, left, map_append, map_map]
    rw [consistent.order, front, append_assoc]
    congr 2
    exact (map_id _).symm
  · simp only [State.finish, ready, map_append, flatMap_append, map_map]
    rw [consistent.grouped]
    simp
  · intro finished mem
    rcases mem_append.mp mem with old | new
    · exact consistent.synced finished old
    · obtain rfl := mem_singleton.mp new
      rintro _ ⟨rfl⟩
      refine ⟨ready, ?_⟩
      intro writer among asks
      rw [ready] at among
      have result := wanted (underway.led writer among asks)
      exact ⟨by simp [result], fun good => by rw [result]; exact congrArg some good⟩
  · have all := consistent.inserted
    have idle : (state.finish group status).underway = [] := rfl
    have applied : (state.finish group status).applied = state.applied ++ state.underway := by
      simp only [State.applied, State.finish, ready, flatMap_append, flatMap_map]
      congr 1
      by_cases good : status = .ok
      · subst good
        simp only [if_true, State.underway, phase]
        rw [underway.updates]
      · simp only [if_neg good]
        cases status <;> simp_all [State.underway]
    rw [idle, applied, append_nil]
    exact all
  · simp only [State.finish]
    split
    next => rfl
    next direct => exact underway.direct (Bool.eq_false_iff.mpr direct)
  · intro healthy
    -- A failed sync leaves a background error behind.
    have good : status = .ok := by
      by_contra failed
      have asked : group.leader.sync = true := by
        cases asks : group.leader.sync with
        | true => rfl
        | false => exact absurd (unwanted asks).1 failed
      simp only [State.finish, wanted asked] at healthy
      split at healthy
      next => exact failed healthy
      next broken => exact broken healthy
    have reached := count good
    have last := underway.last
    simp only [State.finish]
    omega

end

theorem step_consistent (config : Config) (taken : step config state event = some next)
    (consistent : Consistent start state) : Consistent start next := by
  cases event with
  | enter batch sync =>
    cases taken
    exact enter_consistent batch sync consistent
  | background flushed numLevel0 error =>
    cases taken
    exact background_consistent flushed numLevel0 error consistent
  | append => exact append_consistent consistent taken
  | sync result => exact sync_consistent consistent taken
  | insert => exact insert_consistent consistent taken
  | lead =>
    cases phase : state.phase with
    | idle =>
      cases front : state.writers with
      | nil => simp [step, phase, front] at taken
      | cons writer rest =>
        simp only [step, phase, front] at taken
        cases taken
        have progress := consistent.progress
        simp only [Progress, phase] at progress
        refine consistent_moves consistent front.symm rfl ?_ progress
        simp [State.underway, phase]
    | _ => simp [step, phase] at taken
  | makeRoom opened closed =>
    cases phase : state.phase with
    | makingRoom force allowDelay =>
      simp only [step, phase] at taken
      exact makeRoom_consistent config consistent phase taken
    | _ => simp [step, phase] at taken
  | finish =>
    cases phase : state.phase with
    | finishing group status =>
      simp only [step, phase] at taken
      cases taken
      exact finish_consistent consistent phase
    | _ => simp [step, phase] at taken

end CodeReading.Leveldb.WriteQueue
