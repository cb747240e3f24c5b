import CodeReading.Leveldb.WriteBatch
import CodeReading.Machine

/-!
# The queue of writers

`DBImpl::Write` as a machine. Calls queue up in `writers_`; the one at the front
makes room, merges a prefix of the queue into one batch, and then appends, syncs
and inserts without the mutex, while further calls may queue up behind it and the
background thread works. Each event is one stretch of code run under the mutex, or
one operation of the leader without it. `MakeRoomForWrite` is cut at the turns of
its loop. A disabled event stands for a thread that waits.

The log is assumed to accept every append. Opening and closing a log file, `Sync`
and the background thread may fail. What the state keeps under `History` is not a
variable of the source; it records what happened, for the properties to speak of.
-/

namespace CodeReading.Leveldb.WriteQueue

def kL0SlowdownWritesTrigger : Nat := 8

def kL0StopWritesTrigger : Nat := 12

/-- `DBImpl::Writer`: a call of `Write`. The updates acknowledged when the call
started are recorded with it. -/
structure Writer where
  batch : Option WriteBatch
  sync : Bool
  before : List ByteEntry
deriving DecidableEq, Repr

/-- The updates a call wants applied; none for a call that forces a compaction. -/
def Writer.updates (writer : Writer) : List ByteUpdate :=
  match writer.batch with
  | some batch => batch.updates
  | none => []

/-- The result of `BuildBatchGroup`: the writers behind the first one up to
`last_writer`, the merged updates, and whether they stand in `tmp_batch_`. -/
structure Grouping where
  followers : List Writer
  updates : List ByteUpdate
  temporary : Bool
deriving DecidableEq, Repr

/-- The loop of `BuildBatchGroup`. `tmpBatch` is what `tmp_batch_` held before. -/
def groupLoop (first : Writer) (tmpBatch : List ByteUpdate) (maxSize : Nat) :
    Nat → Grouping → List Writer → Grouping
  | _, grouping, [] => grouping
  | size, grouping, writer :: rest =>
      if writer.sync && !first.sync then grouping
      else match writer.batch with
        | none =>
            groupLoop first tmpBatch maxSize size
              { grouping with followers := grouping.followers ++ [writer] } rest
        | some batch =>
            if maxSize < size + batch.byteSize then grouping
            else
              -- The caller's batch is copied once, when the first follower joins.
              let merged := if grouping.temporary then grouping.updates
                else tmpBatch ++ first.updates
              groupLoop first tmpBatch maxSize (size + batch.byteSize)
                ⟨grouping.followers ++ [writer], merged ++ batch.updates, true⟩ rest

/-- The limit on the size of a group: smaller when its first batch is small. -/
def maxGroupSize (size : Nat) : Nat :=
  if size ≤ 128 * 2 ^ 10 then size + 128 * 2 ^ 10 else 2 ^ 20

/-- `BuildBatchGroup` on the queue `first :: rest`. -/
def buildBatchGroup (tmpBatch : List ByteUpdate) (first : Writer) (batch : WriteBatch)
    (rest : List Writer) : Grouping :=
  groupLoop first tmpBatch (maxGroupSize batch.byteSize) batch.byteSize
    ⟨[], batch.updates, false⟩ rest

/-- A group on its way through the log: its writers, the stamped batch, the value
for `LastSequence`, and what `Sync` returned if it was called. -/
structure Group where
  leader : Writer
  grouping : Grouping
  sequence : Nat
  lastSequence : Nat
  synced : Option Status
deriving DecidableEq, Repr

def Group.members (group : Group) : List Writer := group.leader :: group.grouping.followers

/-- Where the writer at the front of the queue is. -/
inductive Phase where
  | idle
  | makingRoom (force allowDelay : Bool)
  | appending (group : Group)
  | syncing (group : Group)
  | inserting (group : Group) (sequence : Nat) (left : List ByteUpdate)
  | finishing (group : Group) (status : Status)
deriving DecidableEq, Repr

/-- A call that has returned, with the memtable at that moment. -/
structure Returned where
  writer : Writer
  status : Status
  mem : List ByteEntry
deriving DecidableEq, Repr

/-- What happened so far. A finished call or group is kept with its writers, the
status they all returned, and the group that was built, if one was. -/
structure History where
  entered : List Writer
  returned : List Returned
  finished : List (List Writer × Status × Option Group)
  insertions : List ByteEntry
  acknowledged : List ByteEntry
deriving DecidableEq, Repr

/-- The variables of `DBImpl` that `Write` uses. -/
structure State where
  writers : List Writer
  phase : Phase
  mem : List ByteEntry
  imm : Option (List ByteEntry)
  numLevel0 : Nat
  bgError : Status
  lastSequence : Nat
  tmpBatch : List ByteUpdate
  log : List Bytes
  history : History
deriving DecidableEq, Repr

/-- A database just opened at the given last sequence number. -/
def State.opened (lastSequence : Nat) : State where
  writers := []
  phase := .idle
  mem := []
  imm := none
  numLevel0 := 0
  bgError := .ok
  lastSequence := lastSequence
  tmpBatch := []
  log := []
  history := ⟨[], [], [], [], []⟩

/-- The size of a memtable and the limit `options_.write_buffer_size`. -/
structure Config where
  approximateMemoryUsage : List ByteEntry → Nat
  writeBufferSize : Nat

/-- The call at the front returns alone, with a status of its own. -/
def State.leave (state : State) (writer : Writer) (rest : List Writer) (status : Status) : State :=
  { state with
    writers := rest
    phase := .idle
    history := { state.history with
      returned := state.history.returned ++ [⟨writer, status, state.mem⟩]
      finished := state.history.finished ++ [([writer], status, none)] } }

/-- `BuildBatchGroup` and the stamping of its result. -/
def State.begin (state : State) (writer : Writer) (batch : WriteBatch) (rest : List Writer) :
    State :=
  let grouping := buildBatchGroup state.tmpBatch writer batch rest
  { state with
    tmpBatch := if grouping.temporary then grouping.updates else state.tmpBatch
    phase := .appending ⟨writer, grouping, state.lastSequence + 1,
      state.lastSequence + grouping.updates.length, none⟩ }

/-- The branch of `MakeRoomForWrite` that finds room in the current memtable. -/
def State.hasRoom (config : Config) (state : State) (force : Bool) : Bool :=
  !force && decide (config.approximateMemoryUsage state.mem ≤ config.writeBufferSize)

/-- One turn of the loop of `MakeRoomForWrite`, and what `Write` does under the
mutex when the loop ends. `opened` and `closed` are the statuses of opening the
new log file and closing the old one. A waiting turn is not enabled. -/
def State.makeRoom (config : Config) (state : State) (force allowDelay : Bool)
    (opened closed : Status) : Option State :=
  match state.writers with
  | [] => none
  | writer :: rest =>
      if state.bgError ≠ .ok then some (state.leave writer rest state.bgError)
      else if allowDelay && decide (kL0SlowdownWritesTrigger ≤ state.numLevel0) then
        some { state with phase := .makingRoom force false }
      else if state.hasRoom config force then
        match writer.batch with
        | none => some (state.leave writer rest .ok)
        | some batch => some (state.begin writer batch rest)
      else if state.imm.isSome then none
      else if kL0StopWritesTrigger ≤ state.numLevel0 then none
      else if opened ≠ .ok then some (state.leave writer rest opened)
      else some { state with
        bgError := if closed = .ok then state.bgError else closed
        imm := some state.mem
        mem := []
        phase := .makingRoom false allowDelay }

/-- The last stretch of a group under the mutex: record a sync error, publish the
last sequence number, and wake the writers up to `last_writer`. -/
def State.finish (state : State) (group : Group) (status : Status) : State :=
  let ready := state.writers.take group.members.length
  { state with
    writers := state.writers.drop group.members.length
    phase := .idle
    bgError := match group.synced with
      | some error => if state.bgError = .ok then error else state.bgError
      | none => state.bgError
    lastSequence := group.lastSequence
    tmpBatch := if group.grouping.temporary then [] else state.tmpBatch
    history := { state.history with
      returned := state.history.returned ++ ready.map (⟨·, status, state.mem⟩)
      finished := state.history.finished ++ [(ready, status, some group)]
      acknowledged := state.history.acknowledged ++
        if status = .ok then number group.sequence group.grouping.updates else [] } }

inductive Event where
  | enter (batch : Option WriteBatch) (sync : Bool)
  | lead
  | makeRoom (opened closed : Status)
  | append
  | sync (result : Status)
  | insert
  | finish
  | background (flushed : Bool) (numLevel0 : Nat) (error : Status)
deriving DecidableEq, Repr

/-- A new call is pushed to the back of the queue. -/
def State.enter (state : State) (batch : Option WriteBatch) (sync : Bool) : State :=
  let writer : Writer := ⟨batch, sync, state.history.acknowledged⟩
  { state with
    writers := state.writers ++ [writer]
    history := { state.history with entered := state.history.entered ++ [writer] } }

/-- The leader's operations without the mutex: `AddRecord`, `Sync` when the leader
asks for it, and `InsertInto`, one update at a time. -/
def State.advance (state : State) : Event → Option State
  | .append => match state.phase with
    | .appending group => some { state with
        log := state.log ++ [batchContents group.sequence group.grouping.updates]
        phase := .syncing group }
    | _ => none
  | .sync result => match state.phase with
    | .syncing group =>
        if group.leader.sync then
          let group := { group with synced := some result }
          if result = .ok then
            some { state with phase := .inserting group group.sequence group.grouping.updates }
          else some { state with phase := .finishing group result }
        else some { state with phase := .inserting group group.sequence group.grouping.updates }
    | _ => none
  | .insert => match state.phase with
    | .inserting group sequence (update :: left) => some { state with
        mem := state.mem ++ [⟨sequence, update⟩]
        phase := .inserting group (sequence + 1) left
        history := { state.history with
          insertions := state.history.insertions ++ [⟨sequence, update⟩] } }
    | .inserting group _ [] => some { state with phase := .finishing group .ok }
    | _ => none
  | _ => none

/-- The background thread: a flushed memtable is gone, files come and go at level
zero, and the first error is recorded. -/
def State.background (state : State) (flushed : Bool) (numLevel0 : Nat) (error : Status) : State :=
  { state with
    imm := if flushed then none else state.imm
    numLevel0 := numLevel0
    bgError := if state.bgError = .ok then error else state.bgError }

def step (config : Config) (state : State) : Event → Option State
  | .enter batch sync => some (state.enter batch sync)
  | .lead => match state.phase, state.writers with
    | .idle, writer :: _ =>
        some { state with phase := .makingRoom writer.batch.isNone (!writer.batch.isNone) }
    | _, _ => none
  | .makeRoom opened closed => match state.phase with
    | .makingRoom force allowDelay => state.makeRoom config force allowDelay opened closed
    | _ => none
  | .finish => match state.phase with
    | .finishing group status => some (state.finish group status)
    | _ => none
  | .background flushed numLevel0 error => some (state.background flushed numLevel0 error)
  | event => state.advance event

end CodeReading.Leveldb.WriteQueue
