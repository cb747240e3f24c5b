import CodeReading.Leveldb.CompactionWork
import CodeReading.Leveldb.VersionSet
import CodeReading.Machine

/-!
# The database as a machine

The state of an open database is what is on disk, the version set, the two memtables,
the snapshots and the compaction in progress. Writers, memtable switches and the
background thread act on it in any order. A compaction is picked in one step, merges one
entry per step and is installed in one step; in between the background thread may flush
the immutable memtable, files may be collected, and writers go on. A crash keeps the
disk only, and the database is opened again from it.

The disk holds the records of the descriptor that CURRENT names, the tables and the
logs. Records and items stand for their encodings. There are no I/O errors and logs are
not reused. An assertion that fails ends the process: `PackSequenceAndType` demands that
sequence numbers fit, and `TableBuilder::Add` that keys are added in increasing order.
-/

namespace CodeReading.Leveldb

open Option (ite_none_right_eq_some)

/-- The parameters of a database: its name and options, what tables and memtables cost,
and the name of its comparator. -/
structure Config (Key Value : Type) where
  dbname : String
  options : Options
  format : TableFormat Key Value
  approximateMemoryUsage : MemTable Key Value → Nat
  comparatorName : String

/-- A record of a log: a write batch with the sequence number of its first update. -/
structure Batch (Key Value : Type) where
  sequence : Nat
  updates : List (Update Key Value)
deriving DecidableEq, Repr

/-- The files of one type in the directory, by their numbers. -/
abbrev Directory (Contents : Type) := AList fun _ : Nat => Contents

variable {Key Value : Type} [LinearOrder Key]

/-- What survives a crash. Without a CURRENT file there is no descriptor. -/
structure Disk (Key Value : Type) [LinearOrder Key] where
  manifest : Option (List (VersionEdit Key))
  tables : Directory (List (Item Key Value))
  logs : Directory (List (Batch Key Value))

/-- The directory before a database was created in it. -/
def Disk.empty : Disk Key Value := ⟨none, ∅, ∅⟩

def Disk.table (disk : Disk Key Value) (number : Nat) : Option (List (Item Key Value)) :=
  disk.tables.lookup number

/-- The compaction in progress, with the entries that its loop has not reached. -/
structure Running (Key Value : Type) [LinearOrder Key] where
  compaction : Compaction Key
  isManual : Bool
  smallestSnapshot : Nat
  input : List (Item Key Value)
  work : Work Key Value

/-- `DBImpl`. The snapshots are listed from the oldest on. -/
structure Db (Key Value : Type) [LinearOrder Key] where
  disk : Disk Key Value
  versions : VersionSet Key
  mem : MemTable Key Value
  imm : Option (MemTable Key Value)
  logfileNumber : Nat
  snapshots : List Nat
  running : Option (Running Key Value)

/-- `DBImpl::Get`: the memtables first, then the tables of the current version. -/
def Db.get (db : Db Key Value) (userKey : Key) (sequence : Nat) : SaverState Value :=
  firstHit [lookup db.mem userKey sequence, lookup (db.imm.getD []) userKey sequence,
    db.versions.current.get db.disk.table userKey sequence]

section

def tableFileName (dbname : String) (number : Nat) : String :=
  let digits := toString number
  dbname ++ "/" ++ "".pushn '0' (6 - digits.length) ++ digits ++ ".ldb"

/-- `BuildTable`: the file is kept unless there was nothing to write. -/
def buildTable (config : Config Key Value) (tables : Directory (List (Item Key Value)))
    (number : Nat) (mem : MemTable Key Value) :
    Option (FileMetaData Key) × Directory (List (Item Key Value)) :=
  match tableMetaData config.format number mem with
  | some file => (some file, tables.insert number mem)
  | none => (none, tables.erase number)

/-- What the recovery of logs carries along. -/
structure Recovered (Key Value : Type) [LinearOrder Key] where
  nextFileNumber : Nat
  tables : Directory (List (Item Key Value))
  edit : VersionEdit Key
  maxSequence : Nat

/-- `WriteLevel0Table` without a base version: the table goes to level 0. -/
def Recovered.writeLevel0Table (config : Config Key Value) (state : Recovered Key Value)
    (mem : MemTable Key Value) : Recovered Key Value :=
  let built := buildTable config state.tables state.nextFileNumber mem
  { state with
    nextFileNumber := state.nextFileNumber + 1
    tables := built.2
    edit := match built.1 with
      | some file => state.edit.addFile 0 file
      | none => state.edit }

variable [Inhabited Value]

section

variable (config : Config Key Value)

/-- One turn of the loop of `RecoverLogFile`. A memtable that is full goes to a
table. -/
def recoverBatch (progress : Option (MemTable Key Value) × Recovered Key Value)
    (batch : Batch Key Value) : Option (MemTable Key Value) × Recovered Key Value :=
  let mem := insertInto batch.sequence batch.updates (progress.1.getD [])
  let lastSequence := batch.sequence + batch.updates.length - 1
  let state := { progress.2 with
    maxSequence :=
      if progress.2.maxSequence < lastSequence then lastSequence else progress.2.maxSequence }
  if config.options.writeBufferSize < config.approximateMemoryUsage mem then
    (none, state.writeLevel0Table config mem)
  else (some mem, state)

/-- `RecoverLogFile`, and `MarkFileNumberUsed` of the log. -/
def recoverLogFile (logs : Directory (List (Batch Key Value))) (state : Recovered Key Value)
    (number : Nat) : Recovered Key Value :=
  let looped := ((logs.lookup number).getD []).foldl (recoverBatch config) (none, state)
  let written := looped.1.elim looped.2 (looped.2.writeLevel0Table config)
  { written with nextFileNumber := markFileNumberUsed written.nextFileNumber number }

/-- The log is not older than the descriptor says. -/
def VersionSet.needsLog (versions : VersionSet Key) (number : Nat) : Bool :=
  decide (versions.logNumber ≤ number) || decide (number = versions.prevLogNumber)

/-- The logs that have to be replayed, in the order in which they were generated. -/
def logsToRecover (versions : VersionSet Key) (logs : Directory (List (Batch Key Value))) :
    List Nat :=
  (logs.keys.filter versions.needsLog).insertionSort fun left right => left ≤ right

/-- The part of `DBImpl::Recover` behind the version set: the logs are replayed into
tables of level 0. -/
def recoverLogs (disk : Disk Key Value) (versions : VersionSet Key) : Recovered Key Value :=
  (logsToRecover versions disk.logs).foldl (recoverLogFile config disk.logs)
    ⟨versions.nextFileNumber, disk.tables, VersionEdit.empty, 0⟩

/-- The files of the directory whose numbers are not wanted are removed. -/
def Directory.retain {Contents : Type} (wanted : Nat → Bool) (directory : Directory Contents) :
    Directory Contents :=
  (directory.keys.filter fun number => !wanted number).foldl
    (fun remaining number => remaining.erase number) directory

/-- `RemoveObsoleteFiles`, for the tables that are live. -/
def Disk.removeObsoleteFiles (disk : Disk Key Value) (versions : VersionSet Key)
    (live : List Nat) : Disk Key Value :=
  { disk with
    tables := disk.tables.retain fun number => decide (number ∈ live)
    logs := disk.logs.retain versions.needsLog }

/-- The live tables that the directory lacks. A log of the same number counts as well,
since `Recover` looks at the numbers only. -/
def Disk.missingFiles (disk : Disk Key Value) (version : Version Key) : List Nat :=
  (version.numbers.filter fun number =>
    decide (number ∉ disk.tables) && decide (number ∉ disk.logs)).dedup.insertionSort
      fun left right => left ≤ right

/-- The version set once the logs are replayed and the new log has its number. -/
def VersionSet.afterLogs (versions : VersionSet Key) (recovered : Recovered Key Value) :
    VersionSet Key :=
  { versions with
    nextFileNumber := recovered.nextFileNumber + 1
    lastSequence := max versions.lastSequence recovered.maxSequence }

/-- The edit that `DB::Open` applies: the tables made from logs and the number of the new
log. -/
def Recovered.openEdit (recovered : Recovered Key Value) : VersionEdit Key :=
  { recovered.edit with logNumber := some recovered.nextFileNumber, prevLogNumber := some 0 }

/-- The end of `DB::Open`, once the logs are replayed. The descriptor is written anew: a
snapshot of the recovered version, and the edit. -/
def Db.begin (disk : Disk Key Value) (versions : VersionSet Key) (recovered : Recovered Key Value) :
    Db Key Value :=
  let ready := versions.afterLogs recovered
  let edit := ready.complete recovered.openEdit
  let applied := ready.apply edit
  let written : Disk Key Value :=
    { manifest := some [versions.snapshotEdit config.comparatorName, edit]
      tables := recovered.tables
      logs := disk.logs.insert recovered.nextFileNumber [] }
  { disk := written.removeObsoleteFiles applied applied.current.numbers
    versions := applied
    mem := []
    imm := none
    logfileNumber := recovered.nextFileNumber
    snapshots := []
    running := none }

/-- `DB::Open`, with `create_if_missing`. -/
def Db.open (disk : Disk Key Value) : Except Status (Db Key Value) :=
  match VersionSet.recover config.comparatorName
      (disk.manifest.getD [newDbEdit config.comparatorName]) with
  | .error status => .error status
  | .ok versions =>
      match disk.missingFiles versions.current with
      | first :: rest =>
          .error (.corruption (toString (rest.length + 1) ++ " missing files; e.g.: " ++
            tableFileName config.dbname first))
      | [] => .ok (Db.begin config disk versions (recoverLogs config disk versions))

end

end

section

/-- What the background thread is asked to do: `PickCompaction`, or a manual
compaction. -/
inductive Request (Key : Type) [LinearOrder Key] where
  | automatic (trigger : Trigger Key)
  | manual (level : Nat) (begin finish : Option (InternalKey Key))

def Request.isManual : Request Key → Bool
  | .automatic _ => false
  | .manual _ _ _ => true

/-- The compaction that a request leads to, if any. -/
def Request.pick (options : Options) (versions : VersionSet Key) : Request Key →
    Option (Compaction Key)
  | .automatic trigger => pickCompaction options versions.current versions.compactPointer trigger
  | .manual level begin finish => compactRange options versions.current level begin finish

inductive Event (Key Value : Type) [LinearOrder Key] where
  | write (updates : List (Update Key Value))
  | switchMemTable
  | compactMemTable
  | startCompaction (request : Request Key)
  | turn
  | install
  | removeObsoleteFiles (pinned : List Nat)
  | getSnapshot
  | releaseSnapshot (sequence : Nat)
  | reopen

def Db.logAndApply (db : Db Key Value) (edit : VersionEdit Key) : Db Key Value :=
  { db with
    disk := { db.disk with
      manifest := db.disk.manifest.map fun edits => edits ++ [db.versions.complete edit] }
    versions := db.versions.apply (db.versions.complete edit) }

/-- The part of `DBImpl::Write` behind the queue: one record, and its updates. -/
def Db.write [Inhabited Value] (db : Db Key Value) (updates : List (Update Key Value)) :
    Db Key Value :=
  let sequence := db.versions.lastSequence + 1
  { db with
    disk := { db.disk with
      logs := db.disk.logs.insert db.logfileNumber
        ((db.disk.logs.lookup db.logfileNumber).getD [] ++ [⟨sequence, updates⟩]) }
    versions := { db.versions with lastSequence := db.versions.lastSequence + updates.length }
    mem := insertInto sequence updates db.mem }

/-- The part of `MakeRoomForWrite` that switches to a new memtable and a new log. -/
def Db.switchMemTable (db : Db Key Value) : Db Key Value :=
  { db with
    disk := { db.disk with logs := db.disk.logs.insert db.versions.nextFileNumber [] }
    versions := { db.versions with nextFileNumber := db.versions.nextFileNumber + 1 }
    mem := []
    imm := some db.mem
    logfileNumber := db.versions.nextFileNumber }

def flushEdit (options : Options) (version : Version Key) (logfileNumber : Nat)
    (built : Option (FileMetaData Key)) : VersionEdit Key :=
  let added : VersionEdit Key := match built with
    | some file => VersionEdit.empty.addFile
        (version.pickLevelForMemTableOutput options file.smallest.userKey file.largest.userKey) file
    | none => VersionEdit.empty
  { added with prevLogNumber := some 0, logNumber := some logfileNumber }

section

variable (config : Config Key Value)

/-- `CompactMemTable`, with `WriteLevel0Table` for the current version. -/
def Db.compactMemTable (db : Db Key Value) (imm : MemTable Key Value) : Db Key Value :=
  let built := buildTable config db.disk.tables db.versions.nextFileNumber imm
  let stored : Db Key Value :=
    { db with
      disk := { db.disk with tables := built.2 }
      versions := { db.versions with nextFileNumber := db.versions.nextFileNumber + 1 } }
  { stored.logAndApply
      (flushEdit config.options db.versions.current db.logfileNumber built.1) with imm := none }

def moveEdit (compaction : Compaction Key) : VersionEdit Key :=
  match compaction.inputs0 with
  | file :: _ =>
      (compaction.edit.removeFile compaction.level file.number).addFile (compaction.level + 1) file
  | [] => compaction.edit

/-- The oldest sequence number that a snapshot may ask for. -/
def Db.smallestSnapshot (db : Db Key Value) : Nat :=
  db.snapshots.head?.getD db.versions.lastSequence

/-- `BackgroundCompaction` up to the loop of `DoCompactionWork`. Picking sets the
compaction pointer at once; a trivial move is done here, a manual compaction never is
one. -/
def Db.startCompaction (db : Db Key Value) (request : Request Key) : Option (Db Key Value) :=
  match request.pick config.options db.versions with
  | none => some db
  | some compaction =>
      let pointed : Db Key Value := { db with
        versions := { db.versions with
          compactPointer := applyPointers compaction.edit db.versions.compactPointer } }
      if !request.isManual && compaction.isTrivialMove config.options then
        some (pointed.logAndApply (moveEdit compaction))
      else
        (makeInputIterator db.disk.table compaction).map fun input =>
          { pointed with
            running := some
              { compaction := compaction
                isManual := request.isManual
                smallestSnapshot := db.smallestSnapshot
                input := input
                work := Work.start compaction db.versions.nextFileNumber } }

/-- The outputs of a compaction as they are in the directory. Nobody reads the one that
is still open. -/
def Disk.writeOutputs (disk : Disk Key Value) (outputs : List (Output Key Value)) :
    Disk Key Value :=
  { disk with
    tables := outputs.foldl (fun tables output => tables.insert output.number output.items)
      disk.tables }

instance (items : List (Item Key Value)) : Decidable (Sorted items) :=
  inferInstanceAs (Decidable (List.Pairwise _ _))

/-- The work after one more turn of the loop of `DoCompactionWork`. The numbers of outputs
come from the counter of the version set. -/
def Running.turn (nextFileNumber : Nat) (running : Running Key Value) (item : Item Key Value) :
    Work Key Value :=
  let ready := { running.work with nextFileNumber := nextFileNumber }
  ready.turn config.options config.format running.compaction running.smallestSnapshot item

/-- One turn of the loop of `DoCompactionWork`. -/
def Db.turn (db : Db Key Value) (running : Running Key Value) (item : Item Key Value)
    (rest : List (Item Key Value)) : Option (Db Key Value) :=
  let work := running.turn config db.versions.nextFileNumber item
  if ∀ output ∈ work.allOutputs, Sorted output.items then
    some
      { db with
        disk := db.disk.writeOutputs work.allOutputs
        versions := { db.versions with nextFileNumber := work.nextFileNumber }
        running := some { running with input := rest, work := work } }
  else none

/-- The end of `DoCompactionWork` with `InstallCompactionResults`. -/
def Db.install (db : Db Key Value) (running : Running Key Value) : Db Key Value :=
  Db.logAndApply { db with running := none }
    (installEdit config.format running.compaction running.work.finishOutput)

end

/-- The tables that the compaction in progress keeps alive: the version it reads and the
outputs that are pending. -/
def Running.liveFiles (running : Running Key Value) : List Nat :=
  running.compaction.inputVersion.numbers ++ running.work.allOutputs.map Output.number

/-- The tables that `RemoveObsoleteFiles` keeps. Versions that iterators still read are
given by what they pin. -/
def Db.liveFiles (db : Db Key Value) (pinned : List Nat) : List Nat :=
  db.versions.current.numbers ++ (db.running.elim [] Running.liveFiles ++ pinned)

/-- One step of the database. An event that is not possible in a state has no next state.
A flush happens when the background thread is idle or at the head of a turn of the
compaction loop. -/
def step [Inhabited Value] (config : Config Key Value) (db : Db Key Value) :
    Event Key Value → Option (Db Key Value)
  | .write updates =>
      if db.versions.lastSequence + updates.length ≤ kMaxSequenceNumber then some (db.write updates)
      else none
  | .switchMemTable => if db.imm.isNone then some db.switchMemTable else none
  | .compactMemTable =>
      if db.running.all fun running => !running.input.isEmpty then
        db.imm.map (db.compactMemTable config)
      else none
  | .startCompaction request =>
      if db.running.isNone && db.imm.isNone then db.startCompaction config request else none
  | .turn =>
      match db.running with
      | some running =>
          match running.input with
          | item :: rest => db.turn config running item rest
          | [] => none
      | none => none
  | .install =>
      match db.running with
      | some running => if running.input.isEmpty then some (db.install config running) else none
      | none => none
  | .removeObsoleteFiles pinned =>
      some { db with disk := db.disk.removeObsoleteFiles db.versions (db.liveFiles pinned) }
  | .getSnapshot => some { db with snapshots := db.snapshots ++ [db.versions.lastSequence] }
  | .releaseSnapshot sequence => some { db with snapshots := db.snapshots.erase sequence }
  | .reopen => (Db.open config db.disk).toOption

/-- The state after events on a new database, if they were possible. -/
def reach [Inhabited Value] (config : Config Key Value) (events : List (Event Key Value)) :
    Option (Db Key Value) :=
  (Db.open config Disk.empty).toOption.bind fun created => Machine.run (step config) created events

/-- What a step can be, with what it requires of the state. -/
inductive Transition [Inhabited Value] (config : Config Key Value) (db : Db Key Value) :
    Event Key Value → Db Key Value → Prop
  | write (updates : List (Update Key Value))
      (fits : db.versions.lastSequence + updates.length ≤ kMaxSequenceNumber) :
      Transition config db (.write updates) (db.write updates)
  | switchMemTable (without : db.imm = none) :
      Transition config db .switchMemTable db.switchMemTable
  | compactMemTable (imm : MemTable Key Value) (waiting : db.imm = some imm) :
      Transition config db .compactMemTable (db.compactMemTable config imm)
  | startCompaction (request : Request Key) (next : Db Key Value) (idle : db.running = none)
      (started : db.startCompaction config request = some next) :
      Transition config db (.startCompaction request) next
  | turn (running : Running Key Value) (item : Item Key Value) (rest : List (Item Key Value))
      (next : Db Key Value) (isRunning : db.running = some running)
      (input : running.input = item :: rest)
      (turned : db.turn config running item rest = some next) : Transition config db .turn next
  | install (running : Running Key Value) (isRunning : db.running = some running)
      (finished : running.input = []) : Transition config db .install (db.install config running)
  | removeObsoleteFiles (pinned : List Nat) :
      Transition config db (.removeObsoleteFiles pinned)
        { db with disk := db.disk.removeObsoleteFiles db.versions (db.liveFiles pinned) }
  | getSnapshot :
      Transition config db .getSnapshot
        { db with snapshots := db.snapshots ++ [db.versions.lastSequence] }
  | releaseSnapshot (sequence : Nat) :
      Transition config db (.releaseSnapshot sequence)
        { db with snapshots := db.snapshots.erase sequence }
  | reopen (next : Db Key Value) (opened : Db.open config db.disk = .ok next) :
      Transition config db .reopen next

theorem step_transition [Inhabited Value] {event : Event Key Value}
    (taken : step config db event = some next) : Transition config db event next := by
  cases event with
  | write updates =>
    obtain ⟨fits, taken⟩ := ite_none_right_eq_some.mp taken
    exact Option.some.inj taken ▸ .write updates fits
  | switchMemTable =>
    obtain ⟨without, taken⟩ := ite_none_right_eq_some.mp taken
    exact Option.some.inj taken ▸ .switchMemTable (Option.isNone_iff_eq_none.mp without)
  | compactMemTable =>
    obtain ⟨_, taken⟩ := ite_none_right_eq_some.mp taken
    obtain ⟨imm, waiting, rfl⟩ := Option.map_eq_some_iff.mp taken
    exact .compactMemTable imm waiting
  | startCompaction request =>
    obtain ⟨alone, taken⟩ := ite_none_right_eq_some.mp taken
    have idle := Option.isNone_iff_eq_none.mp (Bool.and_eq_true_iff.mp alone).1
    exact .startCompaction request next idle taken
  | turn =>
    simp only [step] at taken
    split at taken
    · rename_i running isRunning
      split at taken
      · rename_i item rest input
        exact .turn running item rest next isRunning input taken
      · cases taken
    · cases taken
  | install =>
    simp only [step] at taken
    split at taken
    · rename_i running isRunning
      obtain ⟨finished, taken⟩ := ite_none_right_eq_some.mp taken
      exact Option.some.inj taken ▸ .install running isRunning (List.isEmpty_iff.mp finished)
    · cases taken
  | removeObsoleteFiles pinned => exact Option.some.inj taken ▸ .removeObsoleteFiles pinned
  | getSnapshot => exact Option.some.inj taken ▸ .getSnapshot
  | releaseSnapshot sequence => exact Option.some.inj taken ▸ .releaseSnapshot sequence
  | reopen =>
    simp only [step] at taken
    cases opened : Db.open config db.disk with
    | error status =>
      rw [opened] at taken
      cases taken
    | ok reopened =>
      rw [opened] at taken
      exact Option.some.inj taken ▸ .reopen reopened opened

end

end CodeReading.Leveldb
