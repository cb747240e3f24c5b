import CodeReading.Leveldb.LogReplay
import CodeReading.Leveldb.VersionList

/-!
# The files of an open database

The background thread flushes and compacts, and removes the files that nobody needs any
more. It gives up the mutex while it builds a table, while it merges, while it writes to the
descriptor and while it removes files; writers and readers go on then. Everything it does may
fail. A failure is remembered in `bg_error_`, after which nothing is removed.

Here a step is what one thread does while it holds the mutex. The versions that are linked
in the version set, the pending outputs and the number of the descriptor are part of the
state. Three things are remembered beside it: the items that were ever in a table of an
installed version, the records that a failed write left in a log, and the log number of the
version set before its last edit.
-/

namespace CodeReading.Leveldb

/-- A file of the directory, as `ParseFileName` sees it. The files that are always kept have
no number. -/
inductive FileName where
  | log (number : Nat)
  | descriptor (number : Nat)
  | table (number : Nat)
  | temp (number : Nat)
  | other
deriving DecidableEq, Repr

/-- What `LogAndApply` is called for. -/
inductive Purpose where
  | flush
  | compaction
  | move
deriving DecidableEq, Repr

/-- How a write goes: it may fail with or without its record in the log, and a `Sync` that
fails is a background error. -/
inductive WriteOutcome where
  | ok
  | failed (left : Bool)
  | syncFailed
deriving DecidableEq, Repr

/-- How the switch to a new log goes. -/
inductive SwitchOutcome where
  | ok
  | createFailed
  | closeFailed
deriving DecidableEq, Repr

variable {Key Value : Type} [LinearOrder Key]

/-- Where the background thread is. -/
inductive Position (Key : Type) [LinearOrder Key] where
  | idle
  | merging
  | building (number base : Nat)
  | logging (edit : VersionEdit Key) (purpose : Purpose)
  | deleting (files : List FileName)

/-- `DBImpl` with the list of versions. The versions are known by names: that of the current
one, those that readers hold, and that of the inputs of a compaction. A compaction whose
inputs could not all be read goes on to its end and fails there. -/
structure FileManager (Key Value : Type) [LinearOrder Key] where
  db : Db Key Value
  nodes : List (Node (Version Key))
  currentId : Nat
  nextId : Nat
  readers : List Nat
  inputId : Option Nat
  inputFailed : Bool
  pendingOutputs : List Nat
  manifestFileNumber : Nat
  bgError : Bool
  position : Position Key
  installed : List (Item Key Value)
  failedWrites : List (Batch Key Value)
  formerLogNumber : Nat

/-- The version that `CompactMemTable` holds while the table is built. -/
def Position.base : Position Key → Option Nat
  | .building _ base => some base
  | .idle | .merging | .logging _ _ | .deleting _ => none

def Version.items (tables : Directory (List (Item Key Value))) (version : Version Key) :
    List (Item Key Value) :=
  version.numbers.flatMap fun number => (tables.lookup number).getD []

namespace FileManager

section

variable (manager : FileManager Key Value)

/-- The holders of references to versions. -/
def holders : List Nat :=
  manager.currentId :: (manager.readers ++ manager.inputId.toList ++ manager.position.base.toList)

def addLiveFiles : List Nat :=
  manager.nodes.flatMap fun node => node.payload.numbers

/-- The files that `RemoveObsoleteFiles` keeps. -/
def keeps : FileName → Bool
  | .log number => manager.db.versions.needsLog number
  | .descriptor number => decide (manager.manifestFileNumber ≤ number)
  | .table number | .temp number => decide (number ∈ manager.pendingOutputs ++ manager.addLiveFiles)
  | .other => true

/-- Where the background thread goes on: a flush may have interrupted a compaction. -/
def resume : Position Key :=
  if manager.db.running.isSome then .merging else .idle

/-- The loop of `RemoveObsoleteFiles`, or what comes after it. -/
def deleteNext (files : List FileName) : FileManager Key Value :=
  { manager with position := if files.isEmpty then manager.resume else .deleting files }

/-- `RemoveObsoleteFiles` up to its loop, with what `GetChildren` listed. An error of
`GetChildren` is ignored, so that may be anything. -/
def removeObsoleteFiles (children : List FileName) : FileManager Key Value :=
  if manager.bgError then { manager with position := manager.resume }
  else manager.deleteNext (children.filter fun file => !manager.keeps file)

def appendVersion (version : Version Key) : FileManager Key Value :=
  { manager with
    nodes := Node.unref manager.currentId manager.nodes ++ [⟨manager.nextId, version, 1⟩]
    currentId := manager.nextId
    nextId := manager.nextId + 1 }

/-- `LogAndApply` up to the write to the descriptor. -/
def startLogging (edit : VersionEdit Key) (purpose : Purpose) : FileManager Key Value :=
  { manager with position := .logging (manager.db.versions.complete edit) purpose }

def endLogging (edit : VersionEdit Key) (written : Bool) : FileManager Key Value :=
  if written then
    let versions := manager.db.versions.apply edit
    let appended := manager.appendVersion versions.current
    { appended with
      db := { manager.db with
        versions := versions
        disk := { manager.db.disk with
          manifest := manager.db.disk.manifest.map fun edits => edits ++ [edit] } }
      installed := manager.installed ++ versions.current.items manager.db.disk.tables
      formerLogNumber := manager.db.versions.logNumber }
  else { manager with bgError := true }

def cleanupCompaction : FileManager Key Value :=
  let outputs := (manager.db.running.elim [] fun running => running.work.allOutputs).map
    Output.number
  { manager with
    db := { manager.db with running := none }
    nodes := manager.inputId.elim manager.nodes fun id => Node.unref id manager.nodes
    inputId := none
    pendingOutputs := manager.pendingOutputs.filter fun number => decide (number ∉ outputs)
    position := .idle }

def afterLogging (written : Bool) (children : List FileName) : Purpose → FileManager Key Value
  | .flush =>
      if written then
        removeObsoleteFiles { manager with db := { manager.db with imm := none } } children
      else { manager with position := manager.resume }
  | .compaction => manager.cleanupCompaction.removeObsoleteFiles children
  | .move => manager.cleanupCompaction

/-- A write that fails uses up its sequence numbers. The log may have the record, the memtable
has not. -/
def failWrite (updates : List (Update Key Value)) (left : Bool) : FileManager Key Value :=
  let batch : Batch Key Value := ⟨manager.db.versions.lastSequence + 1, updates⟩
  let versions := { manager.db.versions with
    lastSequence := manager.db.versions.lastSequence + updates.length }
  let log := (manager.db.disk.logs.lookup manager.db.logfileNumber).getD []
  if left then
    { manager with
      db := { manager.db with
        versions := versions
        disk := { manager.db.disk with
          logs := manager.db.disk.logs.insert manager.db.logfileNumber (log ++ [batch]) } }
      failedWrites := manager.failedWrites ++ [batch] }
  else { manager with db := { manager.db with versions := versions } }

end

/-- The part of `DBImpl::Write` behind the queue. -/
def write [Inhabited Value] (manager : FileManager Key Value) (updates : List (Update Key Value)) :
    WriteOutcome → FileManager Key Value
  | .ok => { manager with db := manager.db.write updates }
  | .failed left => manager.failWrite updates left
  | .syncFailed => { manager.failWrite updates true with bgError := true }

/-- The part of `MakeRoomForWrite` that switches to a new log. A number whose file could not
be created is used again. -/
def switchMemTable (manager : FileManager Key Value) : SwitchOutcome → FileManager Key Value
  | .ok => { manager with db := manager.db.switchMemTable }
  | .createFailed => manager
  | .closeFailed => { manager with db := manager.db.switchMemTable, bgError := true }

/-- `CompactMemTable` with `WriteLevel0Table` up to `BuildTable`. -/
def startFlush (manager : FileManager Key Value) : FileManager Key Value :=
  let number := manager.db.versions.nextFileNumber
  { manager with
    db := { manager.db with
      versions := { manager.db.versions with nextFileNumber := number + 1 } }
    nodes := Node.ref manager.currentId manager.nodes
    pendingOutputs := manager.pendingOutputs ++ [number]
    position := .building number manager.currentId }

section

variable (config : Config Key Value) (manager : FileManager Key Value)

/-- What follows `BuildTable`, up to the write to the descriptor. A failure, which may also
be a shutdown, leaves the file or not. -/
def endBuild (number base : Nat) (imm : MemTable Key Value) (built : Bool)
    (left : Option (List (Item Key Value))) : FileManager Key Value :=
  let released : FileManager Key Value :=
    { manager with
      nodes := Node.unref base manager.nodes
      pendingOutputs := manager.pendingOutputs.filter fun other => decide (other ≠ number) }
  if built then
    let table := buildTable config manager.db.disk.tables number imm
    let stored : FileManager Key Value :=
      { released with
        db := { manager.db with disk := { manager.db.disk with tables := table.2 } } }
    stored.startLogging (flushEdit config.options manager.db.versions.current
      manager.db.logfileNumber table.1) .flush
  else
    let tables := left.elim (manager.db.disk.tables.erase number) fun items =>
      manager.db.disk.tables.insert number items
    { released with
      db := { manager.db with disk := { manager.db.disk with tables := tables } }
      bgError := true
      position := manager.resume }

/-- `BackgroundCompaction` without a memtable to flush. The merging iterator leaves out a file
that it cannot read, so that after a fault it may deliver anything. -/
def startCompaction (request : Request Key) (fault : Option (List (Item Key Value))) :
    Option (FileManager Key Value) :=
  match request.pick config.options manager.db.versions with
  | none => some manager
  | some compaction =>
      let db := manager.db
      let pointed : Db Key Value := { db with
        versions := { db.versions with
          compactPointer := applyPointers compaction.edit db.versions.compactPointer } }
      let picked : FileManager Key Value :=
        { manager with
          db := pointed
          nodes := Node.ref manager.currentId manager.nodes
          inputId := some manager.currentId }
      if !request.isManual && compaction.isTrivialMove config.options then
        some (picked.startLogging (moveEdit compaction) .move)
      else
        (fault.or (makeInputIterator db.disk.table compaction)).map fun input =>
          { picked with
            inputFailed := fault.isSome
            db := { pointed with
              running := some
                { compaction := compaction
                  isManual := request.isManual
                  smallestSnapshot := db.smallestSnapshot
                  input := input
                  work := Work.start compaction db.versions.nextFileNumber } }
            position := .merging }

/-- A turn of the loop of `DoCompactionWork`. The number of an output that it opens is
pending. -/
def turn (running : Running Key Value) (item : Item Key Value) (rest : List (Item Key Value)) :
    Option (FileManager Key Value) :=
  (manager.db.turn config running item rest).map fun db =>
    { manager with
      db := db
      pendingOutputs := manager.pendingOutputs ++
        List.range' manager.db.versions.nextFileNumber
          (db.versions.nextFileNumber - manager.db.versions.nextFileNumber) }

end

def removeFile (manager : FileManager Key Value) : FileName → FileManager Key Value
  | .log number =>
      { manager with db := { manager.db with disk := { manager.db.disk with
          logs := manager.db.disk.logs.erase number } } }
  | .table number =>
      { manager with db := { manager.db with disk := { manager.db.disk with
          tables := manager.db.disk.tables.erase number } } }
  | .descriptor _ | .temp _ | .other => manager

/-- What the threads do. -/
inductive Action (Key Value : Type) [LinearOrder Key] where
  | write (updates : List (Update Key Value)) (outcome : WriteOutcome)
  | switchMemTable (outcome : SwitchOutcome)
  | refVersion
  | unrefVersion (id : Nat)
  | getSnapshot
  | releaseSnapshot (sequence : Nat)
  | startFlush
  | endBuild (built : Bool) (left : Option (List (Item Key Value)))
  | startCompaction (request : Request Key) (fault : Option (List (Item Key Value)))
  | turn
  | failCompaction
  | endCompaction
  | endLogging (written : Bool) (children : List FileName)
  | removeFile (removed : Bool)

/-- One step, if it is possible. The background thread starts nothing after an error, but a
compaction goes on flushing memtables. -/
def step [Inhabited Value] (config : Config Key Value) (manager : FileManager Key Value) :
    Action Key Value → Option (FileManager Key Value)
  | .write updates outcome =>
      if manager.bgError then none else some (manager.write updates outcome)
  | .switchMemTable outcome =>
      if manager.bgError || manager.db.imm.isSome then none
      else some (manager.switchMemTable outcome)
  | .refVersion =>
      some { manager with
        nodes := Node.ref manager.currentId manager.nodes
        readers := manager.currentId :: manager.readers }
  | .unrefVersion id =>
      if id ∈ manager.readers then
        some { manager with
          nodes := Node.unref id manager.nodes
          readers := manager.readers.erase id }
      else none
  | .getSnapshot =>
      some { manager with db := { manager.db with
        snapshots := manager.db.snapshots ++ [manager.db.versions.lastSequence] } }
  | .releaseSnapshot sequence =>
      some { manager with db := { manager.db with
        snapshots := manager.db.snapshots.erase sequence } }
  | .startFlush =>
      match manager.position, manager.db.imm with
      | .idle, some _ => if manager.bgError then none else some manager.startFlush
      | .merging, some _ => some manager.startFlush
      | _, _ => none
  | .endBuild built left =>
      match manager.position, manager.db.imm with
      | .building number base, some imm => some (manager.endBuild config number base imm built left)
      | _, _ => none
  | .startCompaction request fault =>
      match manager.position with
      | .idle =>
          if manager.bgError || manager.db.imm.isSome then none
          else manager.startCompaction config request fault
      | _ => none
  | .turn =>
      match manager.position, manager.db.running with
      | .merging, some running =>
          match running.input with
          | item :: rest => manager.turn config running item rest
          | [] => none
      | _, _ => none
  | .failCompaction =>
      match manager.position with
      | .merging => some { manager.cleanupCompaction with bgError := true }
      | _ => none
  | .endCompaction =>
      match manager.position, manager.db.running with
      | .merging, some running =>
          if running.input.isEmpty && !manager.inputFailed then
            some (manager.startLogging
              (installEdit config.format running.compaction running.work.finishOutput) .compaction)
          else none
      | _, _ => none
  | .endLogging written children =>
      match manager.position with
      | .logging edit purpose =>
          some ((manager.endLogging edit written).afterLogging written children purpose)
      | _ => none
  | .removeFile removed =>
      match manager.position with
      | .deleting (file :: rest) =>
          some ((if removed then manager.removeFile file else manager).deleteNext rest)
      | _ => none

/-- The state at the end of `DB::Open`, for a directory whose descriptor was recovered. The
logs that the descriptor did not need any more are taken as installed. -/
def created [Inhabited Value] (config : Config Key Value) (disk : Disk Key Value)
    (versions : VersionSet Key) : FileManager Key Value :=
  let recovered := recoverLogs config disk versions
  let ready := versions.afterLogs recovered
  let edit := ready.complete recovered.openEdit
  let applied := ready.apply edit
  { db :=
      { disk :=
          { manifest := some [versions.snapshotEdit config.comparatorName, edit]
            tables := recovered.tables
            logs := disk.logs.insert recovered.nextFileNumber [] }
        versions := applied
        mem := []
        imm := none
        logfileNumber := recovered.nextFileNumber
        snapshots := []
        running := none }
    nodes := [⟨0, applied.current, 1⟩]
    currentId := 0
    nextId := 1
    readers := []
    inputId := none
    inputFailed := false
    pendingOutputs := []
    manifestFileNumber := versions.nextFileNumber - 1
    bgError := false
    position := .idle
    installed := applied.current.items recovered.tables ++
      (disk.logs.keys.filter fun number => !versions.needsLog number).flatMap fun number =>
        ((disk.logs.lookup number).getD []).flatMap Batch.items
    failedWrites := []
    formerLogNumber := versions.logNumber }

/-- `DB::Open` up to the loop of `RemoveObsoleteFiles`. The number of the new log must not be
below that in the descriptor, which `LogAndApply` asserts. -/
def opened [Inhabited Value] (config : Config Key Value) (disk : Disk Key Value)
    (versions : VersionSet Key) (children : List FileName) : Option (FileManager Key Value) :=
  if versions.logNumber ≤ (recoverLogs config disk versions).nextFileNumber then
    some ((created config disk versions).removeObsoleteFiles children)
  else none

end FileManager

end CodeReading.Leveldb
