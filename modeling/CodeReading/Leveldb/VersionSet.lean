import CodeReading.Leveldb.VersionEdit

/-!
# The version set and its descriptor

The version set holds the current version and the counters. Every change goes through
`LogAndApply`: the edit is completed with the counters, appended to the descriptor (the
MANIFEST) and applied to the current version. Recovery replays the records of the
descriptor over the empty version.

A record stands for its encoding here. Status messages are those of the source, with
the parts of a two-part message joined as `Status` joins them.
-/

namespace CodeReading.Leveldb

variable {Key : Type} [LinearOrder Key]

/-- `VersionSet`. The number of the descriptor file itself is left out. -/
structure VersionSet (Key : Type) [LinearOrder Key] where
  current : Version Key
  compactPointer : Nat → Option (InternalKey Key)
  nextFileNumber : Nat
  lastSequence : Nat
  logNumber : Nat
  prevLogNumber : Nat

/-- The compaction pointers after an edit. -/
def applyPointers (edit : VersionEdit Key) (compactPointer : Nat → Option (InternalKey Key)) :
    Nat → Option (InternalKey Key) :=
  edit.compactPointers.foldl
    (fun pointers (level, key) => Function.update pointers level (some key)) compactPointer

/-- The numbers that `LogAndApply` sets in an edit. -/
def VersionSet.complete (versions : VersionSet Key) (edit : VersionEdit Key) : VersionEdit Key :=
  { edit with
    logNumber := some (edit.logNumber.getD versions.logNumber)
    prevLogNumber := some (edit.prevLogNumber.getD versions.prevLogNumber)
    nextFileNumber := some versions.nextFileNumber
    lastSequence := some versions.lastSequence }

/-- The version set after `LogAndApply` of an edit that it completed. -/
def VersionSet.apply (versions : VersionSet Key) (edit : VersionEdit Key) : VersionSet Key :=
  { versions with
    current := versions.current.applyEdit edit
    compactPointer := applyPointers edit versions.compactPointer
    logNumber := edit.logNumber.getD versions.logNumber
    prevLogNumber := edit.prevLogNumber.getD versions.prevLogNumber }

/-- The value that the last edit with the field set gave it. -/
def lastSet (field : VersionEdit Key → Option Nat) (edits : List (VersionEdit Key)) : Option Nat :=
  edits.foldl (fun last edit => (field edit).or last) none

section

variable (comparatorName : String)

/-- The comparator of the first edit that names another one. -/
def foreignComparator (edits : List (VersionEdit Key)) : Option String :=
  edits.findSome? fun edit => edit.comparator.filter fun name => decide (name ≠ comparatorName)

/-- `VersionSet::Recover`, on the records of the descriptor. The number that the last
record names as the next goes to the new descriptor. `MarkFileNumberUsed` has no effect
there, since the counter is set afterwards. -/
def VersionSet.recover (edits : List (VersionEdit Key)) : Except Status (VersionSet Key) :=
  match foreignComparator comparatorName edits, lastSet VersionEdit.nextFileNumber edits,
    lastSet VersionEdit.logNumber edits, lastSet VersionEdit.lastSequence edits with
  | some other, _, _, _ =>
      .error (.invalidArgument
        (other ++ " does not match existing comparator : " ++ comparatorName))
  | none, none, _, _ => .error (.corruption "no meta-nextfile entry in descriptor")
  | none, some _, none, _ => .error (.corruption "no meta-lognumber entry in descriptor")
  | none, some _, some _, none => .error (.corruption "no last-sequence-number entry in descriptor")
  | none, some nextFile, some logNumber, some lastSequence =>
      .ok
        { current := (replay edits).saveTo Version.empty
          compactPointer := edits.foldl (fun pointers edit => applyPointers edit pointers)
            fun _ => none
          nextFileNumber := nextFile + 1
          lastSequence := lastSequence
          logNumber := logNumber
          prevLogNumber := (lastSet VersionEdit.prevLogNumber edits).getD 0 }

def VersionSet.snapshotEdit (versions : VersionSet Key) : VersionEdit Key :=
  { (VersionEdit.empty : VersionEdit Key) with
    comparator := some comparatorName
    compactPointers := (List.range kNumLevels).filterMap fun level =>
      (versions.compactPointer level).map fun key => (level, key)
    newFiles := (List.range kNumLevels).flatMap fun level =>
      (versions.current.files level).map fun file => (level, file) }

def newDbEdit : VersionEdit Key :=
  { (VersionEdit.empty : VersionEdit Key) with
    comparator := some comparatorName
    logNumber := some 0
    nextFileNumber := some 2
    lastSequence := some 0 }

end

/-- `MarkFileNumberUsed`, as a function of the counter. -/
def markFileNumberUsed (nextFileNumber number : Nat) : Nat :=
  if nextFileNumber ≤ number then number + 1 else nextFileNumber

theorem markFileNumberUsed_past (nextFileNumber number : Nat) :
    nextFileNumber ≤ markFileNumberUsed nextFileNumber number ∧
      number < markFileNumberUsed nextFileNumber number := by
  by_cases reached : nextFileNumber ≤ number
  · rw [markFileNumberUsed, if_pos reached]
    omega
  · rw [markFileNumberUsed, if_neg reached]
    omega

/-- `AddLiveFiles` for one version: the numbers of its files. -/
def Version.numbers (version : Version Key) : List Nat :=
  (List.range kNumLevels).flatMap fun level => (version.files level).map FileMetaData.number

end CodeReading.Leveldb
