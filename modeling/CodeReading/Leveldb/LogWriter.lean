import CodeReading.Leveldb.LogFormat

/-!
# The log writer over a file that may fail

`addRecord` is the fragmentation loop of `Writer::AddRecord`, and
`emitPhysicalRecord` the header, payload and flush it sends to the file. The
block offset advances whether or not the bytes arrived, and the status of the
append that fills a trailer is discarded, exactly as in the source.

A file buffers what it accepts until a flush. Every call on it has a fate: it
succeeds, or it fails after some prefix of the bytes then pending has reached
the file, the rest being lost. A fixed sequence of fates describes the device for
a whole run; a run without failures is the sequence that always succeeds.
-/

namespace CodeReading.Leveldb.Log

/-- What the device does with one call. -/
inductive Fate where
  | succeed
  | fail (written : Nat)
deriving DecidableEq, Repr

def reliable : Nat → Fate := fun _ => .succeed

/-- A `WritableFile`: the bytes a reader would find, those accepted but not yet
written, and how many calls the device has served. -/
structure WritableFile where
  contents : Bytes
  pending : Bytes
  calls : Nat
deriving DecidableEq, Repr

/-- A file found with the given contents. -/
def WritableFile.holding (contents : Bytes) : WritableFile := ⟨contents, [], 0⟩

/-- `WritableFile::Append`. A failure writes a prefix of what was pending
together with the new data and drops the rest. -/
def WritableFile.append (fate : Nat → Fate) (file : WritableFile) (data : Bytes) :
    Status × WritableFile :=
  match fate file.calls with
  | .succeed => (.ok, ⟨file.contents, file.pending ++ data, file.calls + 1⟩)
  | .fail written =>
      (.ioError "Append",
        ⟨file.contents ++ (file.pending ++ data).take written, [], file.calls + 1⟩)

/-- `WritableFile::Flush`. A failure writes a prefix of what was pending. -/
def WritableFile.flush (fate : Nat → Fate) (file : WritableFile) : Status × WritableFile :=
  match fate file.calls with
  | .succeed => (.ok, ⟨file.contents ++ file.pending, [], file.calls + 1⟩)
  | .fail written =>
      (.ioError "Flush", ⟨file.contents ++ file.pending.take written, [], file.calls + 1⟩)

/-- `log::Writer`: the destination and the current offset in its block. -/
structure Writer where
  dest : WritableFile
  blockOffset : Nat
deriving DecidableEq, Repr

/-- `Writer(dest)`: the destination is initially empty. -/
def Writer.create (dest : WritableFile) : Writer := ⟨dest, 0⟩

def Writer.reopen (dest : WritableFile) (destLength : Nat) : Writer :=
  ⟨dest, destLength % kBlockSize⟩

section

variable (fate : Nat → Fate) (writer : Writer)

/-- `EmitPhysicalRecord`. The offset moves on also when a call failed. -/
def emitPhysicalRecord (type : RecordType) (payload : Bytes) : Status × Writer :=
  let blockOffset := writer.blockOffset + kHeaderSize + payload.length
  match writer.dest.append fate (header type payload) with
  | (.ok, dest) =>
      match dest.append fate payload with
      | (.ok, dest) =>
          let (status, dest) := dest.flush fate
          (status, ⟨dest, blockOffset⟩)
      | (status, dest) => (status, ⟨dest, blockOffset⟩)
  | (status, dest) => (status, ⟨dest, blockOffset⟩)

/-- The head of the fragmentation loop: when no header fits, fill the trailer
and switch to a new block. The status of that append is not looked at. -/
def Writer.switchBlock : Writer :=
  let leftover := kBlockSize - writer.blockOffset
  if leftover < kHeaderSize then
    let dest := if 0 < leftover then
        (writer.dest.append fate (List.replicate leftover 0)).2
      else writer.dest
    ⟨dest, 0⟩
  else writer

/-- The type of a fragment, from its being the first and the last of its record. -/
def fragmentType (first last : Bool) : RecordType :=
  if first && last then .fullType
  else if first then .firstType
  else if last then .lastType
  else .middleType

theorem switchBlock_offset : (writer.switchBlock fate).blockOffset = slot writer.blockOffset := by
  by_cases short : kBlockSize - writer.blockOffset < kHeaderSize <;>
    simp [Writer.switchBlock, slot, short]

theorem emitPhysicalRecord_offset (type : RecordType) (payload : Bytes) :
    (emitPhysicalRecord fate writer type payload).2.blockOffset =
      writer.blockOffset + kHeaderSize + payload.length := by
  unfold emitPhysicalRecord
  split
  · split <;> rfl
  · rfl

end

/-- The `do ... while (s.ok() && left > 0)` loop of `AddRecord`. An iteration
that finds exactly a header's worth of room emits an empty fragment, and the
next one starts a fresh block, so the bytes left strictly decrease every second
time at the latest. -/
def addRecordLoop (fate : Nat → Fate) (writer : Writer) (first : Bool) (left : Bytes) :
    Status × Writer :=
  let switched := writer.switchBlock fate
  let avail := kBlockSize - switched.blockOffset - kHeaderSize
  let fragmentLength := if left.length < avail then left.length else avail
  let last := decide (left.length = fragmentLength)
  let emitted := emitPhysicalRecord fate switched (fragmentType first last)
    (left.take fragmentLength)
  let rest := left.drop fragmentLength
  if emitted.1 = .ok ∧ 0 < rest.length then addRecordLoop fate emitted.2 false rest
  else emitted
termination_by 2 * left.length + (if slot writer.blockOffset + kHeaderSize = kBlockSize then 1 else 0)
decreasing_by
  have room := slot_room writer.blockOffset
  have offset : emitted.2.blockOffset = slot writer.blockOffset + kHeaderSize +
      (left.take fragmentLength).length := by
    simp [emitted, emitPhysicalRecord_offset, switched, switchBlock_offset]
  have remaining : 0 < rest.length := by tauto
  have shorter : avail < left.length := by
    by_contra long
    have whole : fragmentLength = left.length := by
      simp only [fragmentLength]
      split <;> omega
    simp [rest, whole] at remaining
  have cut : fragmentLength = avail := by
    simp only [fragmentLength]
    split <;> omega
  have restLength : rest.length = left.length - avail := by simp [rest, cut]
  have availIs : avail = kBlockSize - slot writer.blockOffset - kHeaderSize := by
    simp [avail, switched, switchBlock_offset]
  have takeLength : (left.take fragmentLength).length = avail := by
    rw [List.length_take, cut]
    omega
  have full : emitted.2.blockOffset = kBlockSize := by omega
  have next : slot emitted.2.blockOffset = 0 := by
    rw [full]
    decide
  have unaligned : ¬ 0 + kHeaderSize = kBlockSize := by decide
  rw [restLength, next, if_neg unaligned]
  by_cases exact : slot writer.blockOffset + kHeaderSize = kBlockSize
  · rw [if_pos exact]
    omega
  · omega

def addRecord (fate : Nat → Fate) (writer : Writer) (slice : Bytes) : Status × Writer :=
  addRecordLoop fate writer true slice

/-- A sequence of `AddRecord` calls on one writer, with the status of each. -/
def addRecords (fate : Nat → Fate) : Writer → List Bytes → List Status × Writer
  | writer, [] => ([], writer)
  | writer, slice :: rest =>
      let (status, writer) := addRecord fate writer slice
      let (statuses, writer) := addRecords fate writer rest
      (status :: statuses, writer)

end CodeReading.Leveldb.Log
