import CodeReading.Leveldb.LogFormat

/-!
# The log reader

`readPhysicalRecord` and `readRecord` follow `Reader::ReadPhysicalRecord` and
`Reader::ReadRecord`, with every branch that drops, skips or resynchronizes. The
type byte of a header and the codes `kEof` and `kBadRecord` share one integer
domain, as in the source: a byte from the file is returned as it was read, after
the sign extension of `char`. Reports to the reporter accumulate in `drops`.
-/

namespace CodeReading.Leveldb.Log

open List.Subset

/-- `SequentialFile`: the bytes not yet read, and the error every call returns
once the file is broken. -/
structure SequentialFile where
  rest : Bytes
  error : Option Status
deriving DecidableEq, Repr

/-- `SequentialFile::Read`: up to `count` bytes, fewer only at the end. -/
def SequentialFile.read (file : SequentialFile) (count : Nat) :
    Except Status (Bytes × SequentialFile) :=
  match file.error with
  | some status => .error status
  | none => .ok (file.rest.take count, { file with rest := file.rest.drop count })

/-- `SequentialFile::Skip`: stops at the end of the file without an error. -/
def SequentialFile.skip (file : SequentialFile) (count : Nat) : Except Status SequentialFile :=
  match file.error with
  | some status => .error status
  | none => .ok { file with rest := file.rest.drop count }

def kEof : Nat := kMaxRecordType + 1

def kBadRecord : Nat := kMaxRecordType + 2

/-- Subtraction of `uint64_t` values. -/
def sub64 (left right : Nat) : Nat := (left + (2 ^ 64 - right % 2 ^ 64)) % 2 ^ 64

structure Reader where
  file : SequentialFile
  checksum : Bool
  buffer : Bytes
  eof : Bool
  lastRecordOffset : Nat
  endOfBufferOffset : Nat
  initialOffset : Nat
  resyncing : Bool
  drops : List (Nat × Status)
deriving DecidableEq, Repr

open Reader

def Reader.create (contents : Bytes) (checksum : Bool) (initialOffset : Nat) : Reader where
  file := ⟨contents, none⟩
  checksum := checksum
  buffer := []
  eof := false
  lastRecordOffset := 0
  endOfBufferOffset := 0
  initialOffset := initialOffset
  resyncing := decide (0 < initialOffset)
  drops := []

/-- `ReportDrop`: drops that end before the initial offset are not reported. -/
def Reader.reportDrop (reader : Reader) (bytes : Nat) (reason : Status) : Reader :=
  if reader.initialOffset ≤
      sub64 (sub64 reader.endOfBufferOffset reader.buffer.length) bytes then
    { reader with drops := reader.drops ++ [(bytes, reason)] }
  else reader

def Reader.reportCorruption (reader : Reader) (bytes : Nat) (reason : String) : Reader :=
  reader.reportDrop bytes (.corruption reason)

/-- The block in which the search for the initial offset begins. An offset in a
trailer cannot be the start of a record of its block. -/
def initialBlockStart (initialOffset : Nat) : Nat :=
  let offsetInBlock := initialOffset % kBlockSize
  let blockStart := initialOffset - offsetInBlock
  if kBlockSize - 6 < offsetInBlock then blockStart + kBlockSize else blockStart

/-- `SkipToInitialBlock`; the Boolean is its result. -/
def Reader.skipToInitialBlock (reader : Reader) : Bool × Reader :=
  let blockStart := initialBlockStart reader.initialOffset
  let reader := { reader with endOfBufferOffset := blockStart }
  if 0 < blockStart then
    match reader.file.skip blockStart with
    | .error status => (false, reader.reportDrop blockStart status)
    | .ok file => (true, { reader with file := file })
  else (true, reader)

/-- A header byte as the `unsigned int` it is converted to: `char` is signed. -/
def signExtend (byte : UInt8) : Nat :=
  if byte.toNat < 128 then byte.toNat else 2 ^ 32 - 256 + byte.toNat

def headerLength (header : Bytes) : Nat :=
  (header.getD 4 0).toNat + 256 * (header.getD 5 0).toNat

/-- The part of `ReadPhysicalRecord` below the refill: the buffer holds a whole
header. Returns the type or control code, the payload, and the new state. -/
def Reader.parsePhysicalRecord (reader : Reader) : Nat × Bytes × Reader :=
  let length := headerLength reader.buffer
  let type := signExtend (reader.buffer.getD 6 0)
  let cleared := { reader with buffer := [] }
  if reader.buffer.length < kHeaderSize + length then
    if !reader.eof then
      (kBadRecord, [], cleared.reportCorruption reader.buffer.length "bad record length")
    else
      -- The writer died in the middle of the record; not a corruption.
      (kEof, [], cleared)
  else if type = RecordType.zeroType.code ∧ length = 0 then
    -- Zero-length records come from preallocated file regions.
    (kBadRecord, [], cleared)
  else if reader.checksum = true ∧
      Crc32c.value ((reader.buffer.drop 6).take (1 + length)) ≠
        Crc32c.unmask (decodeFixed32 reader.buffer) then
    -- The length itself may be corrupt, so the rest of the block goes too.
    (kBadRecord, [], cleared.reportCorruption reader.buffer.length "checksum mismatch")
  else
    let payload := (reader.buffer.drop kHeaderSize).take length
    let reader := { reader with buffer := reader.buffer.drop (kHeaderSize + length) }
    if sub64 (sub64 (sub64 reader.endOfBufferOffset reader.buffer.length) kHeaderSize) length <
        reader.initialOffset then
      (kBadRecord, [], reader)
    else (type, payload, reader)

/-- `ReadPhysicalRecord`. A short read marks the end of the file, and a full one
leaves a header in the buffer, so the loop goes round at most twice. -/
def Reader.readPhysicalRecord (reader : Reader) : Nat × Bytes × Reader :=
  if reader.buffer.length < kHeaderSize then
    if reader.eof then (kEof, [], { reader with buffer := [] })
    else
      -- The last read was a full read, so what is left is a trailer to skip.
      match reader.file.read kBlockSize with
      | .error status =>
          (kEof, [], { ({ reader with buffer := [] } : Reader).reportDrop kBlockSize status with
            eof := true })
      | .ok (data, file) =>
          Reader.readPhysicalRecord { reader with
            file := file
            buffer := data
            endOfBufferOffset := reader.endOfBufferOffset + data.length
            eof := decide (data.length < kBlockSize) }
  else reader.parsePhysicalRecord
termination_by (if reader.eof then 0 else 1) + (if reader.buffer.length < kHeaderSize then 1 else 0)
decreasing_by
  have unread : ¬ reader.eof = true := by assumption
  have low : reader.buffer.length < kHeaderSize := by assumption
  by_cases short : data.length < kBlockSize
  · simp only [short, decide_true, if_true, if_neg unread, if_pos low]
    split <;> omega
  · have whole : ¬ data.length < kHeaderSize := by
      simp only [kBlockSize, kHeaderSize] at *
      omega
    simp [short, whole, unread, low]

/-- Bytes the reader has still in front of it. -/
def Reader.remaining (reader : Reader) : Nat := reader.file.rest.length + reader.buffer.length

theorem reportDrop_eq (reader : Reader) (bytes : Nat) (reason : Status) :
    ∃ drops, reader.drops ⊆ drops ∧
      reader.reportDrop bytes reason = { reader with drops := drops } := by
  unfold reportDrop
  split
  · exact ⟨_, List.subset_append_left _ _, rfl⟩
  · exact ⟨reader.drops, refl _, rfl⟩

@[simp] theorem reportDrop_remaining (reader : Reader) (bytes : Nat) (reason : Status) :
    (reader.reportDrop bytes reason).remaining = reader.remaining := by
  obtain ⟨drops, _, same⟩ := reportDrop_eq reader bytes reason
  rw [same]
  rfl

@[simp] theorem reportCorruption_remaining (reader : Reader) (bytes : Nat) (reason : String) :
    (reader.reportCorruption bytes reason).remaining = reader.remaining :=
  reportDrop_remaining reader bytes (.corruption reason)

variable {reader : Reader}

/-- A header is parsed only when its seven bytes are in the buffer, and whatever
the answer they are gone afterwards. -/
theorem parsePhysicalRecord_remaining (filled : kHeaderSize ≤ reader.buffer.length) :
    reader.parsePhysicalRecord.2.2.remaining < reader.remaining := by
  have positive : 0 < reader.buffer.length := Nat.lt_of_lt_of_le (by decide) filled
  have cleared : ({ reader with buffer := [] } : Reader).remaining < reader.remaining := by
    simp [remaining, positive]
  unfold parsePhysicalRecord
  simp only
  split
  · split
    · simpa only [reportCorruption_remaining] using cleared
    · exact cleared
  split
  · exact cleared
  split
  · simpa only [reportCorruption_remaining] using cleared
  split <;>
    simp only [remaining, List.length_drop] <;>
    simp only [kHeaderSize] at * <;> omega

/-- Every answer but `kEof` uses bytes up, so a loop over physical records ends. -/
theorem readPhysicalRecord_remaining (reader : Reader)
    (running : reader.readPhysicalRecord.1 ≠ kEof) :
    reader.readPhysicalRecord.2.2.remaining < reader.remaining := by
  fun_induction readPhysicalRecord reader with
  | case1 _ _ _ | case2 _ _ _ _ _ => exact absurd rfl running
  | case3 reader low unread data file answered ih =>
    have split : file.rest.length + data.length = reader.file.rest.length := by
      unfold SequentialFile.read at answered
      cases error : reader.file.error with
      | some status => simp [error] at answered
      | none =>
        simp only [error, Except.ok.injEq, Prod.mk.injEq] at answered
        obtain ⟨rfl, rfl⟩ := answered
        simp only [List.length_take, List.length_drop]
        omega
    simp only [remaining] at *
    omega
  | case4 reader filled => exact parsePhysicalRecord_remaining (by omega)

/-- The local variables of `ReadRecord`. -/
structure Assembly where
  scratch : Bytes
  inFragmentedRecord : Bool
  prospectiveRecordOffset : Nat
deriving DecidableEq, Repr

/-- What one turn of the `ReadRecord` loop decides: return, or go round again. -/
inductive Turn where
  | done (record : Option Bytes)
  | again (assembly : Assembly)
deriving DecidableEq, Repr

section

variable (reader : Reader) (assembly : Assembly)

/-- The `switch` of `ReadRecord` on an answer of `readPhysicalRecord` which left
the reader in the given state. -/
def Reader.dispatch (recordType : Nat) (fragment : Bytes) : Turn × Reader :=
  let physicalRecordOffset := sub64 (sub64 (sub64 reader.endOfBufferOffset reader.buffer.length)
    kHeaderSize) fragment.length
  let unfinished := decide (assembly.inFragmentedRecord = true ∧ assembly.scratch ≠ [])
  if recordType = RecordType.fullType.code then
    -- Earlier writers could leave an empty first fragment at the end of a block.
    let reader := if unfinished then
        reader.reportCorruption assembly.scratch.length "partial record without end(1)"
      else reader
    (.done (some fragment), { reader with lastRecordOffset := physicalRecordOffset })
  else if recordType = RecordType.firstType.code then
    let reader := if unfinished then
        reader.reportCorruption assembly.scratch.length "partial record without end(2)"
      else reader
    (.again ⟨fragment, true, physicalRecordOffset⟩, reader)
  else if recordType = RecordType.middleType.code then
    if assembly.inFragmentedRecord then
      (.again { assembly with scratch := assembly.scratch ++ fragment }, reader)
    else
      (.again assembly,
        reader.reportCorruption fragment.length "missing start of fragmented record(1)")
  else if recordType = RecordType.lastType.code then
    if assembly.inFragmentedRecord then
      (.done (some (assembly.scratch ++ fragment)),
        { reader with lastRecordOffset := assembly.prospectiveRecordOffset })
    else
      (.again assembly,
        reader.reportCorruption fragment.length "missing start of fragmented record(2)")
  else if recordType = kEof then
    -- A record cut short by a dying writer is ignored, not a corruption.
    (.done none, reader)
  else if recordType = kBadRecord then
    if assembly.inFragmentedRecord then
      (.again { assembly with scratch := [], inFragmentedRecord := false },
        reader.reportCorruption assembly.scratch.length "error in middle of record")
    else (.again assembly, reader)
  else
    (.again { assembly with scratch := [], inFragmentedRecord := false }, reader.reportCorruption
        (fragment.length + if assembly.inFragmentedRecord then assembly.scratch.length else 0)
        ("unknown record type " ++ toString recordType))

/-- One turn: read a physical record, skip it silently while resynchronizing,
else dispatch on it. -/
def Reader.turn : Turn × Reader :=
  let (recordType, fragment, reader) := reader.readPhysicalRecord
  if reader.resyncing = true ∧ recordType = RecordType.middleType.code then
    (.again assembly, reader)
  else if reader.resyncing = true ∧ recordType = RecordType.lastType.code then
    (.again assembly, { reader with resyncing := false })
  else { reader with resyncing := false }.dispatch assembly recordType fragment

/-- Dispatching reads nothing: it adds reports, and notes where a returned record
began. -/
theorem dispatch_frame (recordType : Nat) (fragment : Bytes) :
    ∃ drops offset, reader.drops ⊆ drops ∧ (reader.dispatch assembly recordType fragment).2 =
      { reader with drops := drops, lastRecordOffset := offset } := by
  have reported (bytes : Nat) (reason : String) :
      ∃ drops, reader.drops ⊆ drops ∧
        reader.reportCorruption bytes reason = { reader with drops := drops } :=
    reportDrop_eq reader bytes (.corruption reason)
  have untouched : ∃ drops offset, reader.drops ⊆ drops ∧ reader =
      { reader with drops := drops, lastRecordOffset := offset } :=
    ⟨reader.drops, reader.lastRecordOffset, refl _, rfl⟩
  have noted (bytes : Nat) (reason : String) : ∃ drops offset, reader.drops ⊆ drops ∧
      reader.reportCorruption bytes reason =
        { reader with drops := drops, lastRecordOffset := offset } := by
    obtain ⟨drops, more, same⟩ := reported bytes reason
    exact ⟨drops, reader.lastRecordOffset, more, same⟩
  unfold dispatch
  simp only
  split
  · split
    · obtain ⟨drops, more, same⟩ :=
        reported assembly.scratch.length "partial record without end(1)"
      rw [same]
      exact ⟨drops, _, more, rfl⟩
    · exact ⟨reader.drops, _, refl _, rfl⟩
  split
  · split
    · exact noted _ _
    · exact untouched
  split
  · split
    · exact untouched
    · exact noted _ _
  split
  · split
    · exact ⟨reader.drops, _, refl _, rfl⟩
    · exact noted _ _
  split
  · exact untouched
  split
  · split
    · exact noted _ _
    · exact untouched
  · exact noted _ _

theorem dispatch_remaining (recordType : Nat) (fragment : Bytes) :
    (reader.dispatch assembly recordType fragment).2.remaining = reader.remaining := by
  obtain ⟨_, _, _, same⟩ := dispatch_frame reader assembly recordType fragment
  rw [same]
  rfl

theorem turn_remaining (running : (reader.turn assembly).1 ≠ .done none) :
    (reader.turn assembly).2.remaining < reader.remaining := by
  have shrinks := readPhysicalRecord_remaining reader
  unfold turn at *
  generalize reader.readPhysicalRecord = answer at *
  obtain ⟨recordType, _, _⟩ := answer
  simp only at running shrinks ⊢
  by_cases ended : recordType = kEof
  · subst ended
    simp [kEof, kMaxRecordType, RecordType.code, dispatch] at running
  · have used := shrinks ended
    split
    · exact used
    split
    · exact used
    · rw [dispatch_remaining]
      exact used

end

/-- The `while (true)` loop of `ReadRecord`. -/
def Reader.readRecordLoop (reader : Reader) (assembly : Assembly) : Option Bytes × Reader :=
  match _taken : reader.turn assembly with
  | (.done record, next) => (record, next)
  | (.again assembly', next) => next.readRecordLoop assembly'
termination_by reader.remaining
decreasing_by
  have shrinks := turn_remaining reader assembly (by rw [_taken]; exact Turn.noConfusion)
  rwa [_taken] at shrinks

/-- The assembly every call of `ReadRecord` starts with. -/
def Assembly.start : Assembly := ⟨[], false, 0⟩

def Reader.readRecord (reader : Reader) : Option Bytes × Reader :=
  if reader.lastRecordOffset < reader.initialOffset then
    match reader.skipToInitialBlock with
    | (false, reader) => (none, reader)
    | (true, reader) => reader.readRecordLoop .start
  else reader.readRecordLoop .start

/-- A record is returned only after its bytes were read. -/
theorem readRecordLoop_remaining {assembly : Assembly}
    (returned : (reader.readRecordLoop assembly).1 ≠ none) :
    (reader.readRecordLoop assembly).2.remaining < reader.remaining := by
  fun_induction readRecordLoop reader assembly with
  | case1 reader assembly record next taken =>
    have running : (reader.turn assembly).1 ≠ .done none := by
      rw [taken]
      intro same
      exact returned (Turn.done.inj same)
    have shrinks := turn_remaining reader assembly running
    rwa [taken] at shrinks
  | case2 reader assembly assembly' next taken ih =>
    have shrinks := turn_remaining reader assembly (by rw [taken]; exact Turn.noConfusion)
    rw [taken] at shrinks
    exact Nat.lt_trans (ih returned) shrinks

theorem skipToInitialBlock_remaining (reader : Reader) :
    reader.skipToInitialBlock.2.remaining ≤ reader.remaining := by
  unfold skipToInitialBlock
  simp only
  split
  · unfold SequentialFile.skip
    cases reader.file.error with
    | some status =>
      rw [reportDrop_remaining]
      exact Nat.le_refl _
    | none => simp [remaining]
  · exact Nat.le_refl _

theorem readRecord_remaining (returned : reader.readRecord.1 ≠ none) :
    reader.readRecord.2.remaining < reader.remaining := by
  unfold readRecord at *
  split at returned
  next early =>
    rw [if_pos early]
    have skipped := skipToInitialBlock_remaining reader
    generalize reader.skipToInitialBlock = outcome at *
    obtain ⟨succeeded, next⟩ := outcome
    cases succeeded with
    | false => exact absurd rfl returned
    | true => exact Nat.lt_of_lt_of_le (readRecordLoop_remaining returned) skipped
  next late =>
    rw [if_neg late]
    exact readRecordLoop_remaining returned

/-- `while (reader.ReadRecord(&record, &scratch))`: every client drains a log so. -/
def Reader.readAll (reader : Reader) : List Bytes × Reader :=
  match _answer : reader.readRecord with
  | (none, next) => ([], next)
  | (some record, next) =>
      let (records, final) := next.readAll
      (record :: records, final)
termination_by reader.remaining
decreasing_by
  have shrinks := readRecord_remaining (by rw [_answer]; exact Option.some_ne_none record)
  rwa [_answer] at shrinks

end CodeReading.Leveldb.Log
