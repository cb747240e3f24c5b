import CodeReading.Leveldb.LogReader

/-!
# Reading a laid out sequence of fragments

`Positioned` ties the reader's buffer, its file and its end-of-file flag to one
stream of unread bytes and a block offset. Over a stream that begins with a
`layout`, physical reads return exactly its fragments and leave the reader
positioned behind them, whatever bytes follow. `assemble` says which records the
fragments form; `drain` is `ReadRecord` called until it fails, seen turn by turn,
so that one step lemma serves complete logs, torn logs and logs with abandoned
records alike.
-/

namespace CodeReading.Leveldb.Log

open List Reader List.Subset RecordType

/-- The reader stands at `offset` of a block and `stream` is everything unread.
Only a read that came back short has set the end-of-file flag. -/
structure Positioned (reader : Reader) (offset : Nat) (stream : Bytes) : Prop where
  inside : offset ≤ kBlockSize
  buffer : reader.buffer = stream.take (kBlockSize - offset)
  rest : reader.file.rest = stream.drop (kBlockSize - offset)
  eof : reader.eof = decide (stream.length < kBlockSize - offset)
  unbroken : reader.file.error = none
  fromStart : reader.initialOffset = 0
  synced : reader.resyncing = false
  verifying : reader.checksum = true

/-- A new reader has read nothing: it stands at the end of an imaginary block. -/
theorem create_positioned (contents : Bytes) :
    Positioned (create contents true 0) kBlockSize contents where
  inside := Nat.le_refl _
  buffer := by simp [create]
  rest := by simp [create]
  eof := by simp [create]
  unbroken := rfl
  fromStart := rfl
  synced := rfl
  verifying := rfl

variable {reader : Reader}

theorem reportCorruption_fromStart
    (fromStart : reader.initialOffset = 0) : reader.reportCorruption bytes reason =
      { reader with drops := reader.drops ++ [(bytes, .corruption reason)] } := by
  simp [reportCorruption, reportDrop, fromStart]

variable {byte : UInt8} {payload : Bytes}

/-- The three header fields are recovered from the bytes of a header. -/
theorem headerLength_stamped (short : payload.length < 65536) :
    headerLength (stamped byte payload ++ rest) = payload.length := by
  have high : payload.length / 256 < 256 := by omega
  simp [headerLength, stamped, encodeFixed32, Nat.mod_eq_of_lt high]
  omega

theorem signExtend_byte (type : RecordType) : signExtend type.byte = type.code := by
  cases type <;> decide

theorem stamped_checksum (byte : UInt8) (payload rest : Bytes) :
    Crc32c.unmask (decodeFixed32 (stamped byte payload ++ rest)) =
      Crc32c.value (byte :: payload) := by
  rw [stamped, append_assoc, decodeFixed32_encodeFixed32, Crc32c.unmask_mask, Crc32c.extend_value]
  rfl

theorem stamped_checked (byte : UInt8) (payload body : Bytes) (count : Nat) :
    ((stamped byte payload ++ body).drop 6).take (1 + count) = byte :: body.take count := by
  simp [stamped, encodeFixed32, Nat.add_comm 1]

/-- A whole physical record at the head of the buffer is returned as it was
written, and only it is removed, unless it starts in front of the initial offset.
An empty record of the reserved zero type is the one exception; the writer has no
such records. -/
theorem parsePhysicalRecord_stamped {tail : Bytes}
    (buffered : reader.buffer = stamped byte payload ++ (payload ++ tail))
    (short : payload.length < 65536)
    (real : ¬ (signExtend byte = zeroType.code ∧ payload.length = 0)) :
    reader.parsePhysicalRecord =
      if sub64 (sub64 (sub64 reader.endOfBufferOffset tail.length) kHeaderSize) payload.length <
          reader.initialOffset then (kBadRecord, [], { reader with buffer := tail })
      else (signExtend byte, payload, { reader with buffer := tail }) := by
  have length : headerLength reader.buffer = payload.length := by
    rw [buffered, headerLength_stamped short]
  have type : reader.buffer.getD 6 0 = byte := by
    rw [buffered]
    rfl
  have stored : Crc32c.unmask (decodeFixed32 reader.buffer) = Crc32c.value (byte :: payload) := by
    rw [buffered, stamped_checksum]
  have checked : (reader.buffer.drop 6).take (1 + payload.length) = byte :: payload := by
    rw [buffered, stamped_checked, take_left]
  have headed : (stamped byte payload).length = kHeaderSize := rfl
  have whole : ¬ reader.buffer.length < kHeaderSize + payload.length := by
    rw [buffered, length_append, length_append, headed]
    omega
  have content : (reader.buffer.drop kHeaderSize).take payload.length = payload := by
    rw [buffered, ← headed, drop_left, take_left]
  have remainder : reader.buffer.drop (kHeaderSize + payload.length) = tail := by
    rw [buffered, ← append_assoc, ← headed, ← length_append, drop_left]
  simp only [parsePhysicalRecord, length, type, stored, checked, content, remainder]
  rw [if_neg whole, if_neg real, if_neg (by simp)]

variable {stream : Bytes}

/-- What the reader has in front of it in its block, and where it stands behind that. -/
theorem Positioned.behind (positioned : Positioned reader offset (bytes ++ stream))
    (fits : offset + bytes.length ≤ kBlockSize) :
    reader.buffer = bytes ++ stream.take (kBlockSize - (offset + bytes.length)) ∧
      Positioned { reader with buffer := stream.take (kBlockSize - (offset + bytes.length)) }
        (offset + bytes.length) stream := by
  refine ⟨?_, fits, rfl, ?_, ?_, positioned.unbroken, positioned.fromStart, positioned.synced,
    positioned.verifying⟩
  · rw [positioned.buffer, take_append, take_of_length_le (by omega), Nat.sub_sub]
  · simp only
    rw [positioned.rest, drop_append, drop_eq_nil_of_le (by omega), Nat.sub_sub, nil_append]
  · simp only [positioned.eof, length_append, decide_eq_decide]
    omega

/-- Read one physical record that lies at the reader's position inside its block. -/
theorem read_stamped
    (positioned : Positioned reader offset (stamped byte payload ++ payload ++ stream))
    (fits : offset + (kHeaderSize + payload.length) ≤ kBlockSize)
    (real : ¬ (signExtend byte = zeroType.code ∧ payload.length = 0)) :
    ∃ next, reader.readPhysicalRecord = (signExtend byte, payload, next) ∧
      Positioned next (offset + (kHeaderSize + payload.length)) stream ∧
      next.drops = reader.drops := by
  have length : (stamped byte payload ++ payload).length = kHeaderSize + payload.length := by
    rw [length_append]
    rfl
  rw [← length] at fits ⊢
  obtain ⟨buffered, behind⟩ := positioned.behind fits
  have filled : ¬ reader.buffer.length < kHeaderSize := by
    rw [buffered, length_append, length]
    omega
  have short : payload.length < 65536 := by
    simp only [kBlockSize] at fits
    omega
  refine ⟨_, ?_, behind, rfl⟩
  rw [append_assoc] at buffered
  rw [readPhysicalRecord, if_neg filled, parsePhysicalRecord_stamped buffered short real,
    if_neg (by simp [positioned.fromStart])]

variable {fragment : Fragment}

theorem code_ne_zero (real : fragment.type ≠ .zeroType) : fragment.type.code ≠ zeroType.code := by
  intro _
  apply real
  cases kind : fragment.type <;> simp_all [code]

theorem read_fragment (positioned : Positioned reader offset (fragment.bytes ++ stream))
    (fits : offset + fragment.size ≤ kBlockSize) (real : fragment.type ≠ .zeroType) :
    ∃ next, reader.readPhysicalRecord = (fragment.type.code, fragment.payload, next) ∧
      Positioned next (offset + fragment.size) stream ∧ next.drops = reader.drops := by
  rw [← signExtend_byte]
  refine read_stamped positioned fits fun zero => code_ne_zero real ?_
  rw [← signExtend_byte]
  exact zero.1

/-- No header can follow in the buffered block, and `stream` begins with the next. -/
structure Between (reader : Reader) (stream : Bytes) : Prop where
  low : reader.buffer.length < kHeaderSize
  rest : reader.file.rest = stream
  unread : reader.eof = false
  unbroken : reader.file.error = none
  fromStart : reader.initialOffset = 0
  synced : reader.resyncing = false
  verifying : reader.checksum = true

/-- There the next physical read starts with the next block, and what was left of
the old one is passed over. -/
theorem read_between (between : Between reader stream) :
    ∃ next, reader.readPhysicalRecord = next.readPhysicalRecord ∧
      Positioned next 0 stream ∧ next.drops = reader.drops := by
  refine ⟨{ reader with
    file := { reader.file with rest := stream.drop kBlockSize }
    buffer := stream.take kBlockSize
    endOfBufferOffset := reader.endOfBufferOffset + (stream.take kBlockSize).length
    eof := decide ((stream.take kBlockSize).length < kBlockSize) }, ?_, ?_, rfl⟩
  · conv_lhs => rw [readPhysicalRecord]
    simp [between.low, between.unread, SequentialFile.read, between.unbroken, between.rest]
  · refine { between with inside := Nat.zero_le _, buffer := by simp, rest := by simp, eof := ?_ }
    simp only [length_take, Nat.sub_zero, decide_eq_decide]
    omega

theorem read_nextBlock (reader : Reader) (offset : Nat) (skipped stream : Bytes)
    (positioned : Positioned reader offset (skipped ++ stream))
    (low : kBlockSize - offset < kHeaderSize) (length : skipped.length = kBlockSize - offset) :
    ∃ next, reader.readPhysicalRecord = next.readPhysicalRecord ∧
      Positioned next 0 stream ∧ next.drops = reader.drops := by
  have buffered : reader.buffer = skipped := by
    rw [positioned.buffer, ← length, take_left]
  refine read_between { positioned with low := ?_, rest := ?_, unread := ?_ }
  · rw [buffered, length]
    exact low
  · rw [positioned.rest, ← length, drop_left]
  · rw [positioned.eof, decide_eq_false_iff_not]
    simp [length]

/-- Across an optional trailer, the reader moves to the slot of the next record. -/
theorem read_slot (positioned : Positioned reader offset (trailer offset ++ stream)) :
    ∃ next, reader.readPhysicalRecord = next.readPhysicalRecord ∧
      Positioned next (slot offset) stream ∧ next.drops = reader.drops := by
  by_cases low : kBlockSize - offset < kHeaderSize
  · have length : (trailer offset).length = kBlockSize - offset := by simp [trailer, low]
    obtain ⟨next, same, moved, kept⟩ :=
      read_nextBlock reader offset (trailer offset) stream positioned low length
    exact ⟨next, same, by simpa [slot, low] using moved, kept⟩
  · refine ⟨reader, rfl, ?_, rfl⟩
    simpa [slot, trailer, low] using positioned

/-- What one fragment does to a record under construction: the record it
completes, if any, and what remains under construction. Fragments that continue
a record nobody started are dropped. -/
def absorb (pending : Option Bytes) (fragment : Fragment) : Option Bytes × Option Bytes :=
  match fragment.type, pending with
  | .fullType, _ => (some fragment.payload, none)
  | .firstType, _ => (none, some fragment.payload)
  | .middleType, some scratch => (none, some (scratch ++ fragment.payload))
  | .lastType, some scratch => (some (scratch ++ fragment.payload), none)
  | _, _ => (none, none)

/-- The records a sequence of fragments forms, and what it leaves unfinished. -/
def assemble : Option Bytes → List Fragment → List Bytes × Option Bytes
  | pending, [] => ([], pending)
  | pending, fragment :: rest =>
      let later := assemble (absorb pending fragment).2 rest
      ((absorb pending fragment).1.toList ++ later.1, later.2)

/-- The fragments continue each other properly: nothing non-empty is abandoned
and nothing is continued without a start. -/
def Proper : Option Bytes → List Fragment → Prop
  | _, [] => True
  | pending, fragment :: rest =>
      (match fragment.type with
        | .fullType | .firstType => pending = none ∨ pending = some []
        | .middleType | .lastType => pending ≠ none
        | .zeroType => False) ∧ Proper (absorb pending fragment).2 rest

theorem assemble_append (pending : Option Bytes) (left right : List Fragment) :
    assemble pending (left ++ right) =
      ((assemble pending left).1 ++ (assemble (assemble pending left).2 right).1,
        (assemble (assemble pending left).2 right).2) := by
  induction left generalizing pending with
  | nil => rfl
  | cons fragment rest ih => simp [assemble, ih]

theorem proper_append :
    Proper pending (left ++ right) ↔
      Proper pending left ∧ Proper (assemble pending left).2 right := by
  induction left generalizing pending with
  | nil => simp [Proper, assemble]
  | cons fragment rest ih => simp [Proper, assemble, ih, and_assoc]

/-- The record under construction in the reader's local variables. -/
def Assembly.pending (assembly : Assembly) : Option Bytes :=
  if assembly.inFragmentedRecord then some assembly.scratch else none

open Assembly

/-- `ReadRecord` called until it fails, one turn at a time. A returned record
restarts the local variables. -/
def Reader.drain (reader : Reader) (assembly : Assembly) : List Bytes × Reader :=
  match _taken : reader.turn assembly with
  | (.done none, next) => ([], next)
  | (.done (some record), next) =>
      let later := next.drain .start
      (record :: later.1, later.2)
  | (.again assembly', next) => next.drain assembly'
termination_by reader.remaining
decreasing_by
  all_goals
    have shrinks := turn_remaining reader assembly (by rw [_taken]; simp)
    rwa [_taken] at shrinks

theorem drain_turn (reader : Reader) (assembly : Assembly) :
    reader.drain assembly = match reader.turn assembly with
      | (.done none, next) => ([], next)
      | (.done (some record), next) => (record :: (next.drain .start).1, (next.drain .start).2)
      | (.again assembly', next) => next.drain assembly' := by
  rw [drain]
  split <;> simp_all

/-- The initial offset never changes, and no report is taken back. -/
def Reader.Continues (reader next : Reader) : Prop :=
  next.initialOffset = reader.initialOffset ∧ reader.drops ⊆ next.drops

variable {next : Reader}

theorem reportDrop_continues (continues : reader.Continues next) (bytes : Nat) (reason : Status) :
    reader.Continues (next.reportDrop bytes reason) := by
  obtain ⟨_, more, same⟩ := reportDrop_eq next bytes reason
  rw [same]
  exact ⟨continues.1, List.Subset.trans continues.2 more⟩

theorem parsePhysicalRecord_continues (reader : Reader) :
    reader.Continues reader.parsePhysicalRecord.2.2 := by
  have kept : reader.Continues { reader with buffer := [] } := ⟨rfl, refl _⟩
  unfold parsePhysicalRecord
  simp only
  split
  · split
    · exact reportDrop_continues kept _ _
    · exact kept
  split
  · exact kept
  split
  · exact reportDrop_continues kept _ _
  · split <;> exact kept

theorem readPhysicalRecord_continues (reader : Reader) :
    reader.Continues reader.readPhysicalRecord.2.2 := by
  fun_induction readPhysicalRecord reader with
  | case1 reader low atEnd => exact ⟨rfl, refl _⟩
  | case2 reader low unread status broken =>
    have kept : reader.Continues { reader with buffer := [] } := ⟨rfl, refl _⟩
    exact reportDrop_continues kept kBlockSize status
  | case3 reader low unread data file answered ih => exact ih
  | case4 reader filled => exact parsePhysicalRecord_continues reader

theorem turn_continues (reader : Reader) (assembly : Assembly) :
    reader.Continues (reader.turn assembly).2 := by
  have kept := readPhysicalRecord_continues reader
  unfold turn
  generalize reader.readPhysicalRecord = answer at *
  obtain ⟨recordType, fragment, after⟩ := answer
  simp only at kept ⊢
  split
  · exact kept
  split
  · exact kept
  · obtain ⟨_, _, more, same⟩ :=
      dispatch_frame { after with resyncing := false } assembly recordType fragment
    rw [same]
    exact ⟨kept.1, List.Subset.trans kept.2 more⟩

/-- Whatever was reported when the reader stood somewhere is still reported at the end. -/
theorem drain_drops (reader : Reader) (assembly : Assembly) :
    reader.drops ⊆ (reader.drain assembly).2.drops := by
  fun_induction drain reader assembly with
  | case1 reader assembly next taken =>
    have kept := (turn_continues reader assembly).2
    rwa [taken] at kept
  | case2 reader assembly record next taken _ =>
    have kept := (turn_continues reader assembly).2
    rw [taken] at kept
    rename_i ih
    exact List.Subset.trans kept ih
  | case3 reader assembly assembly' next taken ih =>
    have kept := (turn_continues reader assembly).2
    rw [taken] at kept
    exact List.Subset.trans kept ih

/-- From the start of a file, draining by calls of `ReadRecord` and draining by
turns are the same. The inner induction follows the loop of one call, the outer
one the calls. -/
theorem readRecordLoop_drain (assembly : Assembly) (fromStart : reader.initialOffset = 0) :
    (reader.readRecordLoop assembly).2.initialOffset = 0 ∧
      reader.drain assembly = match reader.readRecordLoop assembly with
        | (none, next) => ([], next)
        | (some record, next) => (record :: (next.drain .start).1, (next.drain .start).2) := by
  fun_induction readRecordLoop reader assembly with
  | case1 reader assembly record next taken =>
    have kept := (turn_continues reader assembly).1
    rw [taken] at kept
    refine ⟨kept.trans fromStart, ?_⟩
    rw [drain_turn, taken]
    cases record <;> rfl
  | case2 reader assembly assembly' next taken ih =>
    have kept := (turn_continues reader assembly).1
    rw [taken] at kept
    obtain ⟨still, later⟩ := ih (kept.trans fromStart)
    refine ⟨still, ?_⟩
    rw [drain_turn, taken]
    exact later

theorem readAll_drain (fromStart : reader.initialOffset = 0) :
    reader.readAll = reader.drain .start := by
  have direct (reader : Reader) (fromStart : reader.initialOffset = 0) :
      reader.readRecord = reader.readRecordLoop .start := by
    simp [readRecord, fromStart]
  fun_induction readAll reader with
  | case1 reader next answer =>
    obtain ⟨_, same⟩ := readRecordLoop_drain .start fromStart
    rw [direct reader fromStart] at answer
    rw [same, answer]
  | case2 reader record next answer _ _ later ih =>
    obtain ⟨still, same⟩ := readRecordLoop_drain .start fromStart
    rw [direct reader fromStart] at answer
    rw [answer] at still same
    rw [same]
    simp [← ih still, later]

/-- While in step with the fragments, a turn dispatches on what was read. -/
theorem turn_read (assembly : Assembly) {fragment : Bytes}
    (read : reader.readPhysicalRecord = (recordType, fragment, next))
    (synced : next.resyncing = false) :
    reader.turn assembly = next.dispatch assembly recordType fragment := by
  have same : ({ next with resyncing := false } : Reader) = next := by
    rw [← synced]
  simp [turn, read, synced, same]

/-- What two readers do next depends only on their next physical read. -/
theorem drain_congr {left right : Reader} (assembly : Assembly)
    (same : left.readPhysicalRecord = right.readPhysicalRecord) :
    left.drain assembly = right.drain assembly := by
  rw [drain_turn, drain_turn right, turn, turn, same]

theorem create_drain (contents : Bytes) :
    ∃ entered, Positioned entered 0 contents ∧
      (create contents true 0).readAll = entered.drain .start ∧ entered.drops = [] := by
  obtain ⟨entered, sameRead, atBlock, kept⟩ := read_nextBlock _ kBlockSize [] contents
    (create_positioned contents) (by decide) (by simp)
  refine ⟨entered, atBlock, ?_, kept⟩
  rw [readAll_drain rfl, drain_congr .start sameRead]

/-- Position does not depend on the reports or on the offset of the last record. -/
theorem Positioned.noted (positioned : Positioned reader offset stream)
    (drops : List (Nat × Status)) (last : Nat) :
    Positioned { reader with drops := drops, lastRecordOffset := last } offset stream :=
  { positioned with }

/-- A turn carries out what `absorb` computed: it returns the completed record,
or goes round with the new record under construction. -/
def Turn.Follows (turn : Turn) : Option Bytes × Option Bytes → Prop
  | (some record, pending) => turn = .done (some record) ∧ pending = none
  | (none, pending) => ∃ assembly, turn = .again assembly ∧ assembly.pending = pending

/-- The dispatch on a fragment follows `absorb`, and reports nothing when the
fragment continues properly. -/
theorem dispatch_absorb (reader : Reader) (assembly : Assembly) (real : fragment.type ≠ .zeroType) :
    (reader.dispatch assembly fragment.type.code fragment.payload).1.Follows
      (absorb assembly.pending fragment) ∧
    (Proper assembly.pending [fragment] →
      (reader.dispatch assembly fragment.type.code fragment.payload).2.drops = reader.drops) := by
  obtain ⟨type, payload⟩ := fragment
  obtain ⟨_, inFragmentedRecord, _⟩ := assembly
  cases type with
  | zeroType => exact absurd rfl real
  | fullType =>
    refine ⟨by simp [dispatch, absorb, Turn.Follows, code], ?_⟩
    intro proper
    cases inFragmentedRecord <;> simp_all [Proper, pending, dispatch]
  | firstType =>
    refine ⟨by simp [dispatch, absorb, Turn.Follows, code, pending], ?_⟩
    intro proper
    cases inFragmentedRecord <;>
      simp_all [Proper, pending, dispatch, code]
  | middleType | lastType =>
    cases inFragmentedRecord <;>
      simp [Proper, pending, dispatch, code, absorb, Turn.Follows]

/-- A turn that reads a fragment absorbs it, and the reader goes on behind it. -/
theorem drain_returned (reader next : Reader) (assembly : Assembly) (fragment : Fragment)
    (read : reader.readPhysicalRecord = (fragment.type.code, fragment.payload, next))
    (synced : next.resyncing = false) (real : fragment.type ≠ .zeroType) :
    ∃ drops last assembly', assembly'.pending = (absorb assembly.pending fragment).2 ∧
      reader.drain assembly = ((absorb assembly.pending fragment).1.toList ++
        (({ next with drops := drops, lastRecordOffset := last } : Reader).drain assembly').1,
        (({ next with drops := drops, lastRecordOffset := last } : Reader).drain assembly').2) ∧
      (Proper assembly.pending [fragment] → drops = next.drops) := by
  obtain ⟨follows, quiet⟩ := dispatch_absorb next assembly real
  obtain ⟨drops, last, _, frame⟩ := dispatch_frame next assembly fragment.type.code fragment.payload
  have split : reader.turn assembly =
      ((next.dispatch assembly fragment.type.code fragment.payload).1,
        { next with drops := drops, lastRecordOffset := last }) := by
    rw [turn_read assembly read synced, ← frame]
  have reports : Proper assembly.pending [fragment] → drops = next.drops := by
    intro proper
    have same := quiet proper
    rwa [frame] at same
  generalize (next.dispatch assembly fragment.type.code fragment.payload).1 = answer at *
  cases absorbed : absorb assembly.pending fragment with
  | mk record pending =>
    rw [absorbed] at follows
    cases record with
    | some record =>
      obtain ⟨rfl, rfl⟩ := follows
      refine ⟨drops, last, .start, rfl, ?_, reports⟩
      rw [drain_turn, split]
      rfl
    | none =>
      obtain ⟨assembly', rfl, rfl⟩ := follows
      refine ⟨drops, last, assembly', rfl, ?_, reports⟩
      rw [drain_turn, split]
      rfl

/-- One fragment of a layout, with the trailer in front of it if there is one:
the step of every argument about a log that is being drained. -/
theorem drain_fragment (assembly : Assembly)
    (positioned : Positioned reader offset (trailer offset ++ fragment.bytes ++ stream))
    (fits : slot offset + fragment.size ≤ kBlockSize) (real : fragment.type ≠ .zeroType) :
    ∃ next assembly', Positioned next (slot offset + fragment.size) stream ∧
      assembly'.pending = (absorb assembly.pending fragment).2 ∧
      reader.drain assembly = ((absorb assembly.pending fragment).1.toList ++
        (next.drain assembly').1, (next.drain assembly').2) ∧
      (Proper assembly.pending [fragment] → next.drops = reader.drops) := by
  rw [append_assoc] at positioned
  obtain ⟨_, sameRead, slotPositioned, slotDrops⟩ := read_slot positioned
  obtain ⟨after, read, afterPositioned, afterDrops⟩ := read_fragment slotPositioned fits real
  obtain ⟨drops, last, assembly', pending, drained, quiet⟩ := drain_returned reader after assembly
    fragment (sameRead.trans read) afterPositioned.synced real
  refine ⟨_, assembly', afterPositioned.noted drops last, pending, drained, ?_⟩
  intro proper
  exact (quiet proper).trans (afterDrops.trans slotDrops)

/-- No fragment has the reserved type. -/
def Real (fragments : List Fragment) : Prop := ∀ fragment ∈ fragments, fragment.type ≠ .zeroType

/-- Draining a stream that begins with a layout yields the records its fragments
form and then whatever the rest of the stream yields. Proper fragments cause no
report. The induction is on the fragments; position and the record under
construction are all that is carried along. -/
theorem drain_layout (assembly : Assembly)
    (positioned : Positioned reader offset (layout offset fragments ++ stream))
    (fits : Fits offset fragments) (real : Real fragments) :
    ∃ next assembly', Positioned next (finish offset fragments) stream ∧
      assembly'.pending = (assemble assembly.pending fragments).2 ∧
      reader.drain assembly = ((assemble assembly.pending fragments).1 ++
        (next.drain assembly').1, (next.drain assembly').2) ∧
      (Proper assembly.pending fragments → next.drops = reader.drops) := by
  induction fragments generalizing reader offset assembly with
  | nil => exact ⟨reader, assembly, positioned, rfl, rfl, fun _ => rfl⟩
  | cons fragment rest ih =>
    rw [layout, append_assoc] at positioned
    obtain ⟨_, between, middlePositioned, middlePending, middleDrain, middleDrops⟩ :=
      drain_fragment assembly positioned fits.1
        (real fragment (.head _))
    obtain ⟨next, assembly', nextPositioned, nextPending, nextDrain, nextDrops⟩ :=
      ih between middlePositioned fits.2
        (fun other mem => real other (.tail _ mem))
    refine ⟨next, assembly', nextPositioned, ?_, ?_, ?_⟩
    · rw [nextPending, middlePending]
      rfl
    · rw [middleDrain, nextDrain, middlePending]
      simp [assemble]
    · intro proper
      rw [nextDrops (middlePending ▸ proper.2), middleDrops ⟨proper.1, trivial⟩]

/-- Nothing is buffered and the file has ended. -/
structure Exhausted (reader : Reader) : Prop where
  buffer : reader.buffer = []
  eof : reader.eof = true
  fromStart : reader.initialOffset = 0
  synced : reader.resyncing = false

/-- The physical read that finds the end of the input without a report. -/
def EndsQuietly (reader : Reader) : Prop :=
  ∃ next, reader.readPhysicalRecord = (kEof, [], next) ∧ Exhausted next ∧
    next.drops = reader.drops

/-- An answer of `kEof` ends the input whatever came with it. -/
theorem drain_stop (assembly : Assembly) (read : reader.readPhysicalRecord = (kEof, payload, next))
    (synced : next.resyncing = false) : reader.drain assembly = ([], next) := by
  rw [drain_turn, turn_read assembly read synced]
  simp [dispatch, kEof, kMaxRecordType, code]

theorem drain_end (assembly : Assembly) (ends : EndsQuietly reader) :
    ∃ next, reader.drain assembly = ([], next) ∧ Exhausted next ∧ next.drops = reader.drops := by
  obtain ⟨next, read, exhausted, drops⟩ := ends
  exact ⟨next, drain_stop assembly read exhausted.synced, exhausted, drops⟩

theorem exhausted_readRecord (exhausted : Exhausted reader) :
    reader.readRecord = (none, reader) := by
  have unchanged : ({ reader with buffer := [] } : Reader) = reader := by
    rw [← exhausted.buffer]
  have read : reader.readPhysicalRecord = (kEof, [], reader) := by
    have low : reader.buffer.length < kHeaderSize := by simp [exhausted.buffer, kHeaderSize]
    rw [readPhysicalRecord, if_pos low, if_pos exhausted.eof, unchanged]
  have turn : reader.turn .start = (.done none, reader) := by
    rw [turn_read .start read exhausted.synced]
    simp [dispatch, kEof, kMaxRecordType, code]
  have loop : reader.readRecordLoop .start = (none, reader) := by
    rw [readRecordLoop]
    split <;> simp_all
  simp [readRecord, exhausted.fromStart, loop]

/-- The last read came back short, or one more read is needed to see the end. -/
theorem read_end (low : reader.buffer.length < kHeaderSize) (rest : reader.file.rest = [])
    (unbroken : reader.file.error = none) :
    reader.readPhysicalRecord = (kEof, [], { reader with buffer := [], eof := true }) := by
  have empty : ⟨[], none⟩ = reader.file := by
    rw [← rest, ← unbroken]
  have blockPositive : 0 < kBlockSize := by decide
  rw [readPhysicalRecord, if_pos low]
  split
  · next ended => rw [← ended]
  · simp only [SequentialFile.read, unbroken, rest, take_nil, drop_nil, length_nil, Nat.add_zero]
    rw [readPhysicalRecord]
    simp [blockPositive, kHeaderSize, empty]

/-- Fewer bytes than a header, at most up to the end of the block, are no record:
a truncated header, a trailer, or nothing at all. -/
theorem ends_short (positioned : Positioned reader offset stream)
    (short : stream.length < kHeaderSize) (within : stream.length ≤ kBlockSize - offset) :
    EndsQuietly reader := by
  have low : reader.buffer.length < kHeaderSize := by
    rw [positioned.buffer, take_of_length_le within]
    exact short
  have rest : reader.file.rest = [] := by
    rw [positioned.rest, drop_eq_nil_of_le within]
  exact ⟨_, read_end low rest positioned.unbroken, { positioned with buffer := rfl, eof := rfl },
    rfl⟩

/-- A header whose length field points behind the end of the file is taken for
the work of a writer that died, because the file ended before the block did. -/
theorem ends_incomplete (positioned : Positioned reader offset stream)
    (headed : kHeaderSize ≤ stream.length) (within : stream.length < kBlockSize - offset)
    (beyond : stream.length < kHeaderSize + headerLength stream) : EndsQuietly reader := by
  have buffered : reader.buffer = stream := by
    rw [positioned.buffer, take_of_length_le (Nat.le_of_lt within)]
  have ended : reader.eof = true := by rw [positioned.eof, decide_eq_true within]
  have filled : ¬ reader.buffer.length < kHeaderSize := by
    rw [buffered]
    exact Nat.not_lt_of_le headed
  refine ⟨{ reader with buffer := [] }, ?_, { positioned with buffer := rfl, eof := ended }, rfl⟩
  rw [readPhysicalRecord, if_neg filled, parsePhysicalRecord]
  simp [buffered, beyond, ended]

/-- In particular a physical record cut off behind its header. -/
theorem ends_torn {count : Nat} (positioned : Positioned reader offset (fragment.bytes.take count))
    (fits : offset + fragment.size ≤ kBlockSize) (headed : kHeaderSize ≤ count)
    (cut : count < fragment.size) : EndsQuietly reader := by
  have length : (fragment.bytes.take count).length = count := by
    rw [length_take, fragment_bytes_length]
    omega
  have short := fragment_short fits
  have field : headerLength (fragment.bytes.take count) = fragment.payload.length := by
    rw [Fragment.bytes, take_append, take_of_length_le (by simpa using headed)]
    exact headerLength_stamped short
  refine ends_incomplete positioned ?_ ?_ ?_
  · rw [length]
    exact headed
  · rw [length]
    omega
  · rw [length, field]
    exact cut

/-- The results of the first calls of `ReadRecord`. -/
def Reader.readCalls : Nat → Reader → List (Option Bytes) × Reader
  | 0, reader => ([], reader)
  | calls + 1, reader =>
      let (record, next) := reader.readRecord
      let (records, final) := Reader.readCalls calls next
      (record :: records, final)

/-- Once exhausted, every further call fails and changes nothing. -/
theorem exhausted_readCalls (calls : Nat) (reader : Reader) (exhausted : Exhausted reader) :
    reader.readCalls calls = (replicate calls none, reader) := by
  induction calls with
  | zero => rfl
  | succ calls ih => simp [readCalls, exhausted_readRecord exhausted, ih, replicate_succ]

/-- The calls that drain a log return its records one by one, and all later ones
fail. -/
theorem readCalls_readAll (calls : Nat) (exhausted : Exhausted reader.readAll.2) :
    reader.readCalls (reader.readAll.1.length + (calls + 1)) =
      (reader.readAll.1.map some ++ replicate (calls + 1) none, reader.readAll.2) := by
  fun_induction readAll reader with
  | case1 reader next answer =>
    simp [readCalls, answer, exhausted_readCalls calls next exhausted, replicate_succ]
  | case2 reader record next answer records _ later ih =>
    rw [later] at ih
    have rest := ih exhausted
    have count : (record :: records).length + (calls + 1) =
        (records.length + (calls + 1)) + 1 := by
      simp only [length_cons]
      omega
    rw [count, readCalls, answer]
    simp only at rest ⊢
    rw [rest]
    rfl

end CodeReading.Leveldb.Log
