import CodeReading.Leveldb.LogCut

/-!
# Reading the remains of a record

A physical record that was torn, with something else written behind it, is parsed
with the wrong bytes. This module says what the reader makes of it: in the
block of the torn record a new record is never returned; in a block that was
filled up with a trailer the torn record itself comes back when zero bytes happen
to complete it to something with its checksum, and the next block is read as usual.
-/

namespace CodeReading.Leveldb.Log

open List Fragment RecordType
open Crc32c (unmask value)

/-- Nothing in the buffer is worth a header and the file is at its end. -/
structure Spent (reader : Reader) : Prop where
  low : reader.buffer.length < kHeaderSize
  rest : reader.file.rest = []
  unbroken : reader.file.error = none
  synced : reader.resyncing = false

theorem spent_drain (reader : Reader) (assembly : Assembly) (spent : Spent reader) :
    (reader.drain assembly).1 = [] := by
  rw [drain_stop assembly (read_end spent.low spent.rest spent.unbroken) spent.synced]

variable {reader : Reader}

/-- A bad record, or one of the reserved type, is left out, together with the
record under construction. -/
theorem drain_discard {next : Reader} (assembly : Assembly) {code : Nat} {payload : Bytes}
    (read : reader.readPhysicalRecord = (code, payload, next)) (synced : next.resyncing = false)
    (discarded : code = kBadRecord ∨ code = zeroType.code) :
    ∃ drops last assembly', assembly'.pending = none ∧ reader.drain assembly =
      ({ next with drops := drops, lastRecordOffset := last } : Reader).drain assembly' := by
  obtain ⟨drops, last, _, frame⟩ := dispatch_frame next assembly code payload
  have again : ∃ assembly', (next.dispatch assembly code payload).1 = .again assembly' ∧
      assembly'.pending = none := by
    rcases discarded with rfl | rfl
    · cases inside : assembly.inFragmentedRecord <;>
        simp [Reader.dispatch, kBadRecord, kEof, kMaxRecordType, code, inside, Assembly.pending]
    · simp [Reader.dispatch, kBadRecord, kEof, kMaxRecordType, code, Assembly.pending]
  obtain ⟨assembly', taken, nothing⟩ := again
  refine ⟨drops, last, assembly', nothing, ?_⟩
  have turn : reader.turn assembly =
      (.again assembly', { next with drops := drops, lastRecordOffset := last }) := by
    rw [turn_read assembly read synced, ← frame, ← taken]
  rw [drain_turn, turn]

/-- The buffer holds `piece`: the rest of the block, or of the file. -/
structure Facing (reader : Reader) (offset : Nat) (piece stream : Bytes) : Prop where
  positioned : Positioned reader offset (piece ++ stream)
  headed : kHeaderSize ≤ piece.length
  bounded : piece.length = kBlockSize - offset ∨
    stream = [] ∧ piece.length ≤ kBlockSize - offset

theorem Facing.buffer (facing : Facing reader offset piece stream) : reader.buffer = piece := by
  rw [facing.positioned.buffer]
  rcases facing.bounded with full | ⟨rfl, short⟩
  · rw [← full, take_left]
  · rw [append_nil, take_of_length_le short]

/-- The three outcomes of a physical read: incomplete, rejected, or returned. -/
theorem facing_read (facing : Facing reader offset piece stream) :
    (piece.length < kHeaderSize + headerLength piece ∧
      ∃ drops, reader.readPhysicalRecord = (if reader.eof then kEof else kBadRecord, [],
        { reader with buffer := [], drops := drops })) ∨
    (value ((piece.drop 6).take (1 + headerLength piece)) =
        unmask (decodeFixed32 piece) →
      signExtend (piece.getD 6 0) = zeroType.code) ∧
      (∃ drops, reader.readPhysicalRecord = (kBadRecord, [],
        { reader with buffer := [], drops := drops })) ∨
    kHeaderSize + headerLength piece ≤ piece.length ∧
      value ((piece.drop 6).take (1 + headerLength piece)) =
        unmask (decodeFixed32 piece) ∧
      ¬ (signExtend (piece.getD 6 0) = zeroType.code ∧ headerLength piece = 0) ∧
      reader.readPhysicalRecord = (signExtend (piece.getD 6 0),
        (piece.drop kHeaderSize).take (headerLength piece),
        { reader with buffer := piece.drop (kHeaderSize + headerLength piece) }) := by
  have fromStart := facing.positioned.fromStart
  have filled : ¬ reader.buffer.length < kHeaderSize := by
    rw [facing.buffer]
    exact Nat.not_lt_of_le facing.headed
  have reported (bytes : Nat) (reason : String) : ∃ drops,
      ({ reader with buffer := [] } : Reader).reportCorruption bytes reason =
        { reader with buffer := [], drops := drops } :=
    ⟨_, reportCorruption_fromStart fromStart⟩
  rw [Reader.readPhysicalRecord, if_neg filled, Reader.parsePhysicalRecord]
  simp only [facing.buffer]
  by_cases incomplete : piece.length < kHeaderSize + headerLength piece
  · refine .inl ⟨incomplete, ?_⟩
    rw [if_pos incomplete]
    by_cases ended : reader.eof = true
    · exact ⟨reader.drops, by simp [ended]⟩
    · obtain ⟨drops, same⟩ := reported piece.length "bad record length"
      exact ⟨drops, by rw [if_pos (by simpa using ended), if_neg ended, same]⟩
  · rw [if_neg incomplete]
    by_cases zero : signExtend (piece.getD 6 0) = zeroType.code ∧
        headerLength piece = 0
    · exact .inr (.inl ⟨fun _ => zero.1, reader.drops, by rw [if_pos zero]⟩)
    · rw [if_neg zero]
      by_cases checked : value ((piece.drop 6).take (1 + headerLength piece)) =
          unmask (decodeFixed32 piece)
      · refine .inr (.inr ⟨Nat.le_of_not_lt incomplete, checked, zero, ?_⟩)
        rw [if_neg (fun mismatch => mismatch.2 checked), if_neg (by simp [fromStart])]
      · refine .inr (.inl ⟨fun same => absurd same checked, ?_⟩)
        obtain ⟨drops, same⟩ := reported piece.length "checksum mismatch"
        exact ⟨drops, by rw [if_pos ⟨facing.positioned.verifying, checked⟩, same]⟩

section

variable (facing : Facing reader offset piece stream) (full : piece.length = kBlockSize - offset)
  (buffer : Bytes) (low : buffer.length < kHeaderSize) (drops : List (Nat × Status)) (last : Nat)
include facing full low

/-- Once less than a header is left of a full block, the next block is read. -/
theorem Facing.between :
    Between { reader with buffer := buffer, drops := drops, lastRecordOffset := last } stream := by
  have positioned := facing.positioned
  refine { positioned with low := low, rest := ?_, unread := ?_ }
  · simp only
    rw [positioned.rest, ← full, drop_left]
  · simp only
    rw [positioned.eof, decide_eq_false_iff_not]
    simp [full]

theorem Facing.drain_nextBlock (assembly : Assembly) :
    ∃ next, Positioned next 0 stream ∧
      ({ reader with buffer := buffer, drops := drops, lastRecordOffset := last } : Reader).drain
        assembly = next.drain assembly := by
  obtain ⟨next, sameRead, atBlock, _⟩ := read_between (facing.between full buffer low drops last)
  exact ⟨next, atBlock, drain_congr assembly sameRead⟩

end

/-- Once less than a header is left at the end of the file, there is nothing more. -/
theorem Facing.spent (facing : Facing reader offset piece []) (buffer : Bytes)
    (low : buffer.length < kHeaderSize) (drops : List (Nat × Status)) (last : Nat) :
    Spent { reader with buffer := buffer, drops := drops, lastRecordOffset := last } := by
  have positioned := facing.positioned
  refine { positioned with low := low, rest := ?_ }
  simp only
  rw [positioned.rest, append_nil, drop_eq_nil_of_le]
  rcases facing.bounded with full | ⟨_, short⟩
  · omega
  · exact short

variable {count : Nat}

/-- Behind less than a header of a torn record, the header of an empty record is
misread: as a length that exceeds the file, or as the type `kEof`. -/
theorem headless_misread (fragment : Fragment) (started : 0 < count)
    (headless : count < kHeaderSize) : count + kHeaderSize < kHeaderSize +
        headerLength (fragment.bytes.take count ++ header .fullType []) ∨
      signExtend ((fragment.bytes.take count ++ header .fullType []).getD 6 0) = kEof := by
  rw [bytes, take_append_of_le_length (by rw [header_length]; omega), header_empty,
    header, encodeFixed32]
  simp only [kHeaderSize] at headless
  have cases : count = 1 ∨ count = 2 ∨ count = 3 ∨ count = 4 ∨ count = 5 ∨ count = 6 := by omega
  rcases cases with rfl | rfl | rfl | rfl | rfl | rfl
  · exact .inl (by simp [headerLength, kHeaderSize])
  · exact .inl (by simp [headerLength, kHeaderSize])
  · exact .inl (by simp [headerLength, kHeaderSize])
  · exact .inl (by simp [headerLength, kHeaderSize])
  · exact .inl (by simp [headerLength, kHeaderSize]; omega)
  · exact .inr rfl

variable {fragment : Fragment}

/-- Behind a whole header, the record is read with whatever stands in the place
of its payload. -/
theorem headed_fields (more : Bytes) (headed : kHeaderSize ≤ count)
    (short : fragment.payload.length < 65536) :
    let body := fragment.payload.take (count - kHeaderSize) ++ more
    let piece := fragment.bytes.take count ++ more
    headerLength piece = fragment.payload.length ∧
      signExtend (piece.getD 6 0) = fragment.type.code ∧
      (value ((piece.drop 6).take (1 + fragment.payload.length)) =
          unmask (decodeFixed32 piece) ↔
        value (fragment.type.byte :: body.take fragment.payload.length) =
          value (fragment.type.byte :: fragment.payload)) ∧
      (piece.drop kHeaderSize).take fragment.payload.length =
        body.take fragment.payload.length := by
  intro body piece
  have split : piece = stamped fragment.type.byte fragment.payload ++ body := by
    simp only [piece, body, bytes]
    rw [take_append, take_of_length_le (by simpa using headed), header_length, append_assoc]
    rfl
  rw [split]
  refine ⟨headerLength_stamped short, signExtend_byte fragment.type, ?_, ?_⟩
  · rw [stamped_checked, stamped_checksum]
  · rw [show kHeaderSize = (stamped fragment.type.byte fragment.payload).length from rfl, drop_left]

/-- A new empty record in the block of a torn one is never returned: it is taken
for a part of the torn record, or goes with it. -/
theorem drain_sameBlock (assembly : Assembly)
    (positioned : Positioned reader offset (fragment.bytes.take count ++ header .fullType []))
    (fits : offset + fragment.size ≤ kBlockSize) (real : fragment.type ≠ .zeroType)
    (started : 0 < count) (cut : count < fragment.size)
    (room : count + kHeaderSize ≤ kBlockSize - offset) : (reader.drain assembly).1 ≠ [[]] := by
  have short := fragment_short fits
  have length : (fragment.bytes.take count ++ header .fullType []).length =
      count + kHeaderSize := by
    rw [length_append, header_length, length_take, fragment_bytes_length]
    omega
  have facing : Facing reader offset (fragment.bytes.take count ++ header .fullType []) [] :=
    ⟨by rwa [append_nil], by omega, .inr ⟨rfl, by omega⟩⟩
  have synced := positioned.synced
  have discarded (drops : List (Nat × Status))
      (read : reader.readPhysicalRecord = (kBadRecord, [],
        { reader with buffer := [], drops := drops })) : (reader.drain assembly).1 ≠ [[]] := by
    obtain ⟨drops', last, assembly', _, drained⟩ := drain_discard assembly read synced (.inl rfl)
    rw [drained, spent_drain _ _ (facing.spent [] (by decide) drops' last)]
    exact cons_ne_nil _ _ |>.symm
  have stopped (payload : Bytes) (next : Reader)
      (read : reader.readPhysicalRecord = (kEof, payload, next))
      (synced : next.resyncing = false) :
      (reader.drain assembly).1 ≠ [[]] := by
    rw [drain_stop assembly read synced]
    exact cons_ne_nil _ _ |>.symm
  rcases facing_read facing with ⟨_, drops, read⟩ | ⟨_, drops, read⟩ | ⟨whole, _, -, read⟩
  · by_cases ended : reader.eof = true
    · rw [if_pos ended] at read
      exact stopped _ _ read synced
    · rw [if_neg ended] at read
      exact discarded drops read
  · exact discarded drops read
  · rcases Nat.lt_or_ge count kHeaderSize with headless | headed
    · rcases headless_misread fragment started headless with beyond | ended
      · omega
      · rw [ended] at read
        exact stopped _ _ read synced
    · -- The header is intact, so the new record serves as the end of the payload.
      obtain ⟨field, type, _, payload⟩ := headed_fields (header .fullType []) headed short
      rw [field] at read whole
      rw [type, payload] at read
      generalize misread : (fragment.payload.take (count - kHeaderSize) ++
        header .fullType []).take fragment.payload.length = bytes at read
      have bytesLength : bytes.length = fragment.payload.length := by
        rw [← misread, length_take, length_append, length_take, header_length]
        omega
      obtain ⟨drops, last, assembly', _, drained, _⟩ := drain_returned reader _ assembly
        ⟨fragment.type, bytes⟩ read synced real
      have nothing := spent_drain _ assembly' (facing.spent
        ((fragment.bytes.take count ++ header .fullType []).drop
          (kHeaderSize + fragment.payload.length))
        (by rw [length_drop, length]; simp only [size] at cut; omega) drops last)
      rw [drained, nothing, append_nil]
      have nonempty : bytes ≠ [] := by
        intro empty
        rw [empty] at bytesLength
        simp only [size, ← bytesLength, length_nil] at cut
        omega
      cases kind : fragment.type <;> cases pending : assembly.pending <;>
        simp [absorb, nonempty]

section

variable (fragment : Fragment) (count : Nat)

/-- The payload of a record torn after `count` bytes, completed by zero bytes. -/
def completed : Bytes :=
  fragment.payload.take (count - kHeaderSize) ++
    List.replicate (fragment.payload.length - (count - kHeaderSize)) 0

/-- The header is whole, and the completed payload has the stored checksum. -/
def Completes : Prop :=
  kHeaderSize ≤ count ∧ Crc32c.value (fragment.type.byte :: completed fragment count) =
    Crc32c.value (fragment.type.byte :: fragment.payload)

instance : Decidable (Completes fragment count) :=
  inferInstanceAs (Decidable (_ ∧ _))

end

/-- A torn record at the end of its block, filled up with a trailer. It comes back
if the zero bytes complete it; either way the reader goes on with the next block. -/
theorem drain_filledBlock (reader : Reader) (offset : Nat) (assembly : Assembly)
    (fragment : Fragment) (count : Nat) (stream : Bytes)
    (positioned : Positioned reader offset (fragment.bytes.take count ++
      replicate (kBlockSize - (offset + count)) 0 ++ stream))
    (fits : offset + fragment.size ≤ kBlockSize) (real : fragment.type ≠ .zeroType)
    (cut : count < fragment.size) (low : kBlockSize - (offset + count) < kHeaderSize) :
    ∃ next assembly', Positioned next 0 stream ∧
      (reader.drain assembly).1 = (if Completes fragment count then
          (absorb assembly.pending ⟨fragment.type, completed fragment count⟩).1
        else none).toList ++ (next.drain assembly').1 := by
  have short := fragment_short fits
  have size := fragment_size_pos fragment
  generalize zeros : replicate (kBlockSize - (offset + count)) (0 : UInt8) = filler at *
  have length : (fragment.bytes.take count ++ filler).length = kBlockSize - offset := by
    rw [length_append, length_take, fragment_bytes_length, ← zeros, length_replicate]
    omega
  have facing : Facing reader offset (fragment.bytes.take count ++ filler) stream :=
    ⟨positioned, by omega, .inl length⟩
  have synced := positioned.synced
  have discarded (code : Nat) (payload buffer : Bytes) (drops : List (Nat × Status))
      (lost : ¬ Completes fragment count)
      (code' : code = kBadRecord ∨ code = zeroType.code)
      (left : buffer.length < kHeaderSize)
      (read : reader.readPhysicalRecord = (code, payload,
        { reader with buffer := buffer, drops := drops })) :
      ∃ next assembly', Positioned next 0 stream ∧
        (reader.drain assembly).1 = (if Completes fragment count then
            (absorb assembly.pending ⟨fragment.type, completed fragment count⟩).1
          else none).toList ++ (next.drain assembly').1 := by
    obtain ⟨drops', last, assembly', _, drained⟩ := drain_discard assembly read synced code'
    obtain ⟨next, atBlock, same⟩ := facing.drain_nextBlock length buffer left drops' last assembly'
    refine ⟨next, assembly', atBlock, ?_⟩
    rw [drained, same, if_neg lost]
    rfl
  rcases Nat.lt_or_ge count kHeaderSize with headless | headed
  · -- The type byte is one of the zeros, so nothing is returned as a fragment.
    have lost : ¬ Completes fragment count := fun completes => by
      have := completes.1
      omega
    have type : signExtend ((fragment.bytes.take count ++ filler).getD 6 0) =
        zeroType.code := by
      have outside : (fragment.bytes.take count).length ≤ 6 := by
        have := length_take_le count fragment.bytes
        simp only [kHeaderSize] at headless
        omega
      rw [getD_eq_getElem?_getD, getElem?_append_right outside, ← zeros, getElem?_replicate]
      split <;> rfl
    rcases facing_read facing with ⟨_, drops, read⟩ | ⟨_, drops, read⟩ | ⟨_, _, -, read⟩
    · have unread : ¬ reader.eof = true := by
        rw [positioned.eof, decide_eq_true_eq, length_append, length]
        omega
      rw [if_neg unread] at read
      exact discarded _ _ [] drops lost (.inl rfl) (by decide) read
    · exact discarded _ _ [] drops lost (.inl rfl) (by decide) read
    · rw [type] at read
      refine discarded _ _ _ reader.drops lost (.inr rfl) ?_ read
      rw [length_drop, length]
      omega
  · obtain ⟨field, type, check, payload⟩ := headed_fields filler headed short
    have body : (fragment.payload.take (count - kHeaderSize) ++ filler).take
        fragment.payload.length = completed fragment count := by
      simp only [Fragment.size] at cut fits
      rw [completed, take_append, take_of_length_le (length_take_le' _ _),
        length_take, ← zeros, take_replicate]
      congr 2
      omega
    rw [body] at check payload
    rcases facing_read facing with ⟨incomplete, _⟩ | ⟨rejected, drops, read⟩ | ⟨_, checked, -, read⟩
    · rw [field, length] at incomplete
      simp only [Fragment.size] at fits
      omega
    · refine discarded _ _ [] drops ?_ (.inl rfl) (by decide) read
      rintro ⟨_, same⟩
      rw [field, type] at rejected
      exact code_ne_zero real (rejected (check.mpr same))
    · rw [field] at checked read
      rw [type, payload] at read
      obtain ⟨drops, last, assembly', _, drained, _⟩ := drain_returned reader _ assembly
        ⟨fragment.type, completed fragment count⟩ read synced real
      obtain ⟨next, atBlock, same⟩ := facing.drain_nextBlock length
        ((fragment.bytes.take count ++ filler).drop (kHeaderSize + fragment.payload.length))
        (by rw [length_drop, length]; simp only [Fragment.size] at cut; omega)
        drops last assembly'
      refine ⟨next, assembly', atBlock, ?_⟩
      rw [drained, same, if_pos ⟨headed, check.mp checked⟩]

end CodeReading.Leveldb.Log
