import CodeReading.Leveldb.LogWriter
import CodeReading.Leveldb.LogAssembly

/-!
# What the writer emits

`fragments` cuts a record at block boundaries; `emitAll` sends a list of
fragments to the file and stops at the first failing status. The loop of
`AddRecord` is the composition of the two. When each fragment arrives whole and in
place, or not at all, the file grows by the layout of an initial part of the
fragments, and of all of them when the call succeeds. On a reliable device this
is so as long as the writer's offset is the one the file's length gives.
-/

namespace CodeReading.Leveldb.Log

open List WritableFile

/-- Room for a payload at the next slot. -/
def avail (offset : Nat) : Nat := kBlockSize - slot offset - kHeaderSize

theorem avail_full : 0 < avail kBlockSize := by decide

/-- The physical records `AddRecord` cuts a record into. Every one but the last
fills its block, so the next one starts at the end of a block. -/
def fragments (offset : Nat) (first : Bool) (left : Bytes) : List Fragment :=
  if left.length ≤ avail offset then [⟨fragmentType first true, left⟩]
  else ⟨fragmentType first false, left.take (avail offset)⟩ ::
    fragments kBlockSize false (left.drop (avail offset))
termination_by 2 * left.length + (if avail offset = 0 then 1 else 0)
decreasing_by
  have later : ¬ avail kBlockSize = 0 := Nat.ne_of_gt avail_full
  rw [if_neg later, List.length_drop]
  split <;> omega

/-- Emission of consecutive fragments: a failing status ends it. -/
def emitAll (fate : Nat → Fate) : Writer → List Fragment → Status × Writer
  | writer, [] => (.ok, writer)
  | writer, fragment :: rest =>
      let emitted := emitPhysicalRecord fate (writer.switchBlock fate) fragment.type
        fragment.payload
      if emitted.1 = .ok ∧ rest ≠ [] then emitAll fate emitted.2 rest else emitted

variable {left : Bytes} {offset : Nat}

theorem fragments_ne_nil : fragments offset first left ≠ [] := by
  rw [fragments]
  split <;> simp

section

variable (fate : Nat → Fate) (writer : Writer)
include fate writer

/-- An iteration whose fragment takes all that is left is the last one. -/
theorem addRecordLoop_last (first : Bool) (left : Bytes)
    (enough : left.length ≤ avail writer.blockOffset) : addRecordLoop fate writer first left =
      emitPhysicalRecord fate (writer.switchBlock fate) (fragmentType first true) left := by
  have length : (if left.length < avail writer.blockOffset then left.length
      else avail writer.blockOffset) = left.length := by
    split <;> omega
  rw [addRecordLoop]
  simp [switchBlock_offset, ← avail.eq_1, length]

/-- Any other iteration fills the block and continues unless the file failed. -/
theorem addRecordLoop_more (first : Bool) (left : Bytes)
    (more : avail writer.blockOffset < left.length) : addRecordLoop fate writer first left =
      let emitted := emitPhysicalRecord fate (writer.switchBlock fate) (fragmentType first false)
        (left.take (avail writer.blockOffset))
      if emitted.1 = .ok then
        addRecordLoop fate emitted.2 false (left.drop (avail writer.blockOffset))
      else emitted := by
  have length : (if left.length < avail writer.blockOffset then left.length
      else avail writer.blockOffset) = avail writer.blockOffset := if_neg (by omega)
  have notLast : ¬ left.length = avail writer.blockOffset := by omega
  have remains : 0 < left.length - avail writer.blockOffset := by omega
  rw [addRecordLoop]
  simp [switchBlock_offset, ← avail.eq_1, length, notLast, remains]

theorem emit_fills (more : avail writer.blockOffset < left.length) :
    (emitPhysicalRecord fate (writer.switchBlock fate) type
      (left.take (avail writer.blockOffset))).2.blockOffset = kBlockSize := by
  have room := slot_room writer.blockOffset
  rw [emitPhysicalRecord_offset, switchBlock_offset, length_take,
    Nat.min_eq_left (Nat.le_of_lt more), avail]
  omega

/-- The fragmentation loop emits exactly the fragments. Each iteration of the
loop is one unfolding of `fragments`; the offsets agree because a fragment that
is not the last ends its block. -/
theorem addRecordLoop_emitAll (first : Bool) (left : Bytes) : addRecordLoop fate writer first left =
      emitAll fate writer (fragments writer.blockOffset first left) := by
  generalize offset : writer.blockOffset = start
  fun_induction fragments start first left generalizing writer with
  | case1 start first left enough =>
    subst offset
    rw [addRecordLoop_last fate writer first left enough]
    simp [emitAll]
  | case2 start first left exceeds ih =>
    subst offset
    have more : avail writer.blockOffset < left.length := Nat.lt_of_not_le exceeds
    rw [addRecordLoop_more fate writer first left more]
    simp only [emitAll, fragments_ne_nil, ne_eq, not_false_eq_true, and_true]
    rw [ih _ (emit_fills fate writer more)]

end

theorem fragmentType_real (first last : Bool) : fragmentType first last ≠ .zeroType := by
  cases first <;> cases last <;> decide

theorem fragments_real (offset : Nat) (first : Bool) (left : Bytes) :
    Real (fragments offset first left) := by
  fun_induction fragments offset first left with
  | case1 offset first left enough => simpa [Real] using fragmentType_real first true
  | case2 offset first left exceeds ih =>
    intro fragment mem
    rcases mem_cons.mp mem with rfl | mem
    · exact fragmentType_real first false
    · exact ih fragment mem

theorem fragment_fills (type : RecordType) (exceeds : ¬ left.length ≤ avail offset) :
    slot offset + (⟨type, left.take (avail offset)⟩ : Fragment).size = kBlockSize := by
  have room := slot_room offset
  simp only [Fragment.size, length_take, avail] at *
  omega

theorem fragments_fit (offset : Nat) (first : Bool) (left : Bytes) :
    Fits offset (fragments offset first left) := by
  fun_induction fragments offset first left with
  | case1 offset first left enough =>
    have room := slot_room offset
    simp only [avail] at enough
    simp only [Fits, Fragment.size, and_true]
    omega
  | case2 offset first left exceeds ih =>
    simp only [Fits, fragment_fills _ exceeds, Nat.le_refl, true_and]
    exact ih

/-- The fragments of a record continued after `scratch` complete `scratch` and
the record's bytes, and nothing else. -/
theorem assemble_continued (offset : Nat) (left scratch : Bytes) :
    assemble (some scratch) (fragments offset false left) = ([scratch ++ left], none) ∧
      Proper (some scratch) (fragments offset false left) := by
  generalize flag : false = first
  fun_induction fragments offset first left generalizing scratch with
  | case1 offset first left enough =>
    subst flag
    simp [assemble, absorb, Proper, fragmentType]
  | case2 offset first left exceeds ih =>
    subst flag
    obtain ⟨records, proper⟩ := ih (scratch ++ left.take (avail offset)) rfl
    rw [append_assoc, take_append_drop] at records
    refine ⟨?_, ?_⟩
    · simp [assemble, absorb, fragmentType, records]
    · simpa [Proper, absorb, fragmentType] using proper

/-- The fragments of a whole record complete exactly that record, also when an
earlier record was left unfinished in front of them. -/
theorem assemble_fragments (pending : Option Bytes) (offset : Nat) (record : Bytes) :
    assemble pending (fragments offset true record) = ([record], none) := by
  rw [fragments]
  split
  · simp [assemble, absorb, fragmentType]
  · obtain ⟨records, _⟩ := assemble_continued kBlockSize (record.drop (avail offset))
      (record.take (avail offset))
    rw [take_append_drop] at records
    simp [assemble, absorb, fragmentType, records]

/-- After a finished record, a record's fragments continue properly. -/
theorem proper_fragments (offset : Nat) (record : Bytes) :
    Proper none (fragments offset true record) := by
  rw [fragments]
  split
  · simp [Proper, fragmentType]
  · obtain ⟨_, proper⟩ := assemble_continued kBlockSize (record.drop (avail offset))
      (record.take (avail offset))
    simpa [Proper, absorb, fragmentType] using proper

/-- The first fragments of a record, short of the last one, complete nothing. -/
theorem assemble_unfinished (pending : Option Bytes) (remains : later ≠ [])
    (split : fragments offset first left = done ++ later) : (assemble pending done).1 = [] := by
  fun_induction fragments offset first left generalizing pending done with
  | case1 offset first left enough =>
    cases done with
    | nil => rfl
    | cons fragment rest => simp_all
  | case2 offset first left exceeds ih =>
    cases done with
    | nil => rfl
    | cons fragment rest =>
      obtain ⟨rfl, tail⟩ := cons.inj split
      have nothing : (absorb pending
          ⟨fragmentType first false, left.take (avail offset)⟩).1 = none := by
        cases first <;> cases pending <;> rfl
      simp [assemble, nothing, ih _ tail]

/-- How many bytes one emission gets into the file, counting those pending before
it. The first failing call decides; it may stop anywhere in what it was given. -/
def emitArrives (fate : Nat → Fate) (file : WritableFile) (payload : Bytes) : Nat :=
  let headed := file.pending.length + kHeaderSize
  match fate file.calls with
  | .fail written => min written headed
  | .succeed =>
      match fate (file.calls + 1) with
      | .fail written => min written (headed + payload.length)
      | .succeed =>
          match fate (file.calls + 1 + 1) with
          | .fail written => min written (headed + payload.length)
          | .succeed => headed + payload.length

/-- An emission extends the file by that many bytes and leaves nothing pending;
a good status means that all of them arrived. -/
theorem emit_arrives (fate : Nat → Fate) (writer : Writer) (fragment : Fragment) :
    let emitted := emitPhysicalRecord fate writer fragment.type fragment.payload
    emitted.2.dest.contents = writer.dest.contents ++ (writer.dest.pending ++
        fragment.bytes).take (emitArrives fate writer.dest fragment.payload) ∧
      emitted.2.dest.pending = [] ∧
      (emitted.1 = .ok → emitArrives fate writer.dest fragment.payload =
        writer.dest.pending.length + fragment.size) := by
  have total : (writer.dest.pending ++ (header fragment.type fragment.payload ++
      fragment.payload)).length =
      writer.dest.pending.length + kHeaderSize + fragment.payload.length := by
    simp [Nat.add_assoc]
  have headed : (writer.dest.pending ++ header fragment.type fragment.payload).length =
      writer.dest.pending.length + kHeaderSize := by simp
  cases headerFate : fate writer.dest.calls with
  | fail written =>
    have early : (writer.dest.pending ++ (header fragment.type fragment.payload ++
        fragment.payload)).take (min written (writer.dest.pending.length + kHeaderSize)) =
        (writer.dest.pending ++ header fragment.type fragment.payload).take written := by
      rw [← append_assoc, ← headed, ← take_take, take_left]
    simp [emitPhysicalRecord, append, emitArrives, headerFate, Fragment.bytes, early]
  | succeed =>
    cases payloadFate : fate (writer.dest.calls + 1) with
    | fail written =>
      simp [emitPhysicalRecord, append, emitArrives, headerFate, payloadFate,
        Fragment.bytes, ← total]
    | succeed =>
      cases flushFate : fate (writer.dest.calls + 1 + 1) with
      | fail written =>
        simp [emitPhysicalRecord, append, flush, emitArrives, headerFate,
          payloadFate, flushFate, Fragment.bytes, ← total]
      | succeed =>
        simp [emitPhysicalRecord, append, flush, emitArrives, headerFate,
          payloadFate, flushFate, Fragment.bytes, ← total, Fragment.size, Nat.add_assoc,
          take_of_length_le]

section

variable (fate : Nat → Fate)

/-- The trailer of the block, if one is due, is accepted or written whole. -/
def SwitchDelivers (writer : Writer) : Prop :=
  match fate writer.dest.calls with
  | .succeed => True
  | .fail written => (trailer writer.blockOffset).length ≤ written ∨ trailer writer.blockOffset = []

/-- The append of a trailer, if one is due, writes nothing by itself. -/
def SwitchSilent (writer : Writer) : Prop :=
  match fate writer.dest.calls with
  | .succeed => True
  | .fail written => written = 0 ∨ trailer writer.blockOffset = []

/-- Filling the trailer is one append of its bytes, if it has any. -/
theorem switchBlock_dest (writer : Writer) : (writer.switchBlock fate).dest =
      if trailer writer.blockOffset = [] then writer.dest
      else (writer.dest.append fate (trailer writer.blockOffset)).2 := by
  by_cases low : kBlockSize - writer.blockOffset < kHeaderSize
  · rcases Nat.eq_zero_or_pos (kBlockSize - writer.blockOffset) with none | some
    · simp [Writer.switchBlock, trailer, none, kHeaderSize]
    · simp [Writer.switchBlock, trailer, low, some, Nat.ne_of_gt some]
  · simp [Writer.switchBlock, trailer, low]

variable {writer : Writer}

theorem switchBlock_delivers (flushed : writer.dest.pending = [])
    (delivers : SwitchDelivers fate writer) :
    (writer.switchBlock fate).dest.contents ++ (writer.switchBlock fate).dest.pending =
      writer.dest.contents ++ trailer writer.blockOffset := by
  rw [switchBlock_dest]
  split
  next none => simp [none, flushed]
  next due =>
    unfold SwitchDelivers at delivers
    unfold append
    cases outcome : fate writer.dest.calls with
    | succeed => simp [flushed]
    | fail written =>
      simp only [outcome, due, or_false] at delivers
      simp [flushed, take_of_length_le delivers]

theorem switchBlock_silent (silent : SwitchSilent fate writer) :
    (writer.switchBlock fate).dest.contents = writer.dest.contents := by
  rw [switchBlock_dest]
  split
  next none => rfl
  next due =>
    unfold SwitchSilent at silent
    unfold append
    cases outcome : fate writer.dest.calls with
    | succeed => rfl
    | fail written =>
      simp only [outcome, due, or_false] at silent
      simp [silent]

/-- The block offset that the length of the file really gives. The writer's own
offset differs from it once bytes have been lost. -/
def WritableFile.position (file : WritableFile) : Nat := file.contents.length % kBlockSize

theorem position_le (file : WritableFile) : file.position ≤ kBlockSize :=
  Nat.le_of_lt (Nat.mod_lt _ (by decide))

/-- At the real end of the file the fragment lies within one block, behind the
trailer that is due there. -/
def InPlace (writer : Writer) (fragment : Fragment) : Prop :=
  trailer writer.blockOffset = trailer writer.dest.position ∧
    slot writer.dest.position + fragment.size ≤ kBlockSize

/-- Trailer and fragment reach the file whole, whatever the status. -/
def Arrives (writer : Writer) (fragment : Fragment) : Prop :=
  let switched := writer.switchBlock fate
  SwitchDelivers fate writer ∧
    emitArrives fate switched.dest fragment.payload =
      switched.dest.pending.length + fragment.size

/-- The emission fails and the file does not change. -/
def Vanishes (writer : Writer) (fragment : Fragment) : Prop :=
  SwitchSilent fate writer ∧
    emitArrives fate (writer.switchBlock fate).dest fragment.payload = 0

end

/-- Each fragment sent out arrives whole and in place, or not at all. The
fragments behind a failing status are not sent. -/
def Lands (fate : Nat → Fate) : Writer → List Fragment → Prop
  | _, [] => True
  | writer, fragment :: rest =>
      let emitted := emitPhysicalRecord fate (writer.switchBlock fate) fragment.type
        fragment.payload
      Vanishes fate writer fragment ∨
        (Arrives fate writer fragment ∧ InPlace writer fragment ∧
          (emitted.1 = .ok → Lands fate emitted.2 rest))

variable {writer : Writer}

theorem emit_whole (fate : Nat → Fate) (flushed : writer.dest.pending = [])
    (arrives : Arrives fate writer fragment) :
    (emitPhysicalRecord fate (writer.switchBlock fate) fragment.type
        fragment.payload).2.dest.contents =
      writer.dest.contents ++ (trailer writer.blockOffset ++ fragment.bytes) := by
  obtain ⟨delivers, whole⟩ := arrives
  obtain ⟨contents, _, _⟩ := emit_arrives fate (writer.switchBlock fate) fragment
  rw [contents, whole, take_of_length_le (by simp), ← append_assoc,
    switchBlock_delivers fate flushed delivers, append_assoc]

/-- Nothing but a failure can vanish. -/
theorem emit_vanished (fate : Nat → Fate) (vanishes : Vanishes fate writer fragment) :
    let emitted := emitPhysicalRecord fate (writer.switchBlock fate) fragment.type
      fragment.payload
    emitted.2.dest.contents = writer.dest.contents ∧ emitted.1 ≠ .ok := by
  intro emitted
  obtain ⟨silent, none⟩ := vanishes
  obtain ⟨contents, _, whole⟩ := emit_arrives fate (writer.switchBlock fate) fragment
  constructor
  · rw [contents, none, take_zero, append_nil, switchBlock_silent fate silent]
  · intro good
    have size := fragment_size_pos fragment
    rw [none] at whole
    have := whole good
    simp only [kHeaderSize] at size
    omega

/-- The file after a fragment that arrived whole and in place. -/
theorem position_after (writer : Writer) (fragment : Fragment) (file : WritableFile)
    (contents : file.contents =
      writer.dest.contents ++ (trailer writer.dest.position ++ fragment.bytes)) :
    file.position % kBlockSize = (slot writer.dest.position + fragment.size) % kBlockSize := by
  have moved := trailer_slot writer.dest.position (position_le _)
  rw [position, contents, Nat.mod_mod]
  simp only [length_append, fragment_bytes_length]
  rw [← Nat.add_assoc, Nat.add_mod, Nat.add_mod writer.dest.contents.length,
    ← Nat.mod_mod writer.dest.contents.length, ← Nat.add_mod _ (trailer _).length, ←
    position, moved, ← Nat.add_mod]

section

variable (fate : Nat → Fate) {fragments : List Fragment} {writer : Writer}

/-- Fragments that land extend the file by the layout of some of the first ones,
and of all of them when the status is good. -/
theorem emitAll_lands (flushed : writer.dest.pending = []) (lands : Lands fate writer fragments) :
    ∃ done later, fragments = done ++ later ∧
      (emitAll fate writer fragments).2.dest.contents =
        writer.dest.contents ++ layout writer.dest.position done ∧
      Fits writer.dest.position done ∧
      (emitAll fate writer fragments).2.dest.pending = [] ∧
      ((emitAll fate writer fragments).1 = .ok → later = []) := by
  induction fragments generalizing writer with
  | nil => exact ⟨[], [], rfl, by simp [emitAll, layout], trivial, flushed, fun _ => rfl⟩
  | cons fragment rest ih =>
    obtain ⟨_, pending, _⟩ := emit_arrives fate (writer.switchBlock fate) fragment
    let emitted := emitPhysicalRecord fate (writer.switchBlock fate) fragment.type fragment.payload
    rcases lands with vanishes | ⟨arrives, inPlace, restLands⟩
    · obtain ⟨contents, failed⟩ := emit_vanished fate vanishes
      have stops : emitAll fate writer (fragment :: rest) = emitted :=
        if_neg (fun continued => failed continued.1)
      rw [stops]
      exact ⟨[], fragment :: rest, rfl, by simpa [layout] using contents, trivial, pending,
        fun good => absurd good failed⟩
    · have contents := emit_whole fate flushed arrives
      rw [inPlace.1] at contents
      by_cases continued : emitted.1 = .ok ∧ rest ≠ []
      · obtain ⟨done, later, split, restContents, restFits, restPending, complete⟩ :=
          ih pending (restLands continued.1)
        obtain ⟨sameLayout, sameFits, _⟩ := layout_congr (position_le _) inPlace.2
          (position_after writer fragment _ contents)
          done
        have goesOn : emitAll fate writer (fragment :: rest) = emitAll fate emitted.2 rest :=
          if_pos continued
        rw [goesOn]
        refine ⟨fragment :: done, later, by rw [split]; rfl, ?_, ?_, restPending, complete⟩
        · rw [restContents, contents, sameLayout, layout]
          simp
        · exact ⟨inPlace.2, sameFits.mp restFits⟩
      · have stops : emitAll fate writer (fragment :: rest) = emitted := if_neg continued
        rw [stops]
        refine ⟨[fragment], rest, rfl, ?_, ⟨inPlace.2, trivial⟩, pending, ?_⟩
        · rw [contents]
          simp [layout]
        · intro good
          by_contra remains
          exact continued ⟨good, remains⟩

/-- Whatever the device does, a good status means that the offset has moved over
all the fragments. -/
theorem emitAll_offset (good : (emitAll fate writer fragments).1 = .ok) :
    (emitAll fate writer fragments).2.blockOffset = finish writer.blockOffset fragments := by
  induction fragments generalizing writer with
  | nil => rfl
  | cons fragment rest ih =>
    have offset : (emitPhysicalRecord fate (writer.switchBlock fate) fragment.type
        fragment.payload).2.blockOffset = slot writer.blockOffset + fragment.size := by
      rw [emitPhysicalRecord_offset, switchBlock_offset, Fragment.size, Nat.add_assoc]
    simp only [emitAll] at good ⊢
    split at good
    next continued => rw [if_pos continued, ih good, finish, offset]
    next stopped =>
      have last : rest = [] := by
        by_contra remains
        exact stopped ⟨good, remains⟩
      rw [if_neg stopped, offset, last]
      rfl

end

/-- The writer's offset is the one the length of its flushed file gives. -/
structure Writer.Aligned (writer : Writer) : Prop where
  flushed : writer.dest.pending = []
  inside : writer.blockOffset ≤ kBlockSize
  offset : writer.dest.position % kBlockSize = writer.blockOffset % kBlockSize

/-- From an aligned writer, a device that never fails lands everything that fits. -/
theorem reliable_lands {fragments : List Fragment} (aligned : writer.Aligned)
    (fits : Fits writer.blockOffset fragments) : Lands reliable writer fragments := by
  induction fragments generalizing writer with
  | nil => trivial
  | cons fragment rest ih =>
    obtain ⟨slots, trailers⟩ := slot_congr (position_le writer.dest) aligned.inside
      aligned.offset
    have arrives : Arrives reliable writer fragment := by
      refine ⟨trivial, ?_⟩
      simp [emitArrives, reliable, Fragment.size, Nat.add_assoc]
    have inPlace : InPlace writer fragment := ⟨trailers.symm, by rw [slots]; exact fits.1⟩
    refine .inr ⟨arrives, inPlace, fun _ => ih ⟨?_, ?_, ?_⟩ ?_⟩
    · exact (emit_arrives reliable (writer.switchBlock reliable) fragment).2.1
    · rw [emitPhysicalRecord_offset, switchBlock_offset, Nat.add_assoc]
      exact fits.1
    · have contents := emit_whole reliable aligned.flushed arrives
      rw [inPlace.1] at contents
      rw [position_after writer fragment _ contents, emitPhysicalRecord_offset,
        switchBlock_offset, slots, Fragment.size, Nat.add_assoc]
    · rw [emitPhysicalRecord_offset, switchBlock_offset, Nat.add_assoc]
      exact fits.2

theorem emitAll_reliable (fragments : List Fragment) (writer : Writer) :
    (emitAll reliable writer fragments).1 = .ok := by
  induction fragments generalizing writer with
  | nil => rfl
  | cons fragment rest ih =>
    simp only [emitAll]
    split
    · exact ih _
    · rfl

/-- The fragments of consecutive records, each cut from the offset at which the
previous one ended. -/
def recordFragments : Nat → List Bytes → List Fragment
  | _, [] => []
  | offset, record :: rest =>
      fragments offset true record ++
        recordFragments (finish offset (fragments offset true record)) rest

section

variable (offset : Nat) (records : List Bytes)

theorem recordFragments_real : Real (recordFragments offset records) := by
  induction records generalizing offset with
  | nil => simp [recordFragments, Real]
  | cons record rest ih =>
    intro fragment mem
    rcases mem_append.mp mem with mem | mem
    · exact fragments_real offset true record fragment mem
    · exact ih _ fragment mem

theorem recordFragments_fit : Fits offset (recordFragments offset records) := by
  induction records generalizing offset with
  | nil => trivial
  | cons record rest ih => exact fits_append.mpr ⟨fragments_fit offset true record, ih _⟩

/-- Consecutive records are assembled to themselves, and each begins where no
record is under construction. -/
theorem assemble_recordFragments :
    assemble none (recordFragments offset records) = (records, none) ∧
      Proper none (recordFragments offset records) := by
  induction records generalizing offset with
  | nil => exact ⟨rfl, trivial⟩
  | cons record rest ih =>
    obtain ⟨assembled, proper⟩ := ih (finish offset (fragments offset true record))
    refine ⟨?_, ?_⟩
    · simp [recordFragments, assemble_append, assemble_fragments, assembled]
    · rw [recordFragments, proper_append, assemble_fragments]
      exact ⟨proper_fragments offset record, proper⟩

end

/-- On a reliable device a call succeeds, the file grows by the layout of the
record's fragments, and the writer stays aligned. -/
theorem addRecord_reliable (record : Bytes) (aligned : writer.Aligned) :
    (addRecord reliable writer record).1 = .ok ∧
      (addRecord reliable writer record).2.dest.contents = writer.dest.contents ++
        layout writer.blockOffset (fragments writer.blockOffset true record) ∧
      (addRecord reliable writer record).2.blockOffset =
        finish writer.blockOffset (fragments writer.blockOffset true record) ∧
      (addRecord reliable writer record).2.Aligned := by
  rw [addRecord, addRecordLoop_emitAll]
  have fits := fragments_fit writer.blockOffset true record
  have good := emitAll_reliable (fragments writer.blockOffset true record) writer
  have offset := emitAll_offset reliable good
  obtain ⟨done, _, split, contents, _, pending, complete⟩ :=
    emitAll_lands reliable aligned.flushed
      (reliable_lands aligned fits)
  have whole : done = fragments writer.blockOffset true record := by
    rw [split, complete good, append_nil]
  obtain ⟨sameLayout, _, _⟩ := layout_congr (position_le _) aligned.inside aligned.offset done
  rw [sameLayout, whole] at contents
  refine ⟨good, contents, offset, pending, ?_, ?_⟩
  · rw [offset]
    exact finish_le aligned.inside fits
  · rw [offset, ← layout_length aligned.inside fits, position, contents,
      Nat.mod_mod, length_append, Nat.add_mod, ← position,
      ← Nat.mod_eq_of_lt (show writer.dest.position < kBlockSize from Nat.mod_lt _ (by decide)),
      aligned.offset, ← Nat.add_mod]

theorem addRecords_reliable (writer : Writer) (records : List Bytes) (aligned : writer.Aligned) :
    (addRecords reliable writer records).2.dest.contents = writer.dest.contents ++
        layout writer.blockOffset (recordFragments writer.blockOffset records) := by
  induction records generalizing writer with
  | nil => simp [addRecords, recordFragments, layout]
  | cons record rest ih =>
    obtain ⟨_, contents, offset, stillAligned⟩ := addRecord_reliable record aligned
    have restContents := ih _ stillAligned
    simp only [addRecords, recordFragments, layout_append]
    rw [restContents, offset, contents, append_assoc]

end CodeReading.Leveldb.Log
