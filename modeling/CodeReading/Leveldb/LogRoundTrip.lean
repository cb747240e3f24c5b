import CodeReading.Leveldb.LogFragments

/-!
# A log reads back as it was written

A file grows by sessions: a writer is opened on its current length, adds some
records, and is closed. The sessions' boundaries leave no trace in the layout,
because the block offset is the file length modulo the block size. A file may
start out with blank blocks, as preallocation leaves them; the reader passes over
them in silence. Sessions appended behind any other block-aligned contents are
laid out as in a file of their own.
-/

namespace CodeReading.Leveldb.Log

open List Nat

/-- Open the file for append, add the records, close it. -/
def appendSession (contents : Bytes) (records : List Bytes) : Bytes :=
  (addRecords reliable (Writer.reopen (.holding contents) contents.length) records).2.dest.contents

def writeSessions (contents : Bytes) (sessions : List (List Bytes)) : Bytes :=
  sessions.foldl appendSession contents

/-- A region of zero bytes that spans whole blocks. -/
def blank (blocks : Nat) : Bytes := List.replicate (blocks * kBlockSize) 0

/-- The file holds the laid out fragments behind some block-aligned bytes. -/
structure Image (base contents : Bytes) (fragments : List Fragment) : Prop where
  aligned : base.length % kBlockSize = 0
  contents : contents = base ++ layout 0 fragments
  fits : Fits 0 fragments
  real : Real fragments

variable {base : Bytes}

theorem image_base (aligned : base.length % kBlockSize = 0) : Image base base [] :=
  ⟨aligned, by simp [layout], trivial, by simp [Real]⟩

variable {contents : Bytes} {fragments : List Fragment}

section

variable (image : Image base contents fragments)
include image

/-- The next free position is the file length modulo the block size. -/
theorem image_offset : contents.length % kBlockSize = finish 0 fragments % kBlockSize := by
  have body := layout_length (Nat.zero_le _) image.fits
  rw [image.contents, length_append, Nat.add_mod, image.aligned, Nat.zero_add,
    Nat.mod_mod, ← body, Nat.zero_add]

/-- Fragments laid out from the file's own length continue the image. -/
theorem image_extend (added : List Fragment) (fits : Fits (contents.length % kBlockSize) added)
    (real : Real added) : Image base (contents ++ layout (contents.length % kBlockSize) added)
      (fragments ++ added) := by
  have start : contents.length % kBlockSize ≤ kBlockSize := Nat.le_of_lt (Nat.mod_lt _ (by decide))
  have finished := finish_le (zero_le _) image.fits
  have same : contents.length % kBlockSize % kBlockSize = finish 0 fragments % kBlockSize := by
    rw [mod_mod, image_offset image]
  obtain ⟨sameLayout, sameFits, _⟩ := layout_congr start finished same added
  refine ⟨image.aligned, ?_, ?_, ?_⟩
  · rw [sameLayout, layout_append, ← append_assoc, ← image.contents]
  · exact fits_append.mpr ⟨image.fits, sameFits.mp fits⟩
  · intro fragment mem
    rcases mem_append.mp mem with mem | mem
    · exact image.real fragment mem
    · exact real fragment mem

/-- A session extends the image by the fragments of its records: reopening at the
file length continues where the previous writer stopped. -/
theorem appendSession_image (records : List Bytes) : Image base (appendSession contents records)
      (fragments ++ recordFragments (contents.length % kBlockSize) records) := by
  have inside : contents.length % kBlockSize ≤ kBlockSize := Nat.le_of_lt (Nat.mod_lt _ (by decide))
  have appended :=
    addRecords_reliable (Writer.reopen (.holding contents) contents.length) records
      ⟨rfl, inside, rfl⟩
  rw [appendSession, appended]
  exact image_extend image _ (recordFragments_fit _ records) (recordFragments_real _ records)

/-- All sessions together leave an image whose fragments form exactly the records
added, in order, none of them abandoned. -/
theorem writeSessions_image (sessions : List (List Bytes))
    (assembled : assemble none fragments = (old, none)) (proper : Proper none fragments) :
    ∃ extended, Image base (writeSessions contents sessions) extended ∧
      assemble none extended = (old ++ sessions.flatten, none) ∧ Proper none extended := by
  induction sessions generalizing contents fragments old with
  | nil => exact ⟨fragments, image, by simpa using assembled, proper⟩
  | cons records rest ih =>
    obtain ⟨added, addedProper⟩ := assemble_recordFragments (contents.length % kBlockSize) records
    have extendedAssembled : assemble none (fragments ++
        recordFragments (contents.length % kBlockSize) records) = (old ++ records, none) := by
      simp [assemble_append, assembled, added]
    have extendedProper : Proper none (fragments ++
        recordFragments (contents.length % kBlockSize) records) := by
      rw [proper_append, assembled]
      exact ⟨proper, addedProper⟩
    obtain ⟨extended, result, records', proper'⟩ := ih
      (appendSession_image image records) extendedAssembled
      extendedProper
    refine ⟨extended, result, ?_, proper'⟩
    rw [records', flatten_cons, append_assoc]

end

/-- A block the reader gives up on is left behind whole: it stands in front of
the next block, with nothing buffered. -/
theorem positioned_dropBlock (positioned : Positioned reader offset (skipped ++ stream))
    (length : skipped.length = kBlockSize - offset) :
    Positioned { reader with buffer := [] } kBlockSize stream := by
  refine { positioned with inside := Nat.le_refl _, buffer := by simp, rest := ?_, eof := ?_ }
  · simp only [Nat.sub_self, drop_zero]
    rw [positioned.rest, ← length, drop_left]
  · rw [positioned.eof]
    simp [length]

/-- One blank block reads as a zero-length record of the reserved type. The
reader drops the block without a report and goes on behind it. -/
theorem drain_blankBlock (positioned : Positioned reader kBlockSize (zeros ++ stream))
    (length : zeros.length = kBlockSize) (blank : ∀ index, zeros.getD index 0 = 0) :
    ∃ next, Positioned next kBlockSize stream ∧
      reader.drain .start = next.drain .start ∧ next.drops = reader.drops := by
  obtain ⟨entered, sameRead, atBlock, kept⟩ := read_nextBlock reader kBlockSize []
    (zeros ++ stream) positioned (by decide) (by simp)
  have buffered : entered.buffer = zeros := by
    rw [atBlock.buffer, Nat.sub_zero, ← length, take_left]
  have filled : ¬ entered.buffer.length < kHeaderSize := by
    rw [buffered, length]
    decide
  have field : headerLength entered.buffer = 0 := by
    simp only [headerLength, buffered, blank]
    rfl
  have type : signExtend (entered.buffer.getD 6 0) = RecordType.zeroType.code := by
    rw [buffered, blank]
    rfl
  have read : reader.readPhysicalRecord = (kBadRecord, [], { entered with buffer := [] }) := by
    rw [sameRead, Reader.readPhysicalRecord, if_neg filled, Reader.parsePhysicalRecord]
    simp only [field, type, Nat.add_zero, if_neg filled, true_and, if_true]
  have behind : Positioned { entered with buffer := [] } kBlockSize stream :=
    positioned_dropBlock atBlock (by rw [length, Nat.sub_zero])
  refine ⟨{ entered with buffer := [] }, behind, ?_, kept⟩
  rw [drain_turn, turn_read .start read behind.synced]
  simp [Reader.dispatch, kBadRecord, kEof, kMaxRecordType, RecordType.code, Assembly.start]

theorem zeros_getD (count index : Nat) : (replicate count (0 : UInt8)).getD index 0 = 0 := by
  rw [getD_eq_getElem?_getD, getElem?_replicate]
  split <;> rfl

variable {blocks : Nat}

theorem drain_blank (positioned : Positioned reader kBlockSize (blank blocks ++ stream)) :
    ∃ next, Positioned next kBlockSize stream ∧
      reader.drain .start = next.drain .start ∧ next.drops = reader.drops := by
  induction blocks generalizing reader with
  | zero => exact ⟨reader, by simpa [blank] using positioned, rfl, rfl⟩
  | succ blocks ih =>
    have split : blank (blocks + 1) ++ stream =
        replicate kBlockSize 0 ++ (blank blocks ++ stream) := by
      rw [blank, blank, Nat.add_mul, Nat.one_mul, Nat.add_comm, replicate_add, append_assoc]
    rw [split] at positioned
    obtain ⟨_, moved, same, kept⟩ := drain_blankBlock positioned
      length_replicate (zeros_getD kBlockSize)
    obtain ⟨next, atEnd, sameRest, keptRest⟩ := ih moved
    exact ⟨next, atEnd, same.trans sameRest, keptRest.trans kept⟩

/-- A reader over an image behind blank blocks returns the records the fragments
form and then ends for good; it reports nothing when the fragments are proper. -/
theorem image_readAll (image : Image (blank blocks) contents fragments) :
    let reader := Reader.create contents true 0
    reader.readAll.1 = (assemble none fragments).1 ∧ Exhausted reader.readAll.2 ∧
      (Proper none fragments → reader.readAll.2.drops = []) := by
  intro reader
  have created := create_positioned contents
  rw [image.contents] at created
  obtain ⟨_, atStart, sameDrain, startDrops⟩ := drain_blank created
  obtain ⟨sameLayout, sameFits, _⟩ := layout_congr (Nat.zero_le _) (Nat.le_refl _)
    (by decide) fragments
  rw [sameLayout, ← append_nil (layout kBlockSize fragments)] at atStart
  obtain ⟨_, assembly, atEnd, _, drained, quiet⟩ := drain_layout
    .start atStart (sameFits.mp image.fits) image.real
  obtain ⟨final, ended, exhausted, endDrops⟩ := drain_end assembly
    (ends_short atEnd (by decide) (zero_le _))
  have all : reader.readAll = ((assemble none fragments).1, final) := by
    rw [readAll_drain rfl]
    have start : reader = Reader.create (blank blocks ++ layout 0 fragments) true 0 := by
      rw [← image.contents]
    rw [start, sameDrain, drained, ended]
    simp [Assembly.pending, Assembly.start]
  rw [all]
  refine ⟨rfl, exhausted, ?_⟩
  intro proper
  rw [endDrops, quiet proper, startDrops]
  rfl

/-- Call by call: the image's records, then failures only, and nothing reported. -/
def ReadsBack (contents : Bytes) (records : List Bytes) (calls : Nat) : Prop :=
  let outcome := (Reader.create contents true 0).readCalls (records.length + (calls + 1))
  outcome.1 = records.map some ++ List.replicate (calls + 1) none ∧ outcome.2.drops = []

theorem image_readsBack (calls : Nat) (image : Image (blank blocks) contents fragments)
    (assembled : assemble none fragments = (records, none)) (proper : Proper none fragments) :
    ReadsBack contents records calls := by
  obtain ⟨all, exhausted, quiet⟩ := image_readAll image
  have results := readCalls_readAll calls exhausted
  rw [all, assembled] at results
  constructor
  · rw [results]
  · rw [results]
    exact quiet proper

/-- A reader returns exactly the records added in however many sessions, in
order, then fails on every further call, and reports nothing. The file may start
out as any number of blank blocks, or as a log that earlier sessions wrote; behind
any other contents that end on a block boundary, the added bytes are such a log by
themselves. -/
theorem writeSessions_readsBack (blocks : Nat) (old new : List (List Bytes)) (calls : Nat) :
    ReadsBack (writeSessions (writeSessions (blank blocks) old) new)
        (old.flatten ++ new.flatten) calls ∧
      ∀ base : Bytes, base.length % kBlockSize = 0 →
        ∃ added, writeSessions base new = base ++ added ∧
          ReadsBack added new.flatten calls := by
  constructor
  · have aligned : (blank blocks).length % kBlockSize = 0 := by
      rw [blank, length_replicate, mul_mod_left]
    obtain ⟨_, firstImage, firstRecords, firstProper⟩ :=
      writeSessions_image (image_base aligned) old rfl trivial
    obtain ⟨all, image, records, proper⟩ := writeSessions_image firstImage
      new firstRecords firstProper
    exact image_readsBack calls image (by simpa using records) proper
  · intro base aligned
    obtain ⟨all, image, records, proper⟩ := writeSessions_image (image_base aligned)
      new rfl trivial
    refine ⟨layout 0 all, image.contents, ?_⟩
    have alone : Image (blank 0) (layout 0 all) all :=
      ⟨by simp [blank], by simp [blank], image.fits, image.real⟩
    exact image_readsBack calls alone (by simpa using records) proper

theorem writeSessions_readsBack_empty :
    ([] : Bytes).length % kBlockSize = 0 ∧
      ∃ added, writeSessions [] [[[1, 2], []], [[3]]] = [] ++ added ∧
        ReadsBack added [[1, 2], [], [3]] 0 :=
  ⟨rfl, (writeSessions_readsBack 0 [] [[[1, 2], []], [[3]]] 0).2 [] rfl⟩

end CodeReading.Leveldb.Log
