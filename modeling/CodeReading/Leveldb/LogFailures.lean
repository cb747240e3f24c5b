import CodeReading.Leveldb.LogRoundTrip

/-!
# Writing on after a failure

A writer whose device failed may be used again: `DBImpl::Write` returns the error
to its caller and appends the next batch to the same log. Records acknowledged
later survive when every fragment either reached the file whole and in place or
not at all. A fragment that was left half written in front of them makes the
reader misread what follows.
-/

namespace CodeReading.Leveldb.Log

open List

/-- The records whose call returned OK, in the order of the calls. -/
def acknowledged (slices : List Bytes) (statuses : List Status) : List Bytes :=
  ((slices.zip statuses).filter fun call => call.2 = .ok).map Prod.fst

/-- Every call of the run lands its fragments. -/
def RunLands (fate : Nat → Fate) : Writer → List Bytes → Prop
  | _, [] => True
  | writer, slice :: rest =>
      Lands fate writer (fragments writer.blockOffset true slice) ∧
        RunLands fate (addRecord fate writer slice).2 rest

variable {writer : Writer}

/-- A file is never shortened, and no call leaves bytes pending. -/
theorem emitAll_grows (fate : Nat → Fate) (fragments : List Fragment)
    (flushed : writer.dest.pending = []) :
    writer.dest.contents <+: (emitAll fate writer fragments).2.dest.contents ∧
      (emitAll fate writer fragments).2.dest.pending = [] := by
  induction fragments generalizing writer with
  | nil => exact ⟨prefix_refl _, flushed⟩
  | cons fragment rest ih =>
    have switched : writer.dest.contents <+: (writer.switchBlock fate).dest.contents := by
      rw [switchBlock_dest]
      split
      · exact prefix_refl _
      · unfold WritableFile.append
        split
        · exact prefix_refl _
        · exact prefix_append _ _
    obtain ⟨contents, pending, _⟩ := emit_arrives fate (writer.switchBlock fate) fragment
    have emitted := switched.trans (contents ▸ prefix_append _ _)
    simp only [emitAll]
    split
    · obtain ⟨grows, rest⟩ := ih pending
      exact ⟨emitted.trans grows, rest⟩
    · exact ⟨emitted, pending⟩

theorem addRecords_grows (fate : Nat → Fate) (slices : List Bytes) (writer : Writer)
    (flushed : writer.dest.pending = []) :
    writer.dest.contents <+: (addRecords fate writer slices).2.dest.contents := by
  induction slices generalizing writer with
  | nil => exact prefix_refl _
  | cons slice rest ih =>
    obtain ⟨grows, pending⟩ := emitAll_grows fate (fragments writer.blockOffset true slice) flushed
    rw [← addRecordLoop_emitAll, ← addRecord] at grows pending
    exact grows.trans (ih _ pending)

variable {before : List Fragment}

section

variable (fate : Nat → Fate) (flushed : writer.dest.pending = [])
  (image : Image [] writer.dest.contents before)
include fate flushed image

/-- One call that lands. The file stays an image; if the call is acknowledged the
added fragments complete its record, whatever an earlier failure left unfinished. -/
theorem addRecord_lands {slice : Bytes}
    (lands : Lands fate writer (fragments writer.blockOffset true slice)) :
    ∃ added, Image [] (addRecord fate writer slice).2.dest.contents (before ++ added) ∧
      (addRecord fate writer slice).2.dest.pending = [] ∧
      ((addRecord fate writer slice).1 = .ok →
        ∀ pending, (assemble pending added).1 = [slice]) := by
  rw [addRecord, addRecordLoop_emitAll]
  obtain ⟨done, _, split, contents, fits, pending, complete⟩ := emitAll_lands fate flushed lands
  have real : Real done := by
    intro fragment mem
    apply fragments_real writer.blockOffset true slice
    rw [split]
    exact mem_append_left _ mem
  refine ⟨done, ?_, pending, ?_⟩
  · rw [contents]
    exact image_extend image done fits real
  · intro good pending
    rw [complete good, append_nil] at split
    rw [← split, assemble_fragments]

/-- A run that lands leaves an image whose fragments form at least the
acknowledged records, in order. -/
theorem addRecords_lands {slices : List Bytes} (lands : RunLands fate writer slices) :
    ∃ added, Image [] (addRecords fate writer slices).2.dest.contents (before ++ added) ∧
      (addRecords fate writer slices).2.dest.pending = [] ∧
      ∀ pending, (acknowledged slices (addRecords fate writer slices).1).Sublist
        (assemble pending added).1 := by
  induction slices generalizing writer before with
  | nil => exact ⟨[], by rwa [append_nil], flushed, fun _ => List.Sublist.refl _⟩
  | cons slice rest ih =>
    obtain ⟨first, firstImage, firstFlushed, firstRecord⟩ :=
      addRecord_lands fate flushed image lands.1
    obtain ⟨others, othersImage, othersFlushed, othersRecords⟩ := ih firstFlushed firstImage lands.2
    rw [append_assoc] at othersImage
    refine ⟨first ++ others, othersImage, othersFlushed, ?_⟩
    intro pending
    have tail := othersRecords (assemble pending first).2
    rw [assemble_append]
    by_cases good : (addRecord fate writer slice).1 = .ok
    · rw [firstRecord good pending]
      simpa [addRecords, acknowledged, good] using tail
    · have dropped : acknowledged (slice :: rest) (addRecords fate writer (slice :: rest)).1 =
          acknowledged rest (addRecords fate (addRecord fate writer slice).2 rest).1 := by
        simp [addRecords, acknowledged, good]
      rw [dropped]
      exact tail.trans (sublist_append_right _ _)

end

/-- What an image's fragments form is read back whatever bytes follow it. -/
theorem image_reads (contents rest : Bytes) (fragments : List Fragment)
    (image : Image [] contents fragments) :
    (assemble none fragments).1 <+: (Reader.create (contents ++ rest) true 0).readAll.1 := by
  have body : contents ++ rest = layout 0 fragments ++ rest := by
    rw [image.contents, nil_append]
  obtain ⟨_, atBlock, sameDrain, _⟩ := create_drain (contents ++ rest)
  obtain ⟨_, _, _, _, drained, _⟩ := drain_layout .start
    (body ▸ atBlock) image.fits image.real
  rw [sameDrain, drained]
  exact prefix_append _ _

theorem addRecords_append (fate : Nat → Fate) (writer : Writer) (left right : List Bytes) :
    (addRecords fate writer (left ++ right)).2 =
      (addRecords fate (addRecords fate writer left).2 right).2 := by
  induction left generalizing writer with
  | nil => rfl
  | cons slice rest ih => exact ih _

/-- The records a reader finds after a run of calls on a new file. -/
def recovered (fate : Nat → Fate) (slices : List Bytes) : List Bytes :=
  (Reader.create (addRecords fate (.create (.holding [])) slices).2.dest.contents true 0).readAll.1

/-- Acknowledged records survive the failures of a run in which every fragment
lands, and whatever a later continuation of the run does to the file. -/
theorem acknowledged_recovered (fate : Nat → Fate) (slices later : List Bytes)
    (lands : RunLands fate (.create (.holding [])) slices) :
    (acknowledged slices (addRecords fate (.create (.holding [])) slices).1).Sublist
      (recovered fate (slices ++ later)) := by
  obtain ⟨_, image, flushed, records⟩ := addRecords_lands fate rfl (image_base (by decide)) lands
  obtain ⟨rest, grown⟩ := addRecords_grows fate later _ flushed
  rw [recovered, addRecords_append, ← grown]
  exact (records none).trans (image_reads _ rest _ image).sublist

/-- A device that fails only its first call, after some bytes. -/
def failsFirst (written : Nat) : Nat → Fate
  | 0 => .fail written
  | _ => .succeed

theorem fragments_empty (offset : Nat) : fragments offset true [] = [⟨.fullType, []⟩] := by
  rw [fragments]
  simp [fragmentType]

/-- A first call that fails without writing anything does no harm to the second. -/
theorem acknowledged_recovered_vanished :
    RunLands (failsFirst 0) (.create (.holding [])) [[], []] ∧
      [[]].Sublist (recovered (failsFirst 0) [[], []]) := by
  have first : addRecord (failsFirst 0) (.create (.holding [])) [] =
      (.ioError "Append", ⟨⟨[], [], 1⟩, 7⟩) := by
    rw [addRecord, addRecordLoop_emitAll, fragments_empty]
    rfl
  have second : (addRecord (failsFirst 0) ⟨⟨[], [], 1⟩, 7⟩ []).1 = .ok := by
    rw [addRecord, addRecordLoop_emitAll, fragments_empty]
    rfl
  have lands : RunLands (failsFirst 0) (.create (.holding [])) [[], []] := by
    refine ⟨?_, ?_, trivial⟩
    · rw [fragments_empty]
      exact .inl ⟨.inl rfl, by decide⟩
    · rw [first, fragments_empty]
      exact .inr ⟨⟨trivial, by decide⟩, ⟨by decide, by decide⟩, fun _ => trivial⟩
  refine ⟨lands, ?_⟩
  have survives := acknowledged_recovered (failsFirst 0) [[], []] [] lands
  simpa [addRecords, first, second, acknowledged] using survives

/-- Behind three bytes of a header, the next record's header is misread: its length
is taken from the wrong bytes and points behind the end of the file. -/
theorem torn_header_hides :
    (Reader.create ((header .fullType []).take 3 ++ header .fullType []) true 0).readAll.1 = [] := by
  obtain ⟨entered, atBlock, sameDrain, _⟩ :=
    create_drain ((header .fullType []).take 3 ++ header .fullType [])
  have ends : EndsQuietly entered := ends_incomplete atBlock (by decide) (by decide)
    (by rw [header_empty]; decide)
  obtain ⟨_, ended, _⟩ := drain_end .start ends
  rw [sameDrain, ended]

/-- Three bytes of a header that failed stand in front of the next record, whose
call succeeds. The reader takes its length from the wrong bytes and finds nothing. -/
theorem acknowledged_not_recovered :
    acknowledged [[], []] (addRecords (failsFirst 3) (.create (.holding [])) [[], []]).1 = [[]] ∧
      recovered (failsFirst 3) [[], []] = [] := by
  have first : addRecord (failsFirst 3) (.create (.holding [])) [] =
      (.ioError "Append", ⟨⟨(header .fullType []).take 3, [], 1⟩, 7⟩) := by
    rw [addRecord, addRecordLoop_emitAll, fragments_empty]
    rfl
  have second : addRecord (failsFirst 3) ⟨⟨(header .fullType []).take 3, [], 1⟩, 7⟩ [] =
      (.ok, ⟨⟨(header .fullType []).take 3 ++ header .fullType [], [], 4⟩, 14⟩) := by
    rw [addRecord, addRecordLoop_emitAll, fragments_empty]
    rfl
  constructor
  · simp [addRecords, first, second, acknowledged]
  · simp only [recovered, addRecords, first, second]
    exact torn_header_hides

end CodeReading.Leveldb.Log
