import CodeReading.Leveldb.Levels
import CodeReading.Leveldb.SeekCompaction

/-!
# Which runs keep the levels disjoint and ordered by age

Every step keeps the current version tiered and the inputs of the compaction in progress
reserved, with one exception. While a manual compaction is in progress, a flush may
choose its output level for a memtable whose user keys fall into a gap between the inputs.
The outputs of the compaction then close over the new table.
-/

namespace CodeReading.Leveldb

open Option List

variable {Key Value : Type} [LinearOrder Key]

/-- A compaction in progress, seen from the current version: its inputs are reserved, and
what it has written and has still to read are their items in order. -/
structure Progress (tables : Nat → Option (List (Item Key Value))) (version : Version Key)
    (running : Running Key Value) : Prop where
  reserved : Reserved tables version running.compaction
  connected : running.isManual = false → Connected running.compaction
  sorted : Sorted (running.work.written ++ running.input)
  sourced : ∀ item ∈ running.work.written ++ running.input,
    ∃ input ∈ running.compaction.inputs0 ++ running.compaction.inputs1,
      item ∈ contents tables input

/-- The database keeps its levels in order. -/
structure Orderly (db : Db Key Value) : Prop where
  bounded : db.versions.lastSequence ≤ kMaxSequenceNumber
  tiered : Tiered db.disk.table db.versions.current
  dated : Dated db.disk.table db.versions.current
  running : ∀ running ∈ db.running, Progress db.disk.table db.versions.current running

/-- The user keys of the memtable fall between inputs of the compaction and meet none. -/
def FillsGap (compaction : Compaction Key) (mem : MemTable Key Value) : Prop :=
  ∃ first ∈ mem.head?, ∃ last ∈ mem.getLast?,
    (∀ file ∈ compaction.inputs0 ++ compaction.inputs1,
      Apart first.key.userKey last.key.userKey file) ∧
    (∃ file ∈ compaction.inputs0 ++ compaction.inputs1, file.largest.userKey < first.key.userKey) ∧
    ∃ file ∈ compaction.inputs0 ++ compaction.inputs1, last.key.userKey < file.smallest.userKey

/-- The step is not a flush into a gap between the inputs of a manual compaction. -/
def Undisturbed (db : Db Key Value) : Event Key Value → Prop
  | .compactMemTable => ∀ running ∈ db.running, running.isManual = true →
      ∀ imm ∈ db.imm, ¬ FillsGap running.compaction imm
  | _ => True

instance (compaction : Compaction Key) (mem : MemTable Key Value) :
    Decidable (FillsGap compaction mem) :=
  inferInstanceAs (Decidable (∃ first ∈ mem.head?, ∃ last ∈ mem.getLast?,
    (∀ file ∈ compaction.inputs0 ++ compaction.inputs1, _ ∨ _) ∧ _))

instance (db : Db Key Value) : ∀ event : Event Key Value, Decidable (Undisturbed db event)
  | .compactMemTable =>
      inferInstanceAs (Decidable (∀ running ∈ db.running, running.isManual = true →
        ∀ imm ∈ db.imm, ¬ FillsGap running.compaction imm))
  | .write _ | .switchMemTable | .startCompaction _ | .turn | .install | .removeObsoleteFiles _
  | .getSnapshot | .releaseSnapshot _ | .reopen => isTrue trivial

section

variable {tables after : Nat → Option (List (Item Key Value))} {version : Version Key}

theorem progress_sourced {next : Version Key} (progress : Progress tables version running)
    (kept : ∀ level, ∀ file ∈ version.files level, contents after file = contents tables file)
    (reserved : Reserved after next running.compaction) : Progress after next running := by
  refine { progress with reserved := reserved, sourced := ?_ }
  intro item member
  obtain ⟨input, isInput, _⟩ := progress.sourced item member
  obtain ⟨level, atLevel⟩ := (isInput_iff _ input).mp isInput
  refine ⟨input, isInput, ?_⟩
  rwa [kept level input (progress.reserved.present level input atLevel)]

section

variable (kept : ∀ level, ∀ file ∈ version.files level, after file.number = tables file.number)
include kept

/-- Neither the order of the levels nor a compaction depends on tables outside of the
version. -/
theorem tiered_congr (tiered : Tiered tables version) : Tiered after version := by
  have same : ∀ level, ∀ file ∈ version.files level, contents after file = contents tables file :=
    fun level file member => congrArg (getD · []) (kept level file member)
  refine ⟨tiered.ascend, ?_, ?_⟩
  · intro upper lower less file member deeper inside
    rw [same upper file member, same lower deeper inside]
    exact tiered.recent.levels upper lower less file member deeper inside
  · intro file member other inside
    rw [same 0 file member, same 0 other inside]
    exact tiered.recent.zero file member other inside

theorem dated_congr (dated : Dated tables version) : Dated after version := by
  intro upper lower file member other inside left leftHeld right rightHeld
  rw [contents, kept upper file member] at leftHeld
  rw [contents, kept lower other inside] at rightHeld
  exact dated upper lower file member other inside left leftHeld right rightHeld

theorem progress_congr (progress : Progress tables version running) :
    Progress after version running := by
  have same : ∀ level, ∀ file ∈ version.files level, contents after file = contents tables file :=
    fun level file member => congrArg (getD · []) (kept level file member)
  apply progress_sourced progress same
  refine { progress.reserved with above := ?_ }
  intro file member outside input isInput
  rw [same _ file member, same _ input (progress.reserved.present _ input (.inl ⟨rfl, isInput⟩))]
  exact progress.reserved.above file member outside input isInput

end

end

variable [Inhabited Value] {config : Config Key Value} {edits : List (VersionEdit Key)}
  {start : Nat} {immRecords memRecords : List (Batch Key Value)} {db : Db Key Value}

section

variable {imm : MemTable Key Value}

section

variable (valid : Valid config edits start immRecords memRecords db)
include valid

/-- The largest sequence numbers fit, since the last one does. -/
theorem largest_bounded (bounded : db.versions.lastSequence ≤ kMaxSequenceNumber)
    (member : file ∈ db.versions.current.files level) :
    file.largest.sequence ≤ kMaxSequenceNumber := by
  obtain ⟨last, isLast, ends⟩ := (sound_holds valid.stored.sound member).ends
  have aged := valid.stored.aged level file member last (mem_of_mem_getLast? isLast)
  rw [ends] at aged
  exact (aged.trans (numbered_le valid.logged.numbered)).trans bounded

/-- A flush that goes below level 0 meets no file down to its level. -/
theorem flush_apart (bounded : db.versions.lastSequence ≤ kMaxSequenceNumber)
    (ascend : LevelsAscend db.versions.current)
    (raised : 0 < flushLevel config.options db.versions.current (some file))
    (within : level ≤ flushLevel config.options db.versions.current (some file)) :
    ∀ old ∈ db.versions.current.files level,
      Apart file.smallest.userKey file.largest.userKey old :=
  overlapInLevel_apart (fun deep => ascend level deep.ne')
    (fun _ member => largest_bounded valid bounded member)
    (pickLevel_clear config.options db.versions.current _ _ raised within)

/-- A flush adds at most one table, newer than all others. -/
theorem flush_grown (orderly : Orderly db) (waiting : db.imm = some imm) :
    Grown db.disk.table (db.compactMemTable config imm).disk.table db.versions.current
      (db.compactMemTable config imm).versions.current
      (flushLevel config.options db.versions.current
        (buildTable config db.disk.tables db.versions.nextFileNumber imm).1)
      (buildTable config db.disk.tables db.versions.nextFileNumber imm).1.toList := by
  obtain ⟨_, flushed, _⟩ := numbered_append.mp valid.logged.numbered
  obtain rfl := (logged_imm valid.logged waiting).1
  have sorted := rebuild_sorted flushed
  obtain ⟨kept, tabled⟩ := buildTable_spec config db.disk.tables db.versions.nextFileNumber sorted
  have ahead : Recorded config.comparatorName start edits db.versions.takeNumber :=
    recorded_ahead valid.recorded rfl (Nat.le_succ _) le_rfl rfl rfl
  have built : ∀ file ∈ (buildTable config db.disk.tables db.versions.nextFileNumber
      (rebuild immRecords)).1.toList, file.number = db.versions.nextFileNumber ∧
        contents (db.compactMemTable config (rebuild immRecords)).disk.table file =
          rebuild immRecords ∧ Holds file (rebuild immRecords) := by
    intro file member
    obtain ⟨named, present, holds⟩ := tabled file (mem_toList.mp member)
    refine ⟨named, ?_, holds⟩
    rw [contents, named]
    exact congrArg (getD · []) present
  constructor
  · intro level file
    refine (adds_files (flush_adds valid sorted) (recorded_written ahead) valid.stored level
      file).trans ?_
    rw [flushEdit_deletedAt]
    simp [VersionSet.takeNumber]
  · intro level file member
    exact congrArg (getD · [])
      (kept _ (written_number (recorded_written valid.recorded) member).ne)
  · intro level old member file isNew _ recentMember older olderMember
    rw [(built file isNew).2.1] at recentMember
    have young := (numbered_bounds flushed ((rebuild_mem _ _).mp recentMember)).1
    exact (valid.stored.aged level old member older olderMember).trans_lt young
  · intro level shallow old member file isNew _ inside other otherInside same
    have new := mem_toList.mp isNew
    rw [show (buildTable config db.disk.tables db.versions.nextFileNumber
      (rebuild immRecords)).1 = some file from new] at shallow
    rw [(built file isNew).2.1] at inside
    have own := userKey_within (built file isNew).2.2 inside
    have others := userKey_within (sound_holds valid.stored.sound member) otherInside
    rw [← same] at others
    cases flush_apart valid orderly.bounded orderly.tiered.ascend (by omega)
      shallow.le old member with
    | inl before => exact absurd (others.2.trans_lt before) (not_lt.mpr own.1)
    | inr behind => exact absurd (behind.trans_le others.1) (not_lt.mpr own.2)
  · intro old member file isNew
    rw [(built file isNew).1]
    exact written_number (recorded_written valid.recorded) member
  · intro file isNew other otherNew less
    rw [(built file isNew).1, (built other otherNew).1] at less
    exact absurd less (lt_irrefl _)
  · intro file isNew other otherNew _ leftHeld _ rightHeld same
    rw [(built file isNew).2.1, rebuild_mem] at leftHeld
    rw [(built other otherNew).2.1, rebuild_mem] at rightHeld
    rw [numbered_unique flushed leftHeld rightHeld same]

end

omit [Inhabited Value] in
/-- An interval of user keys that meets no input lies on one side of all, if the inputs
are connected or the interval fills no gap. -/
theorem side_of_inputs {running : Running Key Value}
    (connected : running.isManual = false → Connected running.compaction)
    (undisturbed : running.isManual = true → ¬ FillsGap running.compaction imm)
    (holds : Holds file imm)
    (apart : ∀ input ∈ running.compaction.inputs0 ++ running.compaction.inputs1,
      Apart file.smallest.userKey file.largest.userKey input) :
    (∀ input ∈ running.compaction.inputs0 ++ running.compaction.inputs1,
        input.largest.userKey < file.smallest.userKey) ∨
      ∀ input ∈ running.compaction.inputs0 ++ running.compaction.inputs1,
        file.largest.userKey < input.smallest.userKey := by
  cases manual : running.isManual with
  | false => exact connected_side (connected manual) (smallest_le_largest_userKey file) apart
  | true =>
    obtain ⟨first, isFirst, starts⟩ := holds.starts
    obtain ⟨last, isLast, ends⟩ := holds.ends
    by_contra neither
    push Not at neither
    obtain ⟨⟨left, leftInput, notBefore⟩, right, rightInput, notBehind⟩ := neither
    apply undisturbed manual
    refine ⟨first, isFirst, last, isLast, ?_, ⟨right, rightInput, ?_⟩, left, leftInput, ?_⟩
    · rw [starts, ends]
      exact apart
    · rw [starts]
      exact (apart right rightInput).resolve_right (not_lt.mpr notBehind)
    · rw [ends]
      exact (apart left leftInput).resolve_left (not_lt.mpr notBefore)

section

variable (valid : Valid config edits start immRecords memRecords db) (orderly : Orderly db)
  (waiting : db.imm = some imm)
include valid orderly waiting

theorem flush_ascend : LevelsAscend (db.compactMemTable config imm).versions.current := by
  have grown := flush_grown valid orderly waiting
  obtain ⟨_, _, flushed⟩ := compactMemTable_valid valid waiting
  have ascend := orderly.tiered.ascend
  let table := (buildTable config db.disk.tables db.versions.nextFileNumber imm).1
  -- The new table avoids the old files of its level.
  have apart : ∀ level ≠ 0, ∀ old ∈ db.versions.current.files level, ∀ file,
      level = flushLevel config.options db.versions.current table → file ∈ table.toList →
      old.largest < file.smallest ∨ file.largest < old.smallest := by
    intro level deep old member file target isNew
    rw [show table = some file from mem_toList.mp isNew] at target
    cases flush_apart valid orderly.bounded ascend (target ▸ Nat.pos_of_ne_zero deep) target.le old
      member with
    | inl before => exact .inl (lt_of_userKey_lt before)
    | inr behind => exact .inr (lt_of_userKey_lt behind)
  intro level deep
  apply ascending_of_comparable (flushed.stored.ordered level)
  intro left leftMember right rightMember differ
  cases (grown.members level left).mp leftMember with
  | inl leftOld =>
    cases (grown.members level right).mp rightMember with
    | inl rightOld =>
      exact ascending_comparable (ascend level deep) left leftOld right rightOld differ
    | inr rightNew => exact apart level deep left leftOld right rightNew.1 rightNew.2
  | inr leftNew =>
    cases (grown.members level right).mp rightMember with
    | inl rightOld => exact (apart level deep right rightOld left leftNew.1 leftNew.2).symm
    | inr rightNew =>
      have same := (mem_toList.mp leftNew.2).symm.trans (mem_toList.mp rightNew.2)
      exact absurd (some.inj same) differ

theorem flush_progress {running : Running Key Value} (isRunning : running ∈ db.running)
    (undisturbed : running.isManual = true → ¬ FillsGap running.compaction imm) :
    Progress (db.compactMemTable config imm).disk.table
      (db.compactMemTable config imm).versions.current running := by
  have grown := flush_grown valid orderly waiting
  have progress := orderly.running running isRunning
  apply progress_sourced progress grown.kept
  apply grown_reserved grown progress.reserved
  intro target file isNew
  obtain ⟨_, flushed, _⟩ := numbered_append.mp valid.logged.numbered
  have sorted : Sorted imm := (logged_imm valid.logged waiting).1 ▸ rebuild_sorted flushed
  have new := mem_toList.mp isNew
  obtain ⟨_, _, holds⟩ :=
    (buildTable_spec config db.disk.tables db.versions.nextFileNumber sorted).2 file new
  rw [show (buildTable config db.disk.tables db.versions.nextFileNumber imm).1 = some file from new]
    at target
  have apart : ∀ input ∈ running.compaction.inputs0 ++ running.compaction.inputs1,
      Apart file.smallest.userKey file.largest.userKey input := by
    intro input isInput
    obtain ⟨level, atLevel⟩ := (isInput_iff _ input).mp isInput
    have within : level ≤ flushLevel config.options db.versions.current (some file) := by
      cases atLevel with
      | inl _ | inr _ => omega
    exact flush_apart valid orderly.bounded orderly.tiered.ascend (by omega) within input
      (progress.reserved.present level input atLevel)
  cases side_of_inputs progress.connected undisturbed holds apart with
  | inl before => exact .inr fun input isInput => lt_of_userKey_lt (before input isInput)
  | inr behind => exact .inl fun input isInput => lt_of_userKey_lt (behind input isInput)

theorem compactMemTable_orderly
    (undisturbed : ∀ running ∈ db.running, running.isManual = true → ¬ FillsGap running.compaction
      imm) : Orderly (db.compactMemTable config imm) := by
  constructor
  · exact orderly.bounded
  · exact ⟨flush_ascend valid orderly waiting,
      grown_recent (flush_grown valid orderly waiting) orderly.tiered.recent⟩
  · exact grown_dated (flush_grown valid orderly waiting) orderly.dated
  · intro running isRunning
    exact flush_progress valid orderly waiting isRunning (undisturbed running isRunning)

end

end

section

variable {compaction : Compaction Key}

omit [Inhabited Value] in
theorem request_selected {request : Request Key} (ascend : LevelsAscend versions.current)
    (found : request.pick options versions = some compaction) :
    Selected versions.current compaction ∧ (request.isManual = false → Connected compaction) := by
  cases request with
  | automatic trigger =>
    obtain ⟨selected, connected⟩ := pickCompaction_selected ascend found
    exact ⟨selected, fun _ => connected⟩
  | manual level begin finish =>
    refine ⟨compactRange_selected found ascend, ?_⟩
    intro automatic
    cases automatic

omit [Inhabited Value] in
theorem selected_reserved
    (sound : Sound tables version) (tiered : Tiered tables version) (dated : Dated tables version)
    (selected : Selected version compaction) : Reserved tables version compaction := by
  constructor
  · exact selected_present selected
  · intro file member outside
    exact selected_outside tiered.ascend selected member outside
  · intro file member outside input isInput newer newerHeld older olderHeld same
    have present := selected.closed0.subset input isInput
    have differ : file ≠ input := fun equal => outside (equal ▸ isInput)
    have keys := recent_keysApart sound tiered.ascend tiered.recent _ _ file member input present
      differ newer newerHeld older olderHeld
    -- An entry of the file that is not newer would draw the file into the inputs.
    have order : ¬ older.key < newer.key := fun less =>
      outside (closed_older sound tiered.ascend olderHeld newerHeld same less selected.closed0
        isInput member)
    have first : newer.key < older.key := lt_of_le_of_ne (not_lt.mp order) keys
    apply lt_of_le_of_ne (sequence_anti first.le same)
    intro equal
    exact keys (dated _ _ file member input present newer newerHeld older olderHeld equal.symm)

section

variable (valid : Valid config edits start immRecords memRecords db)
include valid

theorem start_orderly (orderly : Orderly db) (selected : Selected db.versions.current compaction)
    (connected : isManual = false → Connected compaction)
    (made : makeInputIterator db.disk.table compaction = some input)
    (smallestSnapshot : Nat) : Orderly { db.pointed compaction with
      running := some ⟨compaction, isManual, smallestSnapshot, input,
        Work.start compaction db.versions.nextFileNumber⟩ } := by
  have sound := valid.stored.sound
  have tiered := orderly.tiered
  have merged := makeInputIterator_merged sound
    (recent_keysApart sound tiered.ascend tiered.recent) selected
  rw [some.inj (merged.made.symm.trans made)] at merged
  refine ⟨orderly.bounded, tiered, orderly.dated, ?_⟩
  rintro running ⟨⟩
  constructor
  · exact selected_reserved sound tiered orderly.dated selected
  · exact connected
  · exact merged.sorted
  · intro item member
    exact (merged.mem item).mp member

theorem move_rearranged (drawn : Drawn db.versions.current compaction)
    (inputs0 : compaction.inputs0 = [file]) (inputs1 : compaction.inputs1 = [])
    (idle : db.running = none) : Rearranged db.disk.table db.versions.current
      ((db.pointed compaction).logAndApply (moveEdit compaction)).versions.current compaction
      [file] := by
  have sound := valid.stored.sound
  have member := drawn.subset0 file (inputs0 ▸ (.head _))
  obtain ⟨_, moved⟩ := move_valid valid drawn inputs0 idle
  have pointed := pointed_valid valid compaction
  have present : ∀ level input, IsInput compaction level input →
      input ∈ db.versions.current.files level := by
    intro level input isInput
    cases isInput with
    | inl first => exact first.1 ▸ drawn.subset0 input first.2
    | inr second => exact second.1 ▸ drawn.subset1 input second.2
  have deleted : ∀ level number, number ∈ (moveEdit compaction).deletedAt level ↔
      (level = compaction.level ∧ ∃ input ∈ compaction.inputs0, input.number = number) ∨
        level = compaction.level + 1 ∧ ∃ input ∈ compaction.inputs1, input.number = number := by
    intro level number
    obtain ⟨_, pointer⟩ := drawn.pointer
    have only : (moveEdit compaction).deletedFiles = [(compaction.level, file.number)] := by
      rw [moveEdit, inputs0]
      simp only [pointer]
      rfl
    rw [VersionEdit.deletedAt, only, inputs0, inputs1]
    by_cases here : level = compaction.level
    · simp [here, eq_comm]
    · simp [here, Ne.symm here]
  constructor
  · intro level other
    refine (adds_files (move_adds valid drawn inputs0) (recorded_written pointed.recorded)
      pointed.stored level other).trans (or_congr_left (and_congr_right fun inside => not_congr ?_))
    rw [deleted]
    exact deleted_isInput sound present inside
  · exact moved.stored.ordered
  · exact pairwise_singleton _ _
  · intro other only
    rw [mem_singleton.mp only]
    exact sound_holds sound member
  · intro other only _ inside
    rw [mem_singleton.mp only] at inside
    exact ⟨file, mem_append_left _ (inputs0 ▸ (.head _)), inside⟩

theorem move_orderly (orderly : Orderly db) (selected : Selected db.versions.current compaction)
    (drawn : Drawn db.versions.current compaction) (inputs0 : compaction.inputs0 = [file])
    (inputs1 : compaction.inputs1 = []) (idle : db.running = none) :
    Orderly ((db.pointed compaction).logAndApply (moveEdit compaction)) := by
  have rearranged := move_rearranged valid drawn inputs0 inputs1 idle
  have reserved := selected_reserved valid.stored.sound orderly.tiered orderly.dated selected
  constructor
  · exact orderly.bounded
  · exact rearranged_tiered reserved rearranged valid.stored.sound orderly.tiered
  · exact rearranged_dated reserved rearranged orderly.dated
  · intro running none
    rw [show ((db.pointed compaction).logAndApply (moveEdit compaction)).running = db.running from
      rfl, idle] at none
    cases none

theorem startCompaction_orderly {next : Db Key Value} (orderly : Orderly db)
    (idle : db.running = none)
    (started : db.startCompaction config request = some next) : Orderly next := by
  rw [Db.startCompaction] at started
  split at started
  · cases started
    exact orderly
  · rename_i compaction found
    obtain ⟨selected, connected⟩ := request_selected orderly.tiered.ascend found
    split at started
    · rename_i moves
      cases started
      simp only [Compaction.isTrivialMove, Bool.and_eq_true, decide_eq_true_eq] at moves
      obtain ⟨_, inputs0⟩ := length_eq_one_iff.mp moves.2.1.1
      have inputs1 := length_eq_zero_iff.mp moves.2.1.2
      exact move_orderly valid orderly selected (request_drawn found) inputs0 inputs1 idle
    · obtain ⟨_, made, rfl⟩ := map_eq_some_iff.mp started
      exact start_orderly valid orderly selected connected made _

variable {running : Running Key Value}

section

variable (orderly : Orderly db) (isRunning : db.running = some running)
include orderly isRunning

theorem turn_orderly {next : Db Key Value} (input : running.input = item :: rest)
    (turned : db.turn config running item rest = some next) : Orderly next := by
  have progress := orderly.running running isRunning
  have kept : ∀ level, ∀ file ∈ db.versions.current.files level,
      (db.disk.writeOutputs
        (running.turn config db.versions.nextFileNumber item).allOutputs).table file.number =
          db.disk.table file.number := by
    intro level file member
    rw [writeOutputs_table]
    exact turn_untouched valid isRunning item member
  rw [Db.turn] at turned
  obtain ⟨_, turned⟩ := ite_none_right_eq_some.mp turned
  cases turned
  -- The turn writes its entry or drops it.
  have fewer : ((running.turn config db.versions.nextFileNumber item).written ++ rest).Sublist
      (running.work.written ++ running.input) := by
    rw [Running.turn, turn_written, input, append_assoc]
    refine List.Sublist.append (List.Sublist.refl _) ?_
    split
    · exact sublist_cons_self item rest
    · exact List.Sublist.refl _
  refine ⟨orderly.bounded, tiered_congr kept orderly.tiered, dated_congr kept orderly.dated, ?_⟩
  rintro _ ⟨⟩
  have same := progress_congr kept progress
  refine ⟨same.reserved, same.connected, progress.sorted.sublist fewer, ?_⟩
  intro other member
  exact same.sourced other (fewer.subset member)

theorem install_rearranged :
    Rearranged db.disk.table db.versions.current (db.install config running).versions.current
      running.compaction (running.work.finishOutput.outputFiles config.format) := by
  have underway := valid.running running isRunning
  have progress := orderly.running running isRunning
  have sorted : Sorted running.work.written := progress.sorted.sublist (sublist_append_left _ _)
  have described := outputs_described config.format sorted underway.increasing underway.nonempty
  obtain ⟨_, installed⟩ := install_valid valid isRunning
  have output : ∀ file ∈ running.work.finishOutput.outputFiles config.format,
      ∃ made ∈ running.work.allOutputs, contents db.disk.table file = made.items ∧
        Holds file made.items := by
    intro file member
    obtain ⟨made, inside, number, holds⟩ := underway_files underway config.format member
    refine ⟨made, inside, ?_, holds⟩
    rw [contents, number, underway.stored made inside]
    rfl
  constructor
  · intro level file
    obtain ⟨_, pointer⟩ := underway.pointer
    have blank : running.compaction.edit.deletedFiles = [] ∧
        running.compaction.edit.newFiles = [] := by
      rw [pointer]
      exact ⟨rfl, rfl⟩
    refine (adds_files (install_adds valid isRunning) (recorded_written valid.recorded)
      valid.stored level file).trans (or_congr_left (and_congr_right fun inside => not_congr ?_))
    rw [installEdit_deleted blank]
    exact deleted_isInput valid.stored.sound progress.reserved.present inside
  · exact installed.stored.ordered
  · exact described.ascending
  · intro file member
    obtain ⟨made, _, held, holds⟩ := output file member
    exact held ▸ holds
  · intro file member item inside
    obtain ⟨made, isOutput, held, _⟩ := output file member
    rw [held] at inside
    exact progress.sourced item (mem_append_left _ (written_mem isOutput inside))

theorem install_orderly : Orderly (db.install config running) := by
  have reserved := (orderly.running running isRunning).reserved
  have rearranged := install_rearranged valid orderly isRunning
  constructor
  · exact orderly.bounded
  · exact rearranged_tiered reserved rearranged valid.stored.sound orderly.tiered
  · exact rearranged_dated reserved rearranged orderly.dated
  · intro _ none
    cases none

end

end

end

section

theorem begin_grown (recoverable : Recoverable config disk versions start top)
    (replayed : Replayed disk.table versions.nextFileNumber start records top recovered) :
    Grown disk.table (Db.begin config disk versions recovered).disk.table versions.current
      (Db.begin config disk versions recovered).versions.current 0 recovered.files := by
  have new : ∀ file ∈ recovered.files,
      contents (Db.begin config disk versions recovered).disk.table file =
        contents recovered.table file := fun file member =>
    congrArg (getD · []) (begin_newTable recoverable replayed member)
  have recorded : ∀ file ∈ recovered.files,
      ∀ item ∈ contents (Db.begin config disk versions recovered).disk.table file,
        item ∈ records.flatMap Batch.items := by
    intro file member item inside
    rw [new file member] at inside
    exact (replayed.items item).mp (mem_flatMap.mpr ⟨file, member, inside⟩)
  constructor
  · exact begin_files recoverable replayed
  · intro level file member
    exact congrArg (getD · []) (begin_oldTable recoverable replayed member)
  · intro level old member file isNew recent recentHeld older olderHeld
    have young := numbered_bounds replayed.numbered (recorded file isNew recent recentHeld)
    exact (recoverable.stored.aged level old member older olderHeld).trans_lt young.1
  · intro level none
    cases none
  · intro old member file isNew
    exact (recoverable.numbers 0 old member).trans_le (replayed.taken file isNew).1
  · intro file isNew other otherNew less recent recentHeld older olderHeld _
    rw [new file isNew] at recentHeld
    rw [new other otherNew] at olderHeld
    -- Numbers and sequence numbers of the files grow together.
    have both := replayed.increasing.and replayed.chronological
    rcases pairwise_trichotomy both isNew otherNew with rfl | ⟨wrong, _⟩ | ⟨_, chronological⟩
    · exact absurd less (lt_irrefl _)
    · exact absurd less (lt_asymm wrong)
    · exact chronological older olderHeld recent recentHeld
  · intro file isNew other otherNew left leftHeld right rightHeld same
    rw [numbered_unique replayed.numbered (recorded file isNew left leftHeld)
      (recorded other otherNew right rightHeld) same]

theorem begin_orderly (recoverable : Recoverable config disk versions start top)
    (tiered : Tiered disk.table versions.current) (dated : Dated disk.table versions.current)
    (bounded : top ≤ kMaxSequenceNumber) :
    Orderly (Db.begin config disk versions (recoverLogs config disk versions)) := by
  obtain ⟨replayed, reached, _⟩ := recoverLogs_replayed config recoverable.records
  have grown := begin_grown recoverable replayed
  constructor
  · exact (afterLogs_sequence recoverable replayed reached).le.trans bounded
  · refine ⟨?_, grown_recent grown tiered.recent⟩
    intro level deep
    have untouched : (Db.begin config disk versions
        (recoverLogs config disk versions)).versions.current.files level =
          versions.current.files level := by
      apply applyEdit_untouched (openEdit_deletedAt replayed level)
      rw [addedAt_target (openEdit_adds recoverable replayed).shape, if_neg deep]
    rw [untouched]
    exact tiered.ascend level deep
  · exact grown_dated grown dated
  · intro _ none
    cases none

end

section

variable {next : Db Key Value}

section

variable (valid : Valid config edits start immRecords memRecords db) (orderly : Orderly db)
include valid orderly

theorem removeObsoleteFiles_orderly (pinned : List Nat) : Orderly { db with
      disk := db.disk.removeObsoleteFiles db.versions (db.liveFiles pinned) } := by
  have kept : ∀ level, ∀ file ∈ db.versions.current.files level,
      (db.disk.removeObsoleteFiles db.versions (db.liveFiles pinned)).table file.number =
        db.disk.table file.number := by
    intro level file member
    refine (retain_lookup _).trans (if_pos (decide_eq_true (mem_append_left _ ?_)))
    exact numbers_mem (shallow_level valid.stored member) member
  refine ⟨orderly.bounded, tiered_congr kept orderly.tiered, dated_congr kept orderly.dated, ?_⟩
  intro running isRunning
  exact progress_congr kept (orderly.running running isRunning)

theorem step_orderly (undisturbed : Undisturbed db event)
    (taken : step config db event = some next) :
    Orderly next := by
  cases step_transition taken with
  | write updates fits => exact { orderly with bounded := fits }
  | switchMemTable _ | getSnapshot | releaseSnapshot _ => exact { orderly with }
  | compactMemTable imm waiting =>
    apply compactMemTable_orderly valid orderly waiting
    intro running isRunning manual
    exact undisturbed running isRunning manual imm waiting
  | startCompaction request next idle started =>
    exact startCompaction_orderly valid orderly idle started
  | turn running item rest next isRunning input turned =>
    exact turn_orderly valid orderly isRunning input turned
  | install running isRunning => exact install_orderly valid orderly isRunning
  | removeObsoleteFiles pinned => exact removeObsoleteFiles_orderly valid orderly pinned
  | reopen next opened =>
    obtain ⟨_, recoverable, current, _⟩ := valid_recoverable valid
    obtain rfl := Except.ok.inj ((open_begin recoverable).symm.trans opened)
    apply begin_orderly recoverable
    · exact current ▸ orderly.tiered
    · exact current ▸ orderly.dated
    · exact orderly.bounded

end

variable {created : Db Key Value}

theorem created_orderly (opened : Db.open config Disk.empty = .ok created) :
    Agrees config created ∧ Orderly created := by
  obtain ⟨versions, recoverable⟩ := empty_recoverable config
  obtain ⟨_, _, made, valid, _⟩ := open_recoverable recoverable
  obtain rfl := Except.ok.inj (made.symm.trans opened)
  refine ⟨⟨_, _, _, _, valid⟩, ?_⟩
  obtain rfl := Except.ok.inj ((open_begin recoverable).symm.trans made)
  have empty : ∀ level file, file ∉ versions.current.files level := by
    intro level file member
    obtain ⟨_, present, _⟩ := recoverable.stored.sound.stored level file member
    cases present
  apply begin_orderly recoverable
  · refine ⟨?_, ?_, ?_⟩
    · intro level _
      rw [eq_nil_iff_forall_not_mem.mpr (empty level)]
      exact .nil
    · intro upper lower _ file member
      exact absurd member (empty upper file)
    · intro file member
      exact absurd member (empty 0 file)
  · intro upper lower file member
    exact absurd member (empty upper file)
  · omega

theorem guarded_orderly (opened : Db.open config Disk.empty = .ok created)
    (guarded : Machine.Guarded (step config) Undisturbed created events)
    (ran : Machine.run (step config) created events = some db) : Agrees config db ∧ Orderly db := by
  apply Machine.guarded_invariant (step config) Undisturbed
    (fun state => Agrees config state ∧ Orderly state) _ (created_orderly opened)
    guarded ran
  rintro state event _ undisturbed taken ⟨agrees, orderly⟩
  refine ⟨step_agrees agrees taken, ?_⟩
  obtain ⟨edits, start, immRecords, memRecords, valid⟩ := agrees
  exact step_orderly valid orderly undisturbed taken

/-- In an undisturbed run the files of every level but 0 are sorted and disjoint. -/
theorem levels_disjoint (config : Config Key Value) (events : List (Event Key Value))
    (created db : Db Key Value) (opened : Db.open config Disk.empty = .ok created)
    (guarded : Machine.Guarded (step config) Undisturbed created events)
    (ran : Machine.run (step config) created events = some db) :
    ∀ level, level ≠ 0 → ∀ index left right,
      (db.versions.current.files level)[index]? = some left →
      (db.versions.current.files level)[index + 1]? = some right →
      left.largest < right.smallest := by
  intro level deep index left right isLeft isRight
  obtain ⟨leftBound, rfl⟩ := List.getElem?_eq_some_iff.mp isLeft
  obtain ⟨rightBound, rfl⟩ := List.getElem?_eq_some_iff.mp isRight
  have ascending := (guarded_orderly opened guarded ran).2.tiered.ascend level deep
  exact pairwise_iff_getElem.mp ascending index (index + 1) leftBound rightBound
    (by omega)

/-- In an undisturbed run every source that a lookup asks later is older. -/
theorem sources_ordered (config : Config Key Value) (events : List (Event Key Value))
    (created db : Db Key Value) (opened : Db.open config Disk.empty = .ok created)
    (guarded : Machine.Guarded (step config) Undisturbed created events)
    (ran : Machine.run (step config) created events = some db) :
    Newer db.mem (db.imm.getD []) ∧
    (∀ level, ∀ file ∈ db.versions.current.files level, Newer db.mem (contents db.disk.table file) ∧
        Newer (db.imm.getD []) (contents db.disk.table file)) ∧
    (∀ file ∈ db.versions.current.files 0, ∀ other ∈ db.versions.current.files 0,
      other.number < file.number →
        Newer (contents db.disk.table file) (contents db.disk.table other)) ∧
    ∀ upper lower, upper < lower → ∀ file ∈ db.versions.current.files upper,
      ∀ deeper ∈ db.versions.current.files lower,
        Newer (contents db.disk.table file) (contents db.disk.table deeper) := by
  obtain ⟨⟨edits, start, immRecords, memRecords, valid⟩, orderly⟩ :=
    guarded_orderly opened guarded ran
  obtain ⟨_, _, _, order, immBounds, memBounds⟩ := valid_memtables valid
  refine ⟨?_, ?_, orderly.tiered.recent.zero, orderly.tiered.recent.levels⟩
  · intro recent recentMember old oldMember _
    exact (immBounds old oldMember).2.trans_lt (memBounds recent recentMember)
  · intro level file member
    have aged := valid.stored.aged level file member
    constructor
    · intro recent recentMember old oldMember _
      have later := memBounds recent recentMember
      have earlier := aged old oldMember
      omega
    · intro recent recentMember old oldMember _
      exact (aged old oldMember).trans_lt (immBounds recent recentMember).1

end

section

/-- Keys written together and flushed. -/
def flushKeys (keys : List Nat) : List (Event Nat Nat) :=
  [.write (keys.map fun key => .put key 0), .switchMemTable, .compactMemTable]

/-- A manual compaction of level 1 with a gap between its inputs, and a flush of one key
while it is in progress. -/
def compactAround (key : Nat) : List (Event Nat Nat) :=
  flushKeys [1] ++ flushKeys [7, 9] ++ flushKeys [1] ++ flushKeys [7, 9] ++
    [.startCompaction (.manual 1 none none)] ++ flushKeys [key] ++
    [.turn, .turn, .turn, .turn, .turn, .turn, .install]

/-- A flush to the right of all inputs leaves the run undisturbed. -/
theorem compactAround_guarded :
    ∃ created db, Db.open countingConfig Disk.empty = .ok created ∧
      Machine.Guarded (step countingConfig) Undisturbed created (compactAround 20) ∧
      Machine.run (step countingConfig) created (compactAround 20) = some db := by
  have checked : (match Db.open countingConfig Disk.empty with
      | .ok created => decide (Machine.Guarded (step countingConfig) Undisturbed created
          (compactAround 20)) &&
            (Machine.run (step countingConfig) created (compactAround 20)).isSome
      | .error _ => false) = true := by
    decide +kernel
  split at checked
  · rename_i created opened
    obtain ⟨guarded, ran⟩ := Bool.and_eq_true_iff.mp checked
    obtain ⟨db, ran⟩ := isSome_iff_exists.mp ran
    exact ⟨created, db, opened, of_decide_eq_true guarded, ran⟩
  · cases checked

theorem levels_disjoint_around :
    ∃ created db, Db.open countingConfig Disk.empty = .ok created ∧
      Machine.Guarded (step countingConfig) Undisturbed created (compactAround 20) ∧
      Machine.run (step countingConfig) created (compactAround 20) = some db ∧
      ∀ index left right, (db.versions.current.files 2)[index]? = some left →
        (db.versions.current.files 2)[index + 1]? = some right → left.largest < right.smallest := by
  obtain ⟨created, db, opened, guarded, ran⟩ := compactAround_guarded
  exact ⟨created, db, opened, guarded, ran,
    levels_disjoint countingConfig _ created db opened guarded ran 2 (by decide)⟩

theorem sources_ordered_around :
    ∃ created db, Db.open countingConfig Disk.empty = .ok created ∧
      Machine.Guarded (step countingConfig) Undisturbed created (compactAround 20) ∧
      Machine.run (step countingConfig) created (compactAround 20) = some db ∧
      Newer db.mem (db.imm.getD []) := by
  obtain ⟨created, db, opened, guarded, ran⟩ := compactAround_guarded
  exact ⟨created, db, opened, guarded, ran,
    (sources_ordered countingConfig _ created db opened guarded ran).1⟩

/-- A flush into the gap ends up inside an output of the compaction. -/
theorem gap_overlap :
    ∃ db, reach countingConfig (compactAround 5) = some db ∧
      ∃ left right, (db.versions.current.files 2)[0]? = some left ∧
        (db.versions.current.files 2)[1]? = some right ∧ ¬ left.largest < right.smallest := by
  have outcome : ((reach countingConfig (compactAround 5)).bind fun db =>
      (db.versions.current.files 2)[0]?.bind fun left =>
        (db.versions.current.files 2)[1]?.map fun right =>
          decide (left.largest < right.smallest)) = some false := by
    decide +kernel
  obtain ⟨db, reached, outcome⟩ := bind_eq_some_iff.mp outcome
  obtain ⟨left, isLeft, outcome⟩ := bind_eq_some_iff.mp outcome
  obtain ⟨right, isRight, outcome⟩ := map_eq_some_iff.mp outcome
  exact ⟨db, reached, left, right, isLeft, isRight, of_decide_eq_false outcome⟩

/-- A table is brought down to level 4. Then, in a level as above, the search misses the file of
7 and 9, so that a flush of these keys goes to the same level. -/
def sinkEvents : List (Event Nat Nat) :=
  flushKeys [6, 10] ++ [.startCompaction (.manual 2 none none), .turn, .turn, .install] ++
    [.startCompaction (.manual 3 none none), .turn, .turn, .install] ++
    compactAround 5 ++ flushKeys [7, 9]

/-- A hundred calls of `Get` for 8 pass the new table on their way to level 4. -/
def sinkReads (db : Db Nat Nat) : List (ReadCall Nat) :=
  replicate 100 (.get 8 db.versions.lastSequence fun file =>
    (contents db.disk.table file).all fun item => item.key.userKey != 8)

/-- The seek compaction that is then due is a trivial move, which takes the newer entry of 7 below
the older one. -/
theorem sink_inverts :
    ∃ before trigger db, reach countingConfig sinkEvents = some before ∧
      (Seeks.afterReads before.versions.current ⟨fun _ => 100, none⟩
        (sinkReads before)).trigger before.versions.current = some trigger ∧
      step countingConfig before (.startCompaction (.automatic trigger)) = some db ∧
      ∃ upper ∈ db.versions.current.files 2, ∃ lower ∈ db.versions.current.files 3,
        ∃ older ∈ contents db.disk.table upper, ∃ newer ∈ contents db.disk.table lower,
          older.key.userKey = newer.key.userKey ∧ older.key.sequence < newer.key.sequence := by
  have outcome : ((reach countingConfig sinkEvents).bind fun before =>
      ((Seeks.afterReads before.versions.current ⟨fun _ => 100, none⟩
        (sinkReads before)).trigger before.versions.current).bind fun trigger =>
      (step countingConfig before (.startCompaction (.automatic trigger))).map fun db =>
      decide (∃ upper ∈ db.versions.current.files 2, ∃ lower ∈ db.versions.current.files 3,
        ∃ older ∈ contents db.disk.table upper, ∃ newer ∈ contents db.disk.table lower,
          older.key.userKey = newer.key.userKey ∧ older.key.sequence < newer.key.sequence)) =
        some true := by
    decide +kernel
  obtain ⟨before, reached, outcome⟩ := bind_eq_some_iff.mp outcome
  obtain ⟨trigger, due, outcome⟩ := bind_eq_some_iff.mp outcome
  obtain ⟨db, moved, inverted⟩ := map_eq_some_iff.mp outcome
  exact ⟨before, trigger, db, reached, due, moved, of_decide_eq_true inverted⟩

end

end CodeReading.Leveldb
