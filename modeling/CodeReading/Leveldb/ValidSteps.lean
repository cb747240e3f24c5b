import CodeReading.Leveldb.Validity

/-!
# Every step keeps the database in agreement with its disk

Each kind of step is treated on its own, with the history that it continues: a write adds
a record to the current log, a switch makes the current log that of the immutable
memtable, a flush moves its records to a table, and compactions rearrange tables.
-/

namespace CodeReading.Leveldb

open Option List AList Nat VersionSet

variable {Key Value : Type} [LinearOrder Key] [Inhabited Value] {config : Config Key Value}
  {edits : List (VersionEdit Key)} {immRecords memRecords : List (Batch Key Value)}
  {db : Db Key Value}

theorem write_valid (valid : Valid config edits start immRecords memRecords db)
    (updates : List (Update Key Value)) :
    Valid config edits start immRecords
      (memRecords ++ [⟨db.versions.lastSequence + 1, updates⟩]) (db.write updates) := by
  have logged := valid.logged
  have named : db.logfileNumber ≠ 0 := by
    intro zero
    exact logged.positive (zero ▸ mem_of_lookup logged.log)
  constructor
  · exact valid.manifest
  · exact recorded_ahead valid.recorded rfl le_rfl (le_add_right _ _) rfl rfl
  · exact valid.stored
  · constructor
    · rw [← append_assoc]
      exact numbered_append.mpr ⟨_, logged.numbered, numbered_singleton rfl⟩
    · rw [rebuild_append, ← logged.mem]
      rfl
    · cases logged.imm with
      | inl without => exact .inl without
      | inr withImm =>
        obtain ⟨imm, below, found⟩ := withImm
        exact .inr ⟨imm, below, (lookup_insert_ne below.ne).trans found⟩
    · refine (lookup_insert _).trans ?_
      rw [logged.log]
      rfl
    · intro number member reached
      cases (mem_insert _).mp member with
      | inl same => exact .inr same
      | inr old => exact logged.only number old reached
    · intro member
      cases (mem_insert _).mp member with
      | inl same => exact named same.symm
      | inr old => exact logged.positive old
    · exact logged.prev
    · exact logged.counter
  · exact valid.running

theorem switchMemTable_valid (valid : Valid config edits start immRecords memRecords db)
    (without : db.imm = none) : Valid config edits start memRecords [] db.switchMemTable := by
  have logged := valid.logged
  obtain ⟨rfl, current⟩ : immRecords = [] ∧ db.versions.logNumber = db.logfileNumber := by
    cases logged.imm with
    | inl none => exact none.2
    | inr withImm =>
      rw [without] at withImm
      cases withImm.1
  have counter := logged.counter
  constructor
  · exact valid.manifest
  · exact recorded_ahead valid.recorded rfl (le_succ _) le_rfl rfl rfl
  · exact valid.stored
  · constructor
    · rw [append_nil]
      exact logged.numbered
    · rfl
    · right
      refine ⟨congrArg some logged.mem, ?_, ?_⟩
      · exact current.trans_lt counter
      · refine (lookup_insert_ne (current.trans_lt counter).ne).trans ?_
        rw [current]
        exact logged.log
    · exact lookup_insert _
    · intro number member reached
      cases (mem_insert _).mp member with
      | inl same => exact .inr same
      | inr old =>
        left
        cases logged.only number old reached with
        | inl named => exact named
        | inr same => exact same.trans current.symm
    · intro member
      cases (mem_insert _).mp member with
      | inl same => omega
      | inr old => exact logged.positive old
    · exact logged.prev
    · exact lt_succ_self _
  · intro running member
    exact underway_later (valid.running running member)
      (valid.running running member).unused (fun _ _ => rfl) (le_succ _) le_rfl

section

omit [Inhabited Value] in
theorem buildTable_spec (config : Config Key Value) (tables : Directory (List (Item Key Value)))
    (number : Nat) (sorted : Sorted mem) :
    (∀ other ≠ number, (buildTable config tables number mem).2.lookup other = tables.lookup other) ∧
    ∀ file ∈ (buildTable config tables number mem).1, file.number = number ∧
      (buildTable config tables number mem).2.lookup number = some mem ∧ Holds file mem := by
  by_cases empty : mem = []
  · subst empty
    refine ⟨fun other differs => lookup_erase_ne differs, ?_⟩
    intro file none
    cases none
  · obtain ⟨file, made, named, holds⟩ := tableMetaData_holds config.format number sorted empty
    have built : buildTable config tables number mem = (some file, tables.insert number mem) := by
      rw [buildTable, made]
    rw [built]
    refine ⟨fun other differs => lookup_insert_ne differs, ?_⟩
    rintro _ ⟨⟩
    exact ⟨named, lookup_insert _, holds⟩

def flushLevel (options : Options) (version : Version Key) (built : Option (FileMetaData Key)) :
    Nat :=
  built.elim 0 fun file =>
    version.pickLevelForMemTableOutput options file.smallest.userKey file.largest.userKey

section

variable (options : Options) (version : Version Key) (logfileNumber : Nat)
  (built : Option (FileMetaData Key))
include options version logfileNumber built

theorem flushEdit_newFiles : (flushEdit options version logfileNumber built).newFiles =
      built.toList.map fun file => (flushLevel options version built, file) := by
  cases built <;> rfl

theorem flushEdit_deletedAt (level : Nat) :
    (flushEdit options version logfileNumber built).deletedAt level = [] := by
  cases built <;> rfl

theorem flushEdit_comparator :
    (flushEdit options version logfileNumber built).comparator = none := by
  cases built <;> rfl

end

theorem flushLevel_lt
    {built : Option (FileMetaData Key)} : flushLevel options version built < kNumLevels := by
  cases built with
  | none => exact (by decide : 0 < kNumLevels)
  | some file =>
    have bound := pickLevel_le options version file.smallest.userKey file.largest.userKey
    exact bound.trans_lt (by decide)

/-- The version set with one more number handed out. -/
def VersionSet.takeNumber (versions : VersionSet Key) : VersionSet Key :=
  { versions with nextFileNumber := versions.nextFileNumber + 1 }

theorem flush_adds (valid : Valid config edits start immRecords memRecords db) (sorted : Sorted imm) :
    Adds edits db.versions.takeNumber
      (flushLevel config.options db.versions.current
        (buildTable config db.disk.tables db.versions.nextFileNumber imm).1)
      (buildTable config db.disk.tables db.versions.nextFileNumber imm).1.toList
      (flushEdit config.options db.versions.current db.logfileNumber
        (buildTable config db.disk.tables db.versions.nextFileNumber imm).1) := by
  obtain ⟨_, tabled⟩ := buildTable_spec config db.disk.tables db.versions.nextFileNumber sorted
  generalize (buildTable config db.disk.tables db.versions.nextFileNumber imm).1 = built at *
  constructor
  · exact flushEdit_newFiles _ _ _ _
  · exact flushEdit_comparator _ _ _ _
  · exact flushLevel_lt
  · cases built with
    | none => exact .nil
    | some file => exact pairwise_singleton _ _
  · intro file member
    left
    apply written_unused (recorded_written valid.recorded)
    exact (tabled file (mem_toList.mp member)).1.ge
  · intro file member
    rw [(tabled file (mem_toList.mp member)).1]
    exact lt_succ_self _
  · have counter := valid.logged.counter
    cases built <;> exact (le_of_lt counter).trans (le_succ _)

/-- An immutable memtable is what its log rebuilds, and its log is not the current one. -/
theorem logged_imm (logged : Logged db start immRecords memRecords) (waiting : db.imm = some imm) :
    imm = rebuild immRecords ∧ db.versions.logNumber < db.logfileNumber := by
  cases logged.imm with
  | inl without =>
    rw [waiting] at without
    cases without.1
  | inr withImm =>
    rw [waiting] at withImm
    exact ⟨some.inj withImm.1, withImm.2.1⟩

theorem compactMemTable_valid (valid : Valid config edits start immRecords memRecords db)
    (waiting : db.imm = some imm) :
    ∃ middle more, Valid config more middle [] memRecords (db.compactMemTable config imm) := by
  have logged := valid.logged
  obtain ⟨rfl, below⟩ := logged_imm logged waiting
  obtain ⟨middle, flushed, current⟩ := numbered_append.mp logged.numbered
  have sorted := rebuild_sorted flushed
  have adds := flush_adds valid sorted
  obtain ⟨kept, tabled⟩ := buildTable_spec config db.disk.tables db.versions.nextFileNumber sorted
  have ahead : Recorded config.comparatorName start edits db.versions.takeNumber :=
    recorded_ahead valid.recorded rfl (le_succ _) le_rfl rfl rfl
  refine ⟨middle, edits ++ [db.versions.takeNumber.complete (flushEdit config.options
    db.versions.current db.logfileNumber
    (buildTable config db.disk.tables db.versions.nextFileNumber (rebuild immRecords)).1)], ?_⟩
  constructor
  · exact congrArg (Option.map _) valid.manifest
  · exact adds_recorded adds (recorded_written ahead) valid.stored (numbered_le current)
  · apply adds_stored adds (recorded_written ahead) valid.stored _ _ (numbered_le flushed)
    · intro _ file member
      exact kept _ (written_number (recorded_written valid.recorded) member).ne
    · intro file member
      obtain ⟨named, present, holds⟩ := tabled file (mem_toList.mp member)
      refine ⟨_, named ▸ present, holds, ?_⟩
      intro item inside
      exact (numbered_bounds flushed ((rebuild_mem immRecords item).mp inside)).2
  · have log : (db.compactMemTable config (rebuild immRecords)).versions.logNumber =
        db.logfileNumber := by
      rw [Db.compactMemTable]
      cases (buildTable config db.disk.tables db.versions.nextFileNumber (rebuild immRecords)).1 <;> rfl
    constructor
    · exact current
    · exact logged.mem
    · exact .inl ⟨rfl, rfl, log⟩
    · exact logged.log
    · intro number member reached
      rw [log] at reached ⊢
      cases logged.only number member (below.le.trans reached) with
      | inl old => omega
      | inr same => exact .inl same
    · exact logged.positive
    · rw [Db.compactMemTable]
      cases (buildTable config db.disk.tables db.versions.nextFileNumber (rebuild immRecords)).1 <;> rfl
    · exact logged.counter.trans (lt_succ_self _)
  · intro running member
    have underway := valid.running running member
    apply underway_later underway _ _ (le_succ _) (numbered_le flushed)
    · intro output inside
      apply adds_unused adds (recorded_written ahead) (underway.unused output inside)
      intro file new
      rw [(tabled file (mem_toList.mp new)).1]
      exact (underway.taken output inside).ne'
    · intro output inside
      exact kept _ (underway.taken output inside).ne

end

section

omit [Inhabited Value] in
theorem request_drawn {request : Request Key}
    (found : request.pick options versions = some compaction) :
    Drawn versions.current compaction := by
  cases request with
  | automatic trigger => exact pickCompaction_drawn found
  | manual level begin finish => exact compactRange_drawn found

/-- The state after a compaction was picked: only its pointer has moved. -/
def Db.pointed (db : Db Key Value) (compaction : Compaction Key) : Db Key Value :=
  { db with
    versions := { db.versions with
      compactPointer := applyPointers compaction.edit db.versions.compactPointer } }

theorem pointed_valid (valid : Valid config edits start immRecords memRecords db)
    (compaction : Compaction Key) :
    Valid config edits start immRecords memRecords (db.pointed compaction) :=
  { manifest := valid.manifest
    recorded := recorded_ahead valid.recorded rfl le_rfl le_rfl rfl rfl
    stored := valid.stored
    logged := { valid.logged with }
    running := valid.running }

/-- An edit without log numbers leaves the logs alone. -/
theorem logged_logAndApply (logged : Logged db start immRecords memRecords)
    (log : edit.logNumber = none) (prev : edit.prevLogNumber = none) :
    Logged (db.logAndApply edit) start immRecords memRecords := by
  have sameLog : (db.logAndApply edit).versions.logNumber = db.versions.logNumber := by
    simp [Db.logAndApply, apply, complete, log]
  have samePrev : (db.logAndApply edit).versions.prevLogNumber = db.versions.prevLogNumber := by
    simp [Db.logAndApply, apply, complete, prev]
  refine { logged with imm := ?_, only := ?_, prev := ?_ }
  · rw [sameLog]
    exact logged.imm
  · rw [sameLog]
    exact logged.only
  · rw [samePrev]
    exact logged.prev

variable {compaction : Compaction Key}

section

variable (valid : Valid config edits start immRecords memRecords db)
  (drawn : Drawn db.versions.current compaction)
include valid drawn

theorem move_adds (inputs : compaction.inputs0 = file :: rest) :
    Adds edits (db.pointed compaction).versions (compaction.level + 1) [file]
      (moveEdit compaction) := by
  obtain ⟨key, pointer⟩ := drawn.pointer
  have member := drawn.subset0 file (inputs ▸ (.head _))
  have shape : moveEdit compaction =
      { (VersionEdit.empty : VersionEdit Key) with
        compactPointers := [(compaction.level, key)]
        deletedFiles := [(compaction.level, file.number)]
        newFiles := [(compaction.level + 1, file)] } := by
    rw [moveEdit, inputs]
    simp only [pointer]
    rfl
  rw [shape]
  constructor
  · rfl
  · rfl
  · exact drawn.deepest
  · exact pairwise_singleton _ _
  · intro moved only
    rw [mem_singleton.mp only]
    right
    refine ⟨compaction.level, lt_succ_self _, member, ?_⟩
    simp [VersionEdit.deletedAt]
  · intro moved only
    rw [mem_singleton.mp only]
    exact written_number (recorded_written valid.recorded) member
  · obtain ⟨next, bound, _, _, logBelow⟩ := valid.recorded.next
    exact logBelow.trans bound

theorem move_valid (inputs : compaction.inputs0 = file :: rest) (idle : db.running = none) :
    ∃ more, Valid config more start immRecords memRecords
      ((db.pointed compaction).logAndApply (moveEdit compaction)) := by
  have pointed := pointed_valid valid compaction
  have adds := move_adds valid drawn inputs
  have member := drawn.subset0 file (inputs ▸ (.head _))
  have logs : (moveEdit compaction).logNumber = none ∧
      (moveEdit compaction).prevLogNumber = none := by
    obtain ⟨_, pointer⟩ := drawn.pointer
    rw [moveEdit, inputs]
    simp only [pointer]
    exact ⟨rfl, rfl⟩
  refine ⟨edits ++ [(db.pointed compaction).versions.complete (moveEdit compaction)], ?_⟩
  constructor
  · exact congrArg (Option.map _) valid.manifest
  · obtain ⟨last, bound, _, known⟩ := valid.recorded.last
    exact adds_recorded adds (recorded_written pointed.recorded) pointed.stored (known.trans bound)
  · apply adds_stored adds (recorded_written pointed.recorded) pointed.stored (fun _ _ _ => rfl) _
      le_rfl
    intro _ only
    rw [mem_singleton.mp only]
    obtain ⟨items, present, holds⟩ := valid.stored.sound.stored _ file member
    refine ⟨items, present, holds, ?_⟩
    intro _ _
    apply valid.stored.aged _ file member
    rwa [contents, present]
  · exact logged_logAndApply pointed.logged logs.1 logs.2
  · intro running none
    rw [show ((db.pointed compaction).logAndApply (moveEdit compaction)).running = db.running from
      rfl, idle] at none
    cases none

/-- A compaction that starts has written nothing yet and reads tables only. -/
theorem start_valid (made : makeInputIterator db.disk.table compaction = some input)
    (isManual : Bool) (smallestSnapshot : Nat) : Valid config edits start immRecords memRecords
      { db.pointed compaction with
        running := some ⟨compaction, isManual, smallestSnapshot, input,
          Work.start compaction db.versions.nextFileNumber⟩ } := by
  have pointed := pointed_valid valid compaction
  have table : ∀ level, ∀ file ∈ db.versions.current.files level,
      ∃ items, db.disk.table file.number = some items := fun level file member =>
    (valid.stored.sound.stored level file member).imp fun items both => both.1
  have aged : ∀ item ∈ input, item.key.sequence ≤ start := by
    intro item member
    rw [makeInputIterator_made (fun file inside => table _ file (drawn.subset0 file inside))
      fun file inside => table _ file (drawn.subset1 file inside)] at made
    rw [← some.inj made, inputChildren_mem] at member
    obtain ⟨file, inside, held⟩ := member
    cases mem_append.mp inside with
    | inl first => exact valid.stored.aged _ file (drawn.subset0 file first) item held
    | inr second => exact valid.stored.aged _ file (drawn.subset1 file second) item held
  refine { pointed with logged := { pointed.logged with }, running := ?_ }
  rintro running ⟨⟩
  refine ⟨drawn.pointer, drawn.deepest, .nil, ?_, ?_, ?_, ?_, ?_, ?_⟩
  · intro output none
    cases none
  · intro output none
    cases none
  · intro output none
    cases none
  · intro output none
    cases none
  · intro output none
    cases none
  · exact aged

end

theorem startCompaction_valid {next : Db Key Value}
    (valid : Valid config edits start immRecords memRecords db)
    (idle : db.running = none) (started : db.startCompaction config request = some next) :
    ∃ more, Valid config more start immRecords memRecords next := by
  rw [Db.startCompaction] at started
  split at started
  · cases started
    exact ⟨edits, valid⟩
  · rename_i compaction found
    have drawn := request_drawn found
    split at started
    · rename_i moves
      cases started
      have single : compaction.inputs0.length = 1 := by
        simp only [Compaction.isTrivialMove, Bool.and_eq_true, decide_eq_true_eq] at moves
        exact moves.2.1.1
      obtain ⟨_, inputs⟩ := length_eq_one_iff.mp single
      exact move_valid valid drawn inputs idle
    · obtain ⟨_, made, rfl⟩ := map_eq_some_iff.mp started
      exact ⟨edits, start_valid valid drawn made _ _⟩

omit [Inhabited Value] in
theorem written_mem {work : Work Key Value} (member : output ∈ work.allOutputs)
    (inside : item ∈ output.items) : item ∈ work.written :=
  List.mem_flatMap.mpr ⟨output, member, inside⟩

omit [Inhabited Value] in
/-- A turn writes at most its entry, and takes new numbers from the counter. -/
theorem runningTurn_spec (config : Config Key Value)
    (underway : Underway edits tables counter start running) (item : Item Key Value) :
    (running.turn config counter item).allOutputs.Pairwise
        (fun left right => left.number < right.number) ∧
      (∀ output ∈ (running.turn config counter item).allOutputs,
        output.number < (running.turn config counter item).nextFileNumber ∧ output.items ≠ []) ∧
      counter ≤ (running.turn config counter item).nextFileNumber ∧
      (∀ output ∈ (running.turn config counter item).allOutputs,
        (∃ old ∈ running.work.allOutputs, old.number = output.number) ∨
          counter ≤ output.number) ∧
      ∀ written ∈ (running.turn config counter item).written,
        written ∈ running.work.written ∨ written = item := by
  have before : Allotted 0 ({ running.work with nextFileNumber := counter } : Work Key Value) :=
    ⟨underway.increasing, fun output member => ⟨zero_le _, underway.taken output member⟩,
      underway.nonempty, zero_le _⟩
  have allotted : Allotted 0 (running.turn config counter item) := turn_allotted before item
  obtain ⟨grown, numbers⟩ : counter ≤ (running.turn config counter item).nextFileNumber ∧
      ∀ output ∈ (running.turn config counter item).allOutputs,
        (∃ old ∈ running.work.allOutputs, old.number = output.number) ∨
          counter ≤ output.number :=
    turn_numbers { running.work with nextFileNumber := counter } item
  refine ⟨allotted.increasing, ?_, grown, numbers, ?_⟩
  · intro output member
    exact ⟨(allotted.taken output member).2, allotted.nonempty output member⟩
  · intro written member
    rw [Running.turn, turn_written, List.mem_append] at member
    cases member with
    | inl old => exact Or.inl old
    | inr new =>
      right
      split at new
      · cases new
      · exact List.mem_singleton.mp new

variable {running : Running Key Value}

section

variable (valid : Valid config edits start immRecords memRecords db)
  (isRunning : db.running = some running)
include valid isRunning

theorem turn_unused (item : Item Key Value) :
    ∀ output ∈ (running.turn config db.versions.nextFileNumber item).allOutputs,
      Unused edits output.number := by
  have underway := valid.running running isRunning
  obtain ⟨_, _, _, numbers, _⟩ := runningTurn_spec config underway item
  intro output member
  cases numbers output member with
  | inl known =>
    obtain ⟨old, inside, same⟩ := known
    exact same ▸ underway.unused old inside
  | inr new => exact written_unused (recorded_written valid.recorded) new

theorem turn_untouched (item : Item Key Value) (member : file ∈ db.versions.current.files level) :
    writeTables db.disk.table (running.turn config db.versions.nextFileNumber item).allOutputs
      file.number = db.disk.table file.number := by
  apply writeTables_other
  intro output inside same
  exact unused_live valid.recorded.replays (turn_unused valid isRunning item output inside) member same.symm

theorem turn_valid {next : Db Key Value} (input : running.input = item :: rest)
    (turned : db.turn config running item rest = some next) :
    Valid config edits start immRecords memRecords next := by
  have underway := valid.running running isRunning
  obtain ⟨increasing, taken, grown, _, written⟩ := runningTurn_spec config underway item
  rw [Db.turn] at turned
  obtain ⟨sorted, turned⟩ := ite_none_right_eq_some.mp turned
  cases turned
  have unused := turn_unused valid isRunning item
  refine ⟨valid.manifest, ?_, ?_, ?_, ?_⟩
  · exact recorded_ahead valid.recorded rfl grown le_rfl rfl rfl
  · apply stored_congr valid.stored
    intro _ _ member
    rw [writeOutputs_table]
    exact turn_untouched valid isRunning item member
  · exact { valid.logged with counter := valid.logged.counter.trans_le grown }
  · rintro _ ⟨⟩
    refine ⟨underway.pointer, underway.deepest, increasing, unused, ?_, ?_, sorted, ?_, ?_⟩
    · intro output member
      exact (taken output member).1
    · intro output member
      exact (taken output member).2
    · intro output member
      rw [writeOutputs_table]
      exact writeTables_output _ increasing member
    · intro other member
      apply underway.aged other
      rw [input]
      cases mem_append.mp member with
      | inl old =>
        cases written other old with
        | inl before => exact mem_append_left _ before
        | inr same => exact mem_append_right _ (same ▸ (.head _))
      | inr later => exact mem_append_right _ (.tail _ later)

end

omit [Inhabited Value] in
theorem installEdit_fields
    (pointer : compaction.edit = VersionEdit.empty.setCompactPointer compaction.level key)
    (format : TableFormat Key Value) (work : Work Key Value) :
    (installEdit format compaction work).comparator = none ∧
      (installEdit format compaction work).logNumber = none ∧
      (installEdit format compaction work).prevLogNumber = none := by
  simp only [installEdit, Compaction.addInputDeletions, foldl_removeFile, foldl_addFile, pointer]
  exact ⟨rfl, rfl, rfl⟩

omit [Inhabited Value] in
/-- The files of the outputs, with their tables. -/
theorem underway_files
    (underway : Underway edits tables counter start running) (format : TableFormat Key Value)
    (member : file ∈ running.work.finishOutput.outputFiles format) :
    ∃ output ∈ running.work.allOutputs, file.number = output.number ∧ Holds file output.items := by
  obtain ⟨output, inside, made⟩ := List.mem_filterMap.mp member
  exact ⟨output, inside, outputs_file format underway.sorted underway.nonempty inside made⟩

section

variable (valid : Valid config edits start immRecords memRecords db)
  (isRunning : db.running = some running)
include valid isRunning

theorem install_adds : Adds edits db.versions (running.compaction.level + 1)
      (running.work.finishOutput.outputFiles config.format)
      (installEdit config.format running.compaction running.work.finishOutput) := by
  have underway := valid.running running isRunning
  obtain ⟨_, pointer⟩ := underway.pointer
  obtain ⟨unnamed, log, _⟩ := installEdit_fields pointer config.format running.work.finishOutput
  constructor
  · apply installEdit_newFiles
    rw [pointer]
    rfl
  · exact unnamed
  · exact underway.deepest
  · exact outputs_distinct config.format underway.sorted underway.nonempty underway.increasing
  · intro file member
    obtain ⟨output, inside, number, _⟩ := underway_files underway config.format member
    exact .inl (number ▸ underway.unused output inside)
  · intro file member
    obtain ⟨output, inside, number, _⟩ := underway_files underway config.format member
    exact number ▸ underway.taken output inside
  · obtain ⟨next, bound, _, _, logBelow⟩ := valid.recorded.next
    rw [log]
    exact logBelow.trans bound

theorem install_valid :
    ∃ more, Valid config more start immRecords memRecords (db.install config running) := by
  have underway := valid.running running isRunning
  have adds := install_adds valid isRunning
  obtain ⟨_, pointer⟩ := underway.pointer
  obtain ⟨_, log, prev⟩ := installEdit_fields pointer config.format running.work.finishOutput
  refine ⟨edits ++ [db.versions.complete
    (installEdit config.format running.compaction running.work.finishOutput)], ?_⟩
  constructor
  · exact congrArg (Option.map _) valid.manifest
  · obtain ⟨last, bound, _, known⟩ := valid.recorded.last
    exact adds_recorded adds (recorded_written valid.recorded) valid.stored (known.trans bound)
  · apply adds_stored adds (recorded_written valid.recorded) valid.stored (fun _ _ _ => rfl) _
      le_rfl
    intro _ member
    obtain ⟨output, inside, number, holds⟩ := underway_files underway config.format member
    refine ⟨output.items, ?_, holds, ?_⟩
    · rw [number]
      exact underway.stored output inside
    · intro item held
      exact underway.aged item (mem_append_left _ (written_mem inside held))
  · have logged : Logged { db with running := none } start immRecords memRecords :=
      { valid.logged with }
    exact logged_logAndApply logged log prev
  · intro _ none
    cases none

end

end

section

theorem removeObsoleteFiles_valid (valid : Valid config edits start immRecords memRecords db)
    (pinned : List Nat) :
    Valid config edits start immRecords memRecords
      { db with disk := db.disk.removeObsoleteFiles db.versions (db.liveFiles pinned) } := by
  have logged := valid.logged
  have tables : ∀ number ∈ db.liveFiles pinned,
      (db.disk.removeObsoleteFiles db.versions (db.liveFiles pinned)).table number =
        db.disk.table number := by
    intro number live
    exact (retain_lookup number).trans (if_pos (decide_eq_true live))
  have logs : ∀ number, db.versions.logNumber ≤ number →
      (db.disk.removeObsoleteFiles db.versions (db.liveFiles pinned)).logs.lookup number =
        db.disk.logs.lookup number := by
    intro number needed
    refine (retain_lookup number).trans (if_pos ?_)
    simp [needsLog, needed]
  have logBelow : db.versions.logNumber ≤ db.logfileNumber := by
    cases logged.imm with
    | inl without => exact without.2.2.le
    | inr withImm => exact withImm.2.1.le
  refine ⟨valid.manifest, valid.recorded, ?_, ?_, ?_⟩
  · apply stored_congr valid.stored
    intro _ _ member
    apply tables
    apply mem_append_left
    exact numbers_mem (shallow_level valid.stored member) member
  · refine { logged with imm := ?_, log := ?_, only := ?_, positive := ?_ }
    · rw [logs _ le_rfl]
      exact logged.imm
    · rw [logs _ logBelow]
      exact logged.log
    · intro number member
      exact logged.only number (retain_mem member).2
    · intro member
      exact logged.positive (retain_mem member).2
  · intro running isRunning
    have underway := valid.running running isRunning
    apply underway_later underway underway.unused _ le_rfl le_rfl
    intro _ member
    apply tables
    have isSome : db.running = some running := isRunning
    simp only [Db.liveFiles, isSome, elim_some, Running.liveFiles, mem_append]
    exact .inr (.inl (.inr (mem_map_of_mem member)))

end

end CodeReading.Leveldb
