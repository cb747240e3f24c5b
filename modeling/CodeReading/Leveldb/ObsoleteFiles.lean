import CodeReading.Leveldb.BackgroundWork
import CodeReading.Leveldb.Recovery

/-!
# Obsolete files

`DB::Open` replays the logs into tables of the version that it installs, so that the invariant
of the threads holds when it lists files for the first time. Every run from there keeps it.
Hence no file that is being removed is in a version that somebody uses, is the output of a
compaction that is not installed, is the descriptor in use, or is a log whose updates have not
been in a table of an installed version.
-/

namespace CodeReading.Leveldb

open List Recovered VersionEdit Nat AList Option

namespace FileManager

variable {Key Value : Type} [LinearOrder Key]

section

variable [Inhabited Value] {state : Recovered Key Value} {item : Item Key Value}

/-- The edit of a recovery adds tables to level 0 under numbers of their own. -/
structure Fresh (state : Recovered Key Value) : Prop where
  shape : state.edit.newFiles = state.files.map fun file => (0, file)
  noneDeleted : state.edit.deletedFiles = []
  increasing : state.files.Pairwise fun left right => left.number < right.number
  taken : ∀ file ∈ state.files, file.number < state.nextFileNumber

/-- The item is in a table of the edit. -/
def Saved (state : Recovered Key Value) (item : Item Key Value) : Prop :=
  ∃ file ∈ state.files, ∃ items, state.tables.lookup file.number = some items ∧ item ∈ items

omit [Inhabited Value] in
theorem tableMetaData_number {format : TableFormat Key Value} {number : Nat}
    (made : tableMetaData format number items = some file) : file.number = number := by
  rw [tableMetaData] at made
  split at made
  · split at made
    · cases made
      rfl
    · cases made
  · cases made

omit [Inhabited Value] in
theorem writeLevel0Table_fresh (config : Config Key Value) (fresh : Fresh state)
    (mem : MemTable Key Value) : Fresh (state.writeLevel0Table config mem) := by
  cases made : tableMetaData config.format state.nextFileNumber mem with
  | none =>
    simp only [writeLevel0Table, buildTable, made]
    exact { fresh with taken := fun file member => lt_succ_of_lt (fresh.taken file member) }
  | some file =>
    have number := tableMetaData_number made
    have files : (state.writeLevel0Table config mem).files = state.files ++ [file] := by
      simp [writeLevel0Table, files, buildTable, made, addFile]
    constructor
    · rw [files, map_append, ← fresh.shape]
      simp [writeLevel0Table, buildTable, made, addFile]
    · simpa [writeLevel0Table, buildTable, made, addFile] using
        fresh.noneDeleted
    · rw [files]
      refine pairwise_append.mpr ⟨fresh.increasing, pairwise_singleton _ _, ?_⟩
      intro old member only isOnly
      rw [mem_singleton.mp isOnly, number]
      exact fresh.taken old member
    · rw [files]
      intro other member
      apply lt_succ_of_le
      cases mem_append.mp member with
      | inl old => exact (fresh.taken other old).le
      | inr only =>
        rw [mem_singleton.mp only]
        exact number.le

omit [Inhabited Value] in
theorem writeLevel0Table_saved (config : Config Key Value) (fresh : Fresh state)
    (mem : MemTable Key Value) (saved : Saved state item) :
    Saved (state.writeLevel0Table config mem) item := by
  obtain ⟨file, member, items, stored, inside⟩ := saved
  have different : file.number ≠ state.nextFileNumber := Nat.ne_of_lt (fresh.taken file member)
  cases made : tableMetaData config.format state.nextFileNumber mem with
  | none =>
    refine ⟨file, ?_, items, ?_, inside⟩
    · simpa [writeLevel0Table, files, buildTable, made] using member
    · simp only [writeLevel0Table, buildTable, made]
      exact (lookup_erase_ne different).trans stored
  | some new =>
    refine ⟨file, ?_, items, ?_, inside⟩
    · simp only [writeLevel0Table, files, buildTable, made, addFile, map_append]
      exact mem_append_left _ member
    · simp only [writeLevel0Table, buildTable, made]
      exact (lookup_insert_ne different).trans stored

omit [Inhabited Value] in
theorem writeLevel0Table_saves (config : Config Key Value) (ordered : Ordered mem)
    (member : item ∈ mem) : Saved (state.writeLevel0Table config mem) item := by
  obtain ⟨file, number, built⟩ :=
    buildTable_ordered config state.tables state.nextFileNumber ordered member
  refine ⟨file, ?_, mem, ?_, member⟩
  · simp [writeLevel0Table, files, built, addFile]
  · rw [writeLevel0Table, built, number]
    exact lookup_insert _

/-- What the replay of a log has reached: its items are in a table or in the memtable. -/
structure Replaying (progress : Option (MemTable Key Value) × Recovered Key Value)
    (items : List (Item Key Value)) : Prop where
  fresh : Fresh progress.2
  ordered : Ordered (progress.1.getD [])
  found : ∀ item ∈ items, Saved progress.2 item ∨ item ∈ progress.1.getD []

variable {items : List (Item Key Value)}

section

variable (config : Config Key Value)

theorem recoverBatch_replaying (replaying : Replaying progress items) (batch : Batch Key Value) :
    Replaying (recoverBatch config progress batch) (items ++ batch.items) := by
  have ordered := insertInto_ordered replaying.ordered batch.sequence batch.updates
  have fresh : ∀ maxSequence, Fresh { progress.2 with maxSequence := maxSequence } := fun _ =>
    { replaying.fresh with }
  have found : ∀ item ∈ items ++ batch.items, Saved progress.2 item ∨
      item ∈ insertInto batch.sequence batch.updates (progress.1.getD []) := by
    intro item member
    rw [insertInto_mem]
    cases mem_append.mp member with
    | inl old => exact (replaying.found item old).imp_right .inl
    | inr new => exact .inr (.inr new)
  rw [recoverBatch]
  simp only
  split
  · constructor
    · exact writeLevel0Table_fresh config (fresh _) _
    · exact .nil
    · intro item member
      left
      cases found item member with
      | inl saved => exact writeLevel0Table_saved config (fresh _) _ saved
      | inr inMem => exact writeLevel0Table_saves config ordered inMem
  · exact ⟨fresh _, ordered, found⟩

theorem foldl_replaying (records : List (Batch Key Value)) (replaying : Replaying progress items) :
    Replaying (records.foldl (recoverBatch config) progress)
      (items ++ records.flatMap Batch.items) := by
  induction records generalizing progress items with
  | nil =>
    rw [flatMap_nil, append_nil]
    exact replaying
  | cons batch rest ih =>
    rw [flatMap_cons, ← append_assoc]
    exact ih (recoverBatch_replaying config replaying batch)

/-- What the replay of logs has reached. -/
structure Salvaged (state : Recovered Key Value) (items : List (Item Key Value)) : Prop where
  fresh : Fresh state
  saved : ∀ item ∈ items, Saved state item

theorem recoverLogFile_salvaged (logs : Directory (List (Batch Key Value))) (number : Nat)
    (salvaged : Salvaged state items) : Salvaged (recoverLogFile config logs state number)
      (items ++ ((logs.lookup number).getD []).flatMap Batch.items) := by
  have replaying : Replaying (none, state) items :=
    ⟨salvaged.fresh, .nil, fun item member => .inl (salvaged.saved item member)⟩
  have looped := foldl_replaying config ((logs.lookup number).getD []) replaying
  rw [recoverLogFile]
  generalize ((logs.lookup number).getD []).foldl (recoverBatch config) (none, state) =
    progress at looped ⊢
  obtain ⟨mem, reached⟩ := progress
  -- The number of the log is marked as used, which makes the counter larger.
  have marked : ∀ other : Recovered Key Value, Fresh other → Fresh { other with
      nextFileNumber := markFileNumberUsed other.nextFileNumber number } := fun other fresh =>
    { fresh with
      taken := fun file member => (fresh.taken file member).trans_le (markFileNumberUsed_past _
      _).1 }
  cases mem with
  | none =>
    refine ⟨marked reached looped.fresh, ?_⟩
    intro item member
    cases looped.found item member with
    | inl saved => exact saved
    | inr inMem => exact absurd inMem not_mem_nil
  | some mem =>
    refine ⟨marked _ (writeLevel0Table_fresh config looped.fresh mem), ?_⟩
    intro item member
    cases looped.found item member with
    | inl saved => exact writeLevel0Table_saved config looped.fresh mem saved
    | inr inMem => exact writeLevel0Table_saves config looped.ordered inMem

theorem foldl_salvaged (logs : Directory (List (Batch Key Value))) (numbers : List Nat)
    (salvaged : Salvaged state items) : Salvaged (numbers.foldl (recoverLogFile config logs) state)
        (items ++ numbers.flatMap fun number =>
          ((logs.lookup number).getD []).flatMap Batch.items) ∧
      state.nextFileNumber ≤ (numbers.foldl (recoverLogFile config logs) state).nextFileNumber ∧
      ∀ number ∈ numbers,
        number < (numbers.foldl (recoverLogFile config logs) state).nextFileNumber := by
  induction numbers generalizing state items with
  | nil =>
    rw [flatMap_nil, append_nil]
    exact ⟨salvaged, le_rfl, fun _ member => absurd member not_mem_nil⟩
  | cons number rest ih =>
    obtain ⟨grown, past⟩ := recoverLogFile_counter config logs state number
    obtain ⟨all, larger, beyond⟩ := ih (recoverLogFile_salvaged config logs number salvaged)
    rw [flatMap_cons, ← append_assoc]
    refine ⟨all, grown.trans larger, ?_⟩
    intro other member
    cases mem_cons.mp member with
    | inl same => exact same ▸ past.trans_le larger
    | inr later => exact beyond other later

end

end

section

variable [Inhabited Value] {disk : Disk Key Value} {versions : VersionSet Key}

theorem recoverLogs_salvaged (config : Config Key Value) (disk : Disk Key Value)
    (versions : VersionSet Key) :
    Salvaged (recoverLogs config disk versions)
        ((logsToRecover versions disk.logs).flatMap fun number =>
          ((disk.logs.lookup number).getD []).flatMap Batch.items) ∧
      ∀ number ∈ logsToRecover versions disk.logs,
        number < (recoverLogs config disk versions).nextFileNumber := by
  have start : Salvaged (⟨versions.nextFileNumber, disk.tables, empty, 0⟩ :
      Recovered Key Value) [] :=
    ⟨⟨rfl, rfl, .nil, fun _ member => absurd member not_mem_nil⟩,
      fun _ member => absurd member not_mem_nil⟩
  obtain ⟨all, _, past⟩ := foldl_salvaged config disk.logs (logsToRecover versions disk.logs) start
  rw [nil_append] at all
  exact ⟨all, past⟩

omit [Inhabited Value] in
/-- What was saved is in the version that `DB::Open` installs. -/
theorem saved_installed (versions : VersionSet Key)
    (fresh : Fresh recovered) (saved : Saved recovered item) :
    item ∈ ((versions.afterLogs recovered).apply
      ((versions.afterLogs recovered).complete recovered.openEdit)).current.items
        recovered.tables := by
  obtain ⟨file, member, items, stored, inside⟩ := saved
  have added : ((versions.afterLogs recovered).complete recovered.openEdit).addedAt 0 =
      recovered.files := (addedAt_target fresh.shape 0).trans (if_pos rfl)
  have placed : file ∈ ((versions.afterLogs recovered).current.applyEdit
      ((versions.afterLogs recovered).complete recovered.openEdit)).files 0 := by
    apply applyEdit_adds
    · simp [deletedAt, VersionSet.complete, openEdit, fresh.noneDeleted]
    · rw [added]
      exact fresh.increasing.imp fun less => ne_of_lt less
    · rw [added]
      exact member
  exact items_mem (numbers_mem (by decide) placed) stored inside

omit [LinearOrder Key] [Inhabited Value] in
theorem record_present {logs : Directory (List (Batch Key Value))} {number : Nat}
    (member : batch ∈ (logs.lookup number).getD []) : number ∈ logs := by
  rw [← lookup_isSome]
  cases found : logs.lookup number with
  | none =>
    rw [found] at member
    exact absurd member not_mem_nil
  | some records => rfl

/-- The log is replayed, if the descriptor needs it. -/
theorem needed_covered {number : Nat} (needed : versions.needsLog number = true) :
    Covered disk.logs [] number
      ((created config disk versions).db.versions.current.items
        (recoverLogs config disk versions).tables) := by
  obtain ⟨salvaged, _⟩ := recoverLogs_salvaged config disk versions
  intro batch member _ item inside
  apply saved_installed versions salvaged.fresh
  apply salvaged.saved
  exact mem_flatMap.mpr
    ⟨number, logsToRecover_mem.mpr ⟨record_present member, needed⟩,
      mem_flatMap.mpr ⟨batch, member, inside⟩⟩

/-- A log that the descriptor does not need counts as installed. -/
theorem old_covered {number : Nat} (old : versions.needsLog number = false) :
    Covered disk.logs [] number (created config disk versions).installed := by
  intro batch member _ _ inside
  apply mem_append_right
  have present : number ∈ disk.logs.keys := mem_keys.mp (record_present member)
  refine mem_flatMap.mpr ⟨number, mem_filter.mpr ⟨present, ?_⟩,
    mem_flatMap.mpr ⟨batch, member, inside⟩⟩
  rw [old]
  rfl

/-- `DB::Open` makes a new log, which is above all others. -/
theorem created_kept
    (asserted : versions.logNumber ≤ (recoverLogs config disk versions).nextFileNumber) :
    Kept (created config disk versions) ∧ (created config disk versions).Retired := by
  obtain ⟨_, past⟩ := recoverLogs_salvaged config disk versions
  have others : ∀ number < (recoverLogs config disk versions).nextFileNumber, ∀ items,
      Covered disk.logs [] number items →
        Covered (created config disk versions).db.disk.logs [] number items :=
    fun number early _ covered => covered_insert (Nat.ne_of_lt early) covered []
  constructor
  · exact
      { counted := by
          constructor
          · intro node member
            rw [mem_singleton.mp member]
            rfl
          · intro node member
            rw [mem_singleton.mp member]
            exact .head _
          · intro _ member
            exact ⟨_, mem_singleton_self _, (mem_singleton.mp member).symm⟩
        named := by
          constructor
          · intro node member
            rw [mem_singleton.mp member]
            exact zero_lt_one
          · intro node member _
            rw [mem_singleton.mp member]
            rfl
        pending := fun _ isRunning => nomatch isRunning
        allotted := fun _ isRunning => nomatch isRunning
        pointer := fun _ isRunning => nomatch isRunning
        mem := .nil
        imm := .nil
        order := le_refl _
        next := lt_succ_self _
        noLater := by
          intro number later
          refine (lookup_insert_ne (ne_of_gt later)).trans ?_
          rw [lookup_eq_none]
          intro present
          by_cases needed : versions.needsLog number = true
          · exact absurd (past number (logsToRecover_mem.mpr ⟨present, needed⟩))
              (not_lt.mpr (le_of_lt later))
          · simp only [VersionSet.needsLog, Bool.or_eq_true, decide_eq_true_eq, not_or,
              not_le] at needed
            exact absurd (needed.1.trans_le asserted) (not_lt.mpr (le_of_lt later))
        retired := by
          intro number early
          apply others number early
          by_cases needed : versions.needsLog number = true
          · exact covered_mono (needed_covered needed) fun _ member => mem_append_left _ member
          · exact old_covered (Bool.not_eq_true _ ▸ needed)
        waiting := fun _ late early => absurd late (not_le.mpr early)
        active := by
          intro _ member
          rw [created] at member
          simp only [lookup_insert] at member
          exact absurd member not_mem_nil }
  · intro number late early
    apply others number early
    apply needed_covered
    simp only [VersionSet.needsLog, Bool.or_eq_true, decide_eq_true_eq]
    exact .inl late

theorem opened_managed
    (isOpen : opened config disk versions children = some manager) : Managed manager := by
  obtain ⟨asserted, made⟩ := ite_none_right_eq_some.mp isOpen
  cases made
  obtain ⟨kept, retired⟩ := created_kept asserted
  exact removeObsoleteFiles_managed kept rfl (fun isInput => nomatch isInput) retired children

end

section

variable [Inhabited Value]

/-- The files that `RemoveObsoleteFiles` is about to remove. -/
def toRemove (manager : FileManager Key Value) : List FileName :=
  match manager.position with
  | .deleting files => files
  | .idle | .merging | .building _ _ | .logging _ _ => []

/-- Nobody needs the file. A log may hold records of writes that failed; its other updates are
in tables of the current version, or have been in tables of an installed version if the log
was retired earlier and is removed late. -/
structure Obsolete (manager : FileManager Key Value) (file : FileName) : Prop where
  versions : ∀ node ∈ manager.nodes, ∀ number ∈ node.payload.numbers, file ≠ .table number
  outputs : ∀ running ∈ manager.db.running, ∀ output ∈ running.work.allOutputs,
    file ≠ .table output.number
  current : ∀ number, manager.formerLogNumber ≤ number → file = .log number →
    Covered manager.db.disk.logs manager.failedWrites number
      (manager.db.versions.current.items manager.db.disk.tables)
  installed : ∀ number, file = .log number →
    Covered manager.db.disk.logs manager.failedWrites number manager.installed
  descriptor : file ≠ .descriptor manager.manifestFileNumber

theorem managed_obsolete {manager : FileManager Key Value} (managed : Managed manager)
    (listed : file ∈ manager.toRemove) : Obsolete manager file := by
  rw [toRemove] at listed
  have holds := managed.atPosition
  rw [AtPosition] at holds
  split at listed
  · rename_i files deleting
    rw [deleting] at holds
    obtain ⟨unwanted, retired⟩ := holds
    have unwanted := unwanted file listed
    constructor
    · rintro node member number inside rfl
      simp only [keeps, decide_eq_false_iff_not, mem_append, not_or] at unwanted
      exact unwanted.2 (mem_flatMap.mpr ⟨node, member, inside⟩)
    · rintro running isRunning output member rfl
      simp only [keeps, decide_eq_false_iff_not, mem_append, not_or] at unwanted
      exact unwanted.1 (managed.pending running isRunning output member)
    · rintro number late rfl
      exact retired number late (keeps_log unwanted)
    · rintro number rfl
      exact managed.retired number (keeps_log unwanted)
    · rintro rfl
      simp only [keeps, decide_eq_false_iff_not] at unwanted
      exact unwanted le_rfl
  all_goals cases listed

/-- In every state of every run after `DB::Open`, the versions that readers, flushes and
compactions hold are in the list, as is the current one, and the files that are being removed
are obsolete. -/
theorem removeObsoleteFiles_safe (config : Config Key Value) (disk : Disk Key Value)
    (versions : VersionSet Key) (children : List FileName) {start manager : FileManager Key Value}
    (isOpen : opened config disk versions children = some start) (actions : List (Action Key Value))
    (reached : Machine.run (step config) start actions = some manager) :
    (∀ id ∈ manager.holders, ∃ node ∈ manager.nodes, node.id = id) ∧
      (∀ node ∈ manager.nodes, node.id = manager.currentId →
        node.payload = manager.db.versions.current) ∧
      ∀ file ∈ manager.toRemove, Obsolete manager file := by
  have managed : Managed manager :=
    Machine.run_invariant (step config) Managed (fun _ _ _ taken => step_managed config taken)
      (opened_managed isOpen) reached
  refine ⟨managed.counted.listed, managed.named.current, ?_⟩
  intro file listed
  exact managed_obsolete managed listed

/-- The state after actions on a new database, if they were possible. -/
def reachNew (config : Config Key Value) (actions : List (Action Key Value)) :
    Option (FileManager Key Value) :=
  (VersionSet.recover config.comparatorName [newDbEdit config.comparatorName]).toOption.bind
    fun versions => (opened config Disk.empty versions []).bind fun start =>
      Machine.run (step config) start actions

/-- A flush that makes way for another memtable, and removes the log of the first. -/
theorem removeObsoleteFiles_safe_flush :
    ∃ manager, reachNew countingConfig
        [.write [.put 1 7] .ok, .refVersion, .switchMemTable .ok, .write [.delete 1] .ok,
          .startFlush, .endBuild true none, .endLogging true [.log 3, .log 4, .table 5]] =
        some manager ∧
      .log 3 ∈ manager.toRemove ∧ Obsolete manager (.log 3) := by
  obtain ⟨manager, reached⟩ : ∃ manager, reachNew countingConfig
      [.write [.put 1 7] .ok, .refVersion, .switchMemTable .ok, .write [.delete 1] .ok,
        .startFlush, .endBuild true none, .endLogging true [.log 3, .log 4, .table 5]] =
      some manager := isSome_iff_exists.mp (by decide)
  have listed : (reachNew countingConfig
      [.write [.put 1 7] .ok, .refVersion, .switchMemTable .ok, .write [.delete 1] .ok,
        .startFlush, .endBuild true none, .endLogging true [.log 3, .log 4, .table 5]]).all
      fun manager => decide (.log 3 ∈ manager.toRemove) := by decide
  rw [reached, all_some, decide_eq_true_eq] at listed
  obtain ⟨versions, _, opens⟩ := bind_eq_some_iff.mp reached
  obtain ⟨start, isOpen, ran⟩ := bind_eq_some_iff.mp opens
  exact ⟨manager, reached, listed,
    (removeObsoleteFiles_safe countingConfig Disk.empty versions [] isOpen _ ran).2.2 _ listed⟩

/-- Every update in the log is in a table of the current version. -/
def logSaved [DecidableEq Value] (manager : FileManager Key Value) : FileName → Bool
  | .log number =>
      ((manager.db.disk.logs.lookup number).getD []).all fun batch =>
        batch.items.all fun item =>
          decide (item ∈ manager.db.versions.current.items manager.db.disk.tables)
  | .descriptor _ | .table _ | .temp _ | .other => true

/-- A log that is being removed may hold updates that no table of the current version has. In
the first run a write failed, but left its record. In the second all writes succeeded; the log
could not be removed when it was retired, and is removed after a compaction that dropped its
update for a newer one. -/
theorem removed_log_unsaved :
    (∃ manager, reachNew countingConfig
        [.write [.put 1 7] (.failed true), .switchMemTable .ok, .startFlush, .endBuild true none,
          .endLogging true [.log 3]] = some manager ∧
      ∃ file ∈ manager.toRemove, manager.logSaved file = false) ∧
    ∃ manager, reachNew countingConfig
        [.write [.put 1 7] .ok, .switchMemTable .ok, .startFlush, .endBuild true none,
          .endLogging true [.log 3], .removeFile false,
          .write [.put 1 8] .ok, .switchMemTable .ok, .startFlush, .endBuild true none,
          .endLogging true [],
          .startCompaction (.manual 1 none none) none, .turn, .turn, .endCompaction,
          .endLogging true [.log 3]] = some manager ∧
      manager.failedWrites = [] ∧ ∃ file ∈ manager.toRemove, manager.logSaved file = false := by
  constructor
  · have found : (reachNew countingConfig
        [.write [.put 1 7] (.failed true), .switchMemTable .ok, .startFlush, .endBuild true none,
          .endLogging true [.log 3]]).any
        fun manager => decide (∃ file ∈ manager.toRemove, manager.logSaved file = false) := by
      decide
    obtain ⟨manager, reached, holds⟩ := (any_eq_true _ _).mp found
    exact ⟨manager, reached, of_decide_eq_true holds⟩
  · have found : (reachNew countingConfig
        [.write [.put 1 7] .ok, .switchMemTable .ok, .startFlush, .endBuild true none,
          .endLogging true [.log 3], .removeFile false,
          .write [.put 1 8] .ok, .switchMemTable .ok, .startFlush, .endBuild true none,
          .endLogging true [],
          .startCompaction (.manual 1 none none) none, .turn, .turn, .endCompaction,
          .endLogging true [.log 3]]).any
        fun manager => decide (manager.failedWrites = [] ∧
          ∃ file ∈ manager.toRemove, manager.logSaved file = false) := by
      decide +kernel
    obtain ⟨manager, reached, holds⟩ := (any_eq_true _ _).mp found
    exact ⟨manager, reached, of_decide_eq_true holds⟩

end

end FileManager

end CodeReading.Leveldb
