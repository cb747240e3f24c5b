import CodeReading.Leveldb.ValidSteps
import CodeReading.Leveldb.VersionReads
import Mathlib.Data.List.Dedup

/-!
# Opening a database after a crash

Whatever the last step before a crash was, the disk of a valid database can be opened:
the descriptor replays to the version that was current, and the logs that are not older
than it says hold exactly the two memtables. They become tables of level 0 with numbers
above all others, so that a lookup meets them in the order in which it met the memtables.
-/

namespace CodeReading.Leveldb

open List VersionSet
open SaverState (ofNewest)
open Batch (items)
open Db (begin)

variable {Key Value : Type} [LinearOrder Key] [Inhabited Value]

/-- A disk from which a database can be opened. Its tables hold sequence numbers up to
`start` and the records of its logs those from there to `top`. -/
structure Recoverable (config : Config Key Value) (disk : Disk Key Value)
    (versions : VersionSet Key) (start top : Nat) : Prop where
  recovered : VersionSet.recover config.comparatorName
    (disk.manifest.getD [newDbEdit config.comparatorName]) = .ok versions
  stored : Stored disk.table start versions.current
  numbers : ∀ level, ∀ file ∈ versions.current.files level, file.number < versions.nextFileNumber
  records : Numbered start (pendingRecords versions disk.logs) top
  known : start ≤ versions.lastSequence
  bounded : versions.lastSequence ≤ top
  log : versions.logNumber < versions.nextFileNumber
  positive : 0 ∉ disk.logs

section

variable {config : Config Key Value} {disk : Disk Key Value} {versions : VersionSet Key}
  {start top : Nat} {records : List (Batch Key Value)} {recovered : Recovered Key Value}

section

variable (recoverable : Recoverable config disk versions start top)
  (replayed : Replayed disk.table versions.nextFileNumber start records top recovered)
include recoverable replayed

/-- The tables made from logs are all that the edit of `DB::Open` adds. -/
theorem openEdit_adds :
    Adds [versions.snapshotEdit config.comparatorName] (versions.afterLogs recovered) 0
      recovered.files recovered.openEdit := by
  have written : Written config.comparatorName [versions.snapshotEdit config.comparatorName]
      { versions with nextFileNumber := versions.nextFileNumber } :=
    snapshot_written recoverable.stored.shallow recoverable.stored.sound.distinct
      recoverable.stored.sound.separate rfl recoverable.numbers
  constructor
  · exact congrArg VersionEdit.newFiles replayed.shape
  · exact congrArg VersionEdit.comparator replayed.shape
  · decide
  · exact replayed.increasing.imp fun less => less.ne
  · intro file member
    exact .inl (written_unused written (replayed.taken file member).1)
  · intro file member
    exact (replayed.taken file member).2.trans (Nat.lt_succ_self _)
  · exact Nat.le_succ _

theorem openEdit_written :
    Written config.comparatorName [versions.snapshotEdit config.comparatorName]
      (versions.afterLogs recovered) := by
  apply snapshot_written recoverable.stored.shallow recoverable.stored.sound.distinct
    recoverable.stored.sound.separate
  · rfl
  · intro level file member
    have small := recoverable.numbers level file member
    exact (small.trans_le replayed.counter).trans (Nat.lt_succ_self _)

/-- The last sequence number is that of the last record, or the one on record. -/
theorem afterLogs_sequence (reached : recovered.maxSequence = highest records top) :
    (versions.afterLogs recovered).lastSequence = top := by
  have known := recoverable.known
  have bounded := recoverable.bounded
  rw [afterLogs, reached, highest]
  simp only
  split
  · rename_i none
    have numbered := replayed.numbered
    rw [none] at numbered
    obtain rfl : start = top := numbered
    omega
  · exact max_eq_right bounded

theorem openEdit_stored : Stored recovered.table top
      ((versions.afterLogs recovered).apply
        ((versions.afterLogs recovered).complete recovered.openEdit)).current := by
  apply adds_stored (openEdit_adds recoverable replayed) (openEdit_written recoverable replayed)
    recoverable.stored _ _ (numbered_le replayed.numbered)
  · intro level file member
    exact replayed.kept _ (recoverable.numbers level file member)
  · intro file member
    obtain ⟨items, present, holds⟩ := replayed.stored file member
    refine ⟨items, present, holds, ?_⟩
    intro item _
    have recorded : item ∈ records.flatMap Batch.items := by
      rw [← replayed.items]
      refine mem_flatMap.mpr ⟨file, member, ?_⟩
      rwa [contents, present]
    exact (numbered_bounds replayed.numbered recorded).2

theorem begin_table
    (member : file ∈ (begin config disk versions recovered).versions.current.files level) :
    (begin config disk versions recovered).disk.table file.number =
      recovered.table file.number := by
  refine (retain_lookup _).trans (if_pos (decide_eq_true ?_))
  exact numbers_mem (shallow_level (openEdit_stored recoverable replayed) member) member

section

variable (reached : recovered.maxSequence = highest records top)
  (past : ∀ number ∈ logsToRecover versions disk.logs, number < recovered.nextFileNumber)
include reached past

theorem begin_logged : Logged (begin config disk versions recovered) top [] [] := by
  have log := recoverable.log
  have counter := replayed.counter
  have present : ∀ number ∈ (begin config disk versions recovered).disk.logs,
      number = recovered.nextFileNumber ∨ number ∈ disk.logs := fun number member =>
    (AList.mem_insert _).mp (retain_mem member).2
  constructor
  · exact (afterLogs_sequence recoverable replayed reached).symm
  · rfl
  · exact .inl ⟨rfl, rfl, rfl⟩
  · refine (retain_lookup _).trans ((if_pos ?_).trans (AList.lookup_insert _))
    exact (Bool.or_eq_true _ _).mpr (.inl (decide_eq_true le_rfl))
  · intro number member atLeast
    cases present number member with
    | inl same => exact .inl same
    | inr old =>
      have above : recovered.nextFileNumber ≤ number := atLeast
      have needed : number ∈ logsToRecover versions disk.logs := by
        rw [logsToRecover_mem]
        refine ⟨old, ?_⟩
        simp only [needsLog, Bool.or_eq_true, decide_eq_true_eq]
        omega
      exact absurd (past number needed) (not_lt.mpr above)
  · intro member
    cases present 0 member with
    | inl same => omega
    | inr old => exact recoverable.positive old
  · rfl
  · exact Nat.lt_succ_self _

theorem begin_valid : Valid config [versions.snapshotEdit config.comparatorName,
        (versions.afterLogs recovered).complete recovered.openEdit] top [] []
      (begin config disk versions recovered) := by
  constructor
  · rfl
  · exact adds_recorded (openEdit_adds recoverable replayed) (openEdit_written recoverable replayed)
      recoverable.stored (afterLogs_sequence recoverable replayed reached).ge
  · apply stored_congr (openEdit_stored recoverable replayed)
    intro _ _ member
    exact begin_table recoverable replayed member
  · exact begin_logged recoverable replayed reached past
  · intro _ none
    cases none

end

end

/-- The tables made from logs, from the last to the first, read like their records. -/
theorem replayed_reads (replayed : Replayed before first start records top recovered)
    (userKey : Key) (sequence : Nat) :
    firstHit ((recovered.files.reverse.map (contents recovered.table)).map
        fun items => lookup items userKey sequence) =
      ofNewest (newest (records.flatMap items) userKey sequence) := by
  have layered : Layered (recovered.files.reverse.map (contents recovered.table)) := by
    refine pairwise_map.mpr (pairwise_reverse.mpr ?_)
    refine replayed.chronological.imp ?_
    intro _ _ ordered recent recentMember old oldMember _
    exact ordered old oldMember recent recentMember
  have sorted : ∀ items ∈ recovered.files.reverse.map (contents recovered.table),
      Sorted items := by
    intro items member
    obtain ⟨file, inside, rfl⟩ := mem_map.mp member
    obtain ⟨items, present, holds⟩ := replayed.stored file (mem_reverse.mp inside)
    rw [contents, present]
    exact holds.sorted
  rw [firstHit_newest layered sorted]
  refine congrArg _ (newest_congr (layered_distinct layered sorted) ?_ userKey sequence)
  intro item
  rw [← replayed.items item, mem_flatMap, mem_flatten]
  simp only [mem_map, mem_reverse]
  constructor
  · rintro ⟨_, ⟨file, member, rfl⟩, inside⟩
    exact ⟨file, member, inside⟩
  · rintro ⟨file, member, inside⟩
    exact ⟨_, ⟨file, member, rfl⟩, inside⟩

theorem openEdit_deletedAt (replayed : Replayed before first start records top recovered)
    (level : Nat) : recovered.openEdit.deletedAt level = [] := by
  rw [VersionEdit.deletedAt, Recovered.openEdit, replayed.shape]
  rfl

section

variable (recoverable : Recoverable config disk versions start top)
  (replayed : Replayed disk.table versions.nextFileNumber start records top recovered)
include recoverable replayed

/-- The opened database has the files that were recovered and the tables made from logs. -/
theorem begin_files (level : Nat) (file : FileMetaData Key) :
    file ∈ (begin config disk versions recovered).versions.current.files level ↔
      file ∈ versions.current.files level ∨ level = 0 ∧ file ∈ recovered.files := by
  refine (adds_files (openEdit_adds recoverable replayed) (openEdit_written recoverable replayed)
    recoverable.stored level file).trans ?_
  rw [openEdit_deletedAt replayed]
  simp [afterLogs]

theorem begin_oldTable (member : file ∈ versions.current.files level) :
    (begin config disk versions recovered).disk.table file.number = disk.table file.number := by
  rw [begin_table recoverable replayed
    ((begin_files recoverable replayed level file).mpr (.inl member))]
  exact replayed.kept _ (recoverable.numbers level file member)

theorem begin_newTable (member : file ∈ recovered.files) :
    (begin config disk versions recovered).disk.table file.number =
      recovered.table file.number :=
  begin_table recoverable replayed
    ((begin_files recoverable replayed 0 file).mpr (.inr ⟨rfl, member⟩))

/-- An opened database reads the records of the logs first, then the old tables. -/
theorem begin_get (userKey : Key) (sequence : Nat) :
    (begin config disk versions recovered).get userKey sequence =
      (ofNewest (newest (records.flatMap items) userKey sequence)).orElse
        (versions.current.get disk.table userKey sequence) := by
  have sameContents : recovered.files.reverse.map
      (contents (begin config disk versions recovered).disk.table) =
        recovered.files.reverse.map (contents recovered.table) := by
    apply map_congr_left
    intro file member
    rw [contents, contents, begin_newTable recoverable replayed (mem_reverse.mp member)]
  have whole : (begin config disk versions recovered).get userKey sequence =
      (begin config disk versions recovered).versions.current.get
        (begin config disk versions recovered).disk.table userKey sequence := by
    exact firstHit_singleton _
  rw [whole, ← replayed_reads replayed, ← sameContents]
  apply get_added
  · intro file
    rw [begin_files recoverable replayed 0 file]
    simp
  · intro level deep
    apply applyEdit_untouched (openEdit_deletedAt replayed level)
    rw [addedAt_target (openEdit_adds recoverable replayed).shape, if_neg deep]
  · exact (openEdit_stored recoverable replayed).sound.distinct 0
  · exact recoverable.stored.sound.distinct 0
  · exact replayed.increasing
  · intro old member new isNew
    exact (recoverable.numbers 0 old member).trans_le (replayed.taken new isNew).1
  · intro level file member
    exact begin_oldTable recoverable replayed member
  · intro file member
    rw [begin_newTable recoverable replayed member]
    exact replayed.stored file member

end

/-- No file of a recoverable disk is missing, so it opens. -/
theorem open_begin (recoverable : Recoverable config disk versions start top) :
    Db.open config disk = .ok (begin config disk versions (recoverLogs config disk versions)) := by
  have complete : disk.missingFiles versions.current = [] := by
    rw [eq_nil_iff_forall_not_mem]
    intro _ member
    rw [Disk.missingFiles, mem_insertionSort, mem_dedup, mem_filter] at member
    obtain ⟨named, missing⟩ := member
    obtain ⟨level, _, inLevel⟩ := mem_flatMap.mp named
    obtain ⟨file, inside, rfl⟩ := mem_map.mp inLevel
    obtain ⟨_, present, _⟩ := recoverable.stored.sound.stored level file inside
    simp [mem_of_lookup present] at missing
  simp [Db.open, recoverable.recovered, complete]

/-- A recoverable disk opens to a valid database that reads the records of the logs and
then the tables. -/
theorem open_recoverable (recoverable : Recoverable config disk versions start top) :
    ∃ db edits, Db.open config disk = .ok db ∧ Valid config edits top [] [] db ∧
      db.versions.lastSequence = top ∧
      ∀ userKey sequence, db.get userKey sequence =
        (ofNewest (newest ((pendingRecords versions disk.logs).flatMap items)
          userKey sequence)).orElse (versions.current.get disk.table userKey sequence) := by
  obtain ⟨replayed, reached, _, past⟩ := recoverLogs_replayed config recoverable.records
  refine ⟨_, _, open_begin recoverable, begin_valid recoverable replayed reached past, ?_, ?_⟩
  · exact afterLogs_sequence recoverable replayed reached
  · exact begin_get recoverable replayed

end

section

variable {config : Config Key Value} {edits : List (VersionEdit Key)}
  {immRecords memRecords : List (Batch Key Value)} {db : Db Key Value}

omit [Inhabited Value] in
theorem logsToRecover_increasing {logs : Directory (List (Batch Key Value))} :
    (logsToRecover versions logs).Pairwise fun left right => left < right := by
  have weakly := List.pairwise_insertionSort (fun left right : Nat => left ≤ right)
    (logs.keys.filter versions.needsLog)
  have apart : (logsToRecover versions logs).Pairwise fun left right => left ≠ right :=
    (List.perm_insertionSort _ _).symm.pairwise (logs.keys_nodup.filter _) fun differ => differ.symm
  exact (weakly.and apart).imp fun both => lt_of_le_of_ne both.1 both.2

/-- The records that recovery will replay are those of the two memtables. -/
theorem pendingRecords_logged (logged : Logged db start immRecords memRecords)
    (log : versions.logNumber = db.versions.logNumber)
    (prev : versions.prevLogNumber = db.versions.prevLogNumber) :
    pendingRecords versions db.disk.logs = immRecords ++ memRecords := by
  have present : db.logfileNumber ∈ db.disk.logs := mem_of_lookup logged.log
  have members : ∀ number, number ∈ logsToRecover versions db.disk.logs ↔
      number ∈ db.disk.logs ∧ db.versions.logNumber ≤ number := by
    intro number
    rw [logsToRecover_mem, needsLog, log, prev, logged.prev]
    refine and_congr_right fun member => ?_
    have named : number ≠ 0 := fun zero => logged.positive (zero ▸ member)
    simp [named]
  cases logged.imm with
  | inl without =>
    obtain ⟨_, rfl, current⟩ := without
    have numbers : logsToRecover versions db.disk.logs = [db.logfileNumber] := by
      apply pairwise_unique _ (logsToRecover_increasing) (pairwise_singleton _ _)
      · intro number
        rw [members, mem_singleton, current]
        constructor
        · rintro ⟨member, reached⟩
          exact (logged.only number member (current ▸ reached)).elim (fun same => same.trans current)
            id
        · rintro rfl
          exact ⟨present, le_rfl⟩
      · intro _ _ less
        exact less.not_gt
    simp [pendingRecords, numbers, logged.log]
  | inr withImm =>
    obtain ⟨_, below, found⟩ := withImm
    have numbers : logsToRecover versions db.disk.logs =
        [db.versions.logNumber, db.logfileNumber] := by
      apply pairwise_unique _ (logsToRecover_increasing) (pairwise_pair.mpr below)
      · intro number
        rw [members, mem_pair]
        constructor
        · rintro ⟨member, reached⟩
          exact logged.only number member reached
        · rintro (rfl | rfl)
          · exact ⟨mem_of_lookup found, le_rfl⟩
          · exact ⟨present, below.le⟩
      · intro _ _ less
        exact less.not_gt
    simp [pendingRecords, numbers, logged.log, found]

section

variable (valid : Valid config edits start immRecords memRecords db)
include valid

theorem valid_recoverable :
    ∃ versions, Recoverable config db.disk versions start db.versions.lastSequence ∧
      versions.current = db.versions.current ∧
      pendingRecords versions db.disk.logs = immRecords ++ memRecords := by
  obtain ⟨versions, made, current, log, prev, ⟨known, bounded⟩, numbers, logBelow⟩ :=
    recover_recorded valid.recorded valid.stored.ordered
  have records := pendingRecords_logged valid.logged log prev
  refine ⟨versions, ?_, current, records⟩
  constructor
  · rw [valid.manifest]
    exact made
  · rw [current]
    exact valid.stored
  · rw [current]
    exact numbers
  · rw [records]
    exact valid.logged.numbered
  · exact known
  · exact bounded
  · exact logBelow
  · exact valid.logged.positive

theorem valid_imm : db.imm.getD [] = rebuild immRecords := by
  cases valid.logged.imm with
  | inl without =>
    obtain ⟨none, rfl, _⟩ := without
    rw [none]
    rfl
  | inr withImm =>
    rw [withImm.1]
    rfl

/-- The sequence numbers of the memtables lie above those of the tables, and those of the
current one above those of the immutable one. -/
theorem valid_memtables : Sorted db.mem ∧ Sorted (db.imm.getD []) ∧
    ∃ middle, start ≤ middle ∧
      (∀ item ∈ db.imm.getD [], start < item.key.sequence ∧ item.key.sequence ≤ middle) ∧
      ∀ item ∈ db.mem, middle < item.key.sequence := by
  obtain ⟨middle, older, newer⟩ := numbered_append.mp valid.logged.numbered
  rw [valid.logged.mem, valid_imm valid]
  refine ⟨rebuild_sorted newer, rebuild_sorted older, middle, numbered_le older, ?_, ?_⟩
  · intro item member
    exact numbered_bounds older ((rebuild_mem _ _).mp member)
  · intro item member
    exact (numbered_bounds newer ((rebuild_mem _ _).mp member)).1

theorem valid_get (userKey : Key) (sequence : Nat) : db.get userKey sequence =
      (ofNewest (newest ((immRecords ++ memRecords).flatMap items) userKey
        sequence)).orElse (db.versions.current.get db.disk.table userKey sequence) := by
  obtain ⟨memSorted, immSorted, _, _, immBounds, memBounds⟩ := valid_memtables valid
  have layered : Layered [db.mem, db.imm.getD []] := by
    refine pairwise_pair.mpr ?_
    intro recent recentMember old oldMember _
    exact (immBounds old oldMember).2.trans_lt (memBounds recent recentMember)
  have sorted : ∀ items ∈ [db.mem, db.imm.getD []], Sorted items := by
    intro items member
    cases mem_pair.mp member with
    | inl same => exact same ▸ memSorted
    | inr same => exact same ▸ immSorted
  have both := firstHit_newest layered sorted userKey sequence
  have same : ∀ item, item ∈ [db.mem, db.imm.getD []].flatten ↔
      item ∈ (immRecords ++ memRecords).flatMap items := by
    intro item
    simp only [flatten_cons, flatten_nil, append_nil, mem_append,
      flatMap_append, valid.logged.mem, valid_imm valid, rebuild_mem]
    exact or_comm
  rw [newest_congr (layered_distinct layered sorted) same] at both
  rw [← both, Db.get]
  exact (firstHit_append [_, _] [_]).trans (congrArg _ (firstHit_singleton _))

end

end

section

variable {config : Config Key Value} {db next : Db Key Value}

omit [Inhabited Value] in
/-- The directory before the database was created. -/
theorem empty_recoverable (config : Config Key Value) :
    ∃ versions, Recoverable config Disk.empty versions 0 0 := by
  have named : foreignComparator config.comparatorName
      [(newDbEdit config.comparatorName : VersionEdit Key)] = none := by
    simp [foreignComparator, newDbEdit]
  have made : recover config.comparatorName
      [(newDbEdit config.comparatorName : VersionEdit Key)] = .ok
        ⟨(replay [newDbEdit config.comparatorName]).saveTo Version.empty, fun _ => none, 3, 0, 0,
          0⟩ := by
    rw [recover, named]
    rfl
  refine ⟨_, made, ⟨?_, ?_, ⟨?_, ?_, ?_⟩, ?_⟩, ?_, rfl, le_refl _, le_refl _,
    (by decide : 0 < 3), ?_⟩
  · intro level
    exact List.Pairwise.nil
  · intro level _
    rfl
  · intro level file member
    cases member
  · intro level
    exact List.Pairwise.nil
  · intro level _ _ file member
    cases member
  · intro level file member
    cases member
  · intro level file member
    cases member
  · exact AList.notMem_empty 0

theorem step_agrees (agrees : Agrees config db)
    (taken : step config db event = some next) : Agrees config next := by
  obtain ⟨edits, start, immRecords, memRecords, valid⟩ := agrees
  cases step_transition taken with
  | write updates => exact ⟨_, _, _, _, write_valid valid updates⟩
  | switchMemTable without => exact ⟨_, _, _, _, switchMemTable_valid valid without⟩
  | compactMemTable imm waiting =>
    obtain ⟨_, more, flushed⟩ := compactMemTable_valid valid waiting
    exact ⟨_, _, _, _, flushed⟩
  | startCompaction request next idle started =>
    obtain ⟨more, startedValid⟩ := startCompaction_valid valid idle started
    exact ⟨_, _, _, _, startedValid⟩
  | turn running item rest next isRunning input turned =>
    exact ⟨_, _, _, _, turn_valid valid isRunning input turned⟩
  | install running isRunning =>
    obtain ⟨more, installed⟩ := install_valid valid isRunning
    exact ⟨_, _, _, _, installed⟩
  | removeObsoleteFiles pinned => exact ⟨_, _, _, _, removeObsoleteFiles_valid valid pinned⟩
  | getSnapshot | releaseSnapshot _ =>
    exact ⟨_, _, _, _, valid.manifest, valid.recorded, valid.stored, { valid.logged with },
      valid.running⟩
  | reopen next opened =>
    obtain ⟨_, recoverable, _, _⟩ := valid_recoverable valid
    obtain ⟨_, more, made, validToo, _⟩ := open_recoverable recoverable
    rw [made] at opened
    obtain rfl := Except.ok.inj opened
    exact ⟨_, _, _, _, validToo⟩

/-- So does every run on a new database. -/
theorem reach_agrees (reached : reach config events = some db) : Agrees config db := by
  obtain ⟨_, opened, ran⟩ := Option.bind_eq_some_iff.mp reached
  obtain ⟨_, recoverable⟩ := empty_recoverable config
  obtain ⟨_, _, made, valid, _⟩ := open_recoverable recoverable
  rw [made] at opened
  obtain rfl := Option.some.inj opened
  exact Machine.run_invariant (step config) (Agrees config)
    (fun _ _ _ taken agrees => step_agrees agrees taken) ⟨_, _, _, _, valid⟩ ran

/-- After a crash at any point of any run the database opens again, every user key reads
at the latest sequence number as it did before, and no sequence number in the recovered
tables and logs is greater than the last one. -/
theorem crash_recovery (config : Config Key Value) (events : List (Event Key Value))
    (db : Db Key Value) (reached : reach config events = some db) :
    ∃ recovered, Db.open config db.disk = .ok recovered ∧
      (∀ userKey, recovered.get userKey recovered.versions.lastSequence =
        db.get userKey db.versions.lastSequence) ∧
      (∀ level, ∀ file ∈ recovered.versions.current.files level,
        ∀ item ∈ contents recovered.disk.table file,
          item.key.sequence ≤ recovered.versions.lastSequence) ∧
      ∀ number records, db.versions.logNumber ≤ number →
        db.disk.logs.lookup number = some records → ∀ batch ∈ records,
          ∀ entry ∈ Leveldb.number batch.sequence batch.updates,
            entry.sequence ≤ recovered.versions.lastSequence := by
  obtain ⟨_, _, immRecords, memRecords, valid⟩ := reach_agrees reached
  obtain ⟨versions, recoverable, current, records⟩ := valid_recoverable valid
  obtain ⟨recovered, _, opened, validToo, last, reads⟩ := open_recoverable recoverable
  refine ⟨recovered, opened, ?_, ?_, ?_⟩
  · intro userKey
    rw [reads, valid_get valid, last, records, current]
  · intro level file member item inside
    exact (validToo.stored.aged level file member item inside).trans last.ge
  · intro number _ needed present batch member entry inside
    have replayed : batch ∈ immRecords ++ memRecords := by
      have held : number ∈ db.disk.logs := mem_of_lookup present
      have logged := valid.logged
      cases logged.only number held needed with
      | inl old =>
        subst old
        cases logged.imm with
        | inl without =>
          rw [without.2.2, logged.log] at present
          exact mem_append_right _ (Option.some.inj present ▸ member)
        | inr withImm =>
          rw [withImm.2.2] at present
          exact mem_append_left _ (Option.some.inj present ▸ member)
      | inr same =>
        subst same
        rw [logged.log] at present
        exact mem_append_right _ (Option.some.inj present ▸ member)
    have item : entry.item ∈ (immRecords ++ memRecords).flatMap items :=
      mem_flatMap.mpr ⟨batch, replayed, mem_map_of_mem inside⟩
    have bound := (numbered_bounds valid.logged.numbered item).2
    rw [item_sequence] at bound
    exact bound.trans last.ge

/-- A database over numbers, with sizes that count items. -/
def countingConfig : Config Nat Nat :=
  ⟨"db", ⟨1000, 1000⟩, ⟨List.length, List.length⟩, List.length, "leveldb.BytewiseComparator"⟩

theorem crash_recovery_pending :
    ∃ db, reach countingConfig [.write [.put 1 7], .switchMemTable, .write [.delete 1, .put 2 8]] =
        some db ∧
      ∃ recovered, Db.open countingConfig db.disk = .ok recovered ∧
        ∀ userKey, recovered.get userKey recovered.versions.lastSequence =
          db.get userKey db.versions.lastSequence := by
  obtain ⟨db, reached⟩ : ∃ db, reach countingConfig
      [.write [.put 1 7], .switchMemTable, .write [.delete 1, .put 2 8]] = some db :=
    Option.isSome_iff_exists.mp (by decide)
  obtain ⟨recovered, opened, reads, _⟩ := crash_recovery countingConfig _ db reached
  exact ⟨db, reached, recovered, opened, reads⟩

/-- At any point of any run, a write changes nothing that is read at an earlier sequence number. -/
theorem write_isolated (config : Config Key Value) (events : List (Event Key Value))
    (db : Db Key Value) (reached : reach config events = some db)
    (updates : List (Update Key Value)) (userKey : Key) (sequence : Nat)
    (earlier : sequence ≤ db.versions.lastSequence) :
    (db.write updates).get userKey sequence = db.get userKey sequence := by
  obtain ⟨_, _, _, _, valid⟩ := reach_agrees reached
  have unseen : (items ⟨db.versions.lastSequence + 1, updates⟩).filter
      (visible userKey sequence) = [] := by
    rw [filter_eq_nil_iff]
    intro item member seen
    have young : db.versions.lastSequence < item.key.sequence := (batch_bounds member).1
    exact (((visible_iff _ _ _).mp seen).2.trans earlier).not_gt young
  rw [valid_get (write_valid valid updates), valid_get valid]
  simp only [newest, flatMap_append, flatMap_singleton, filter_append, unseen, append_nil]
  rfl

theorem write_isolated_delete :
    ∃ db, reach countingConfig [.write [.put 1 7]] = some db ∧
      (db.write [.delete 1]).get 1 1 = db.get 1 1 :=
  ⟨_, rfl, write_isolated countingConfig [.write [.put 1 7]] _ rfl [.delete 1] 1 1 (by decide)⟩

end

end CodeReading.Leveldb
