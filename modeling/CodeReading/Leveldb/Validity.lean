import CodeReading.Leveldb.CompactionViews
import CodeReading.Leveldb.LogReplay

/-!
# What every step of the database keeps

A valid database agrees with its disk. The descriptor replays to the current version,
every table that a version names is there, the two memtables are what their logs rebuild,
and the outputs of a compaction in progress have tables and numbers of their own. The
sequence numbers divide the data: tables hold those up to some number, then come the log
of the immutable memtable and the log of the current one.

Levels need not be disjoint for this, so it holds in all runs.
-/

namespace CodeReading.Leveldb

open List AList

variable {Key Value : Type}

section

variable {Contents : Type}

theorem foldl_erase_lookup (numbers : List Nat) (directory : Directory Contents) (number : Nat) :
    (numbers.foldl (fun remaining gone => remaining.erase gone) directory).lookup number =
      if number ∈ numbers then none else directory.lookup number := by
  induction numbers generalizing directory with
  | nil => simp
  | cons head rest ih =>
    rw [foldl_cons, ih]
    by_cases later : number ∈ rest
    · simp [later]
    · by_cases same : number = head
      · subst same
        simp
      · rw [if_neg later, lookup_erase_ne same, if_neg (by simp [same, later])]

variable {directory : Directory Contents}

theorem retain_lookup (number : Nat) : (directory.retain wanted).lookup number =
      if wanted number then directory.lookup number else none := by
  rw [Directory.retain, foldl_erase_lookup]
  by_cases present : number ∈ directory.keys
  · cases isWanted : wanted number <;> simp [mem_filter, present, isWanted]
  · have missing : directory.lookup number = none :=
      lookup_eq_none.mpr fun member => present (mem_keys.mpr member)
    simp [missing]

theorem mem_of_lookup {number : Nat} {contents : Contents}
    (found : directory.lookup number = some contents) : number ∈ directory := by
  rw [← lookup_isSome, found]
  rfl

theorem retain_mem {number : Nat} (member : number ∈ directory.retain wanted) :
    wanted number = true ∧ number ∈ directory := by
  rw [← lookup_isSome, retain_lookup] at member
  split at member
  · rename_i isWanted
    exact ⟨isWanted, lookup_isSome.mp member⟩
  · cases member

end

variable [LinearOrder Key]

theorem logsToRecover_mem {logs : Directory (List (Batch Key Value))} {number : Nat} :
    number ∈ logsToRecover versions logs ↔ number ∈ logs ∧ versions.needsLog number = true := by
  rw [logsToRecover, mem_insertionSort, mem_filter, AList.mem_keys]

/-- Writing the outputs of a compaction touches their own numbers only. -/
theorem writeOutputs_table (disk : Disk Key Value) (outputs : List (Output Key Value)) :
    (disk.writeOutputs outputs).table = writeTables disk.table outputs := by
  funext number
  suffices all : ∀ (tables : Directory (List (Item Key Value))),
      (outputs.foldl (fun tables output => tables.insert output.number output.items)
        tables).lookup number = writeTables (fun number => tables.lookup number) outputs number from
    all disk.tables
  induction outputs with
  | nil =>
    intro tables
    rfl
  | cons head rest ih =>
    intro tables
    have inserted : (fun other => (tables.insert head.number head.items).lookup other) =
        Function.update (fun other => tables.lookup other) head.number (some head.items) := by
      funext other
      by_cases same : other = head.number
      · subst same
        rw [lookup_insert, Function.update_self]
      · rw [lookup_insert_ne same, Function.update_of_ne same]
    rw [foldl_cons, ih, inserted]
    rfl

theorem numbers_mem {version : Version Key} (within : level < kNumLevels)
    (member : file ∈ version.files level) :
    file.number ∈ version.numbers :=
  mem_flatMap.mpr ⟨level, mem_range.mpr within, mem_map_of_mem member⟩

section

/-- The tables of a version, with sequence numbers up to `start`. -/
structure Stored (tables : Nat → Option (List (Item Key Value))) (start : Nat)
    (version : Version Key) : Prop where
  ordered : ∀ level, ByPosition (version.files level)
  shallow : ∀ level, kNumLevels ≤ level → version.files level = []
  sound : Sound tables version
  aged : ∀ level, ∀ file ∈ version.files level, ∀ item ∈ contents tables file,
    item.key.sequence ≤ start

/-- The memtables and their logs. Without an immutable memtable only the current log
counts; with one, the log that the descriptor names is its log. -/
structure Logged [Inhabited Value] (db : Db Key Value) (start : Nat)
    (immRecords memRecords : List (Batch Key Value)) : Prop where
  numbered : Numbered start (immRecords ++ memRecords) db.versions.lastSequence
  mem : db.mem = rebuild memRecords
  imm : (db.imm = none ∧ immRecords = [] ∧ db.versions.logNumber = db.logfileNumber) ∨
    db.imm = some (rebuild immRecords) ∧ db.versions.logNumber < db.logfileNumber ∧
      db.disk.logs.lookup db.versions.logNumber = some immRecords
  log : db.disk.logs.lookup db.logfileNumber = some memRecords
  only : ∀ number ∈ db.disk.logs, db.versions.logNumber ≤ number →
    number = db.versions.logNumber ∨ number = db.logfileNumber
  positive : 0 ∉ db.disk.logs
  prev : db.versions.prevLogNumber = 0
  counter : db.logfileNumber < db.versions.nextFileNumber

/-- The outputs of a compaction in progress. -/
structure Underway (edits : List (VersionEdit Key)) (tables : Nat → Option (List (Item Key Value)))
    (counter start : Nat) (running : Running Key Value) : Prop where
  pointer : ∃ key, running.compaction.edit =
    VersionEdit.empty.setCompactPointer running.compaction.level key
  deepest : running.compaction.level + 1 < kNumLevels
  increasing : running.work.allOutputs.Pairwise fun left right => left.number < right.number
  unused : ∀ output ∈ running.work.allOutputs, Unused edits output.number
  taken : ∀ output ∈ running.work.allOutputs, output.number < counter
  nonempty : ∀ output ∈ running.work.allOutputs, output.items ≠ []
  sorted : ∀ output ∈ running.work.allOutputs, Sorted output.items
  stored : ∀ output ∈ running.work.allOutputs, tables output.number = some output.items
  aged : ∀ item ∈ running.work.written ++ running.input, item.key.sequence ≤ start

/-- The database agrees with its disk. -/
structure Valid [Inhabited Value] (config : Config Key Value) (edits : List (VersionEdit Key))
    (start : Nat) (immRecords memRecords : List (Batch Key Value)) (db : Db Key Value) : Prop where
  manifest : db.disk.manifest = some edits
  recorded : Recorded config.comparatorName start edits db.versions
  stored : Stored db.disk.table start db.versions.current
  logged : Logged db start immRecords memRecords
  running : ∀ running ∈ db.running,
    Underway edits db.disk.table db.versions.nextFileNumber start running

/-- The database agrees with its disk, for some history. -/
def Agrees [Inhabited Value] (config : Config Key Value) (db : Db Key Value) : Prop :=
  ∃ edits start immRecords memRecords, Valid config edits start immRecords memRecords db

end

section

variable {tables after : Nat → Option (List (Item Key Value))}

theorem shallow_level (stored : Stored tables start version) (member : file ∈ version.files level) :
    level < kNumLevels := by
  by_contra deep
  rw [stored.shallow level (not_lt.mp deep)] at member
  cases member

theorem stored_congr (stored : Stored tables start version)
    (kept : ∀ level, ∀ file ∈ version.files level, after file.number = tables file.number) :
    Stored after start version := by
  constructor
  · exact stored.ordered
  · exact stored.shallow
  · refine { stored.sound with stored := ?_ }
    intro level file member
    rw [kept level file member]
    exact stored.sound.stored level file member
  · intro level file member item inside
    rw [contents, kept level file member] at inside
    exact stored.aged level file member item inside

theorem underway_later (underway : Underway edits tables counter start running)
    (unused : ∀ output ∈ running.work.allOutputs, Unused more output.number)
    (kept : ∀ output ∈ running.work.allOutputs, after output.number = tables output.number)
    (grown : counter ≤ later) (older : start ≤ top) : Underway more after later top running := by
  refine { underway with unused := unused, taken := ?_, stored := ?_, aged := ?_ }
  · intro output member
    exact (underway.taken output member).trans_le grown
  · intro output member
    rw [kept output member]
    exact underway.stored output member
  · intro item member
    exact (underway.aged item member).trans older

end

section

variable {tables after : Nat → Option (List (Item Key Value))} {start top target : Nat}
  {edits : List (VersionEdit Key)} {versions : VersionSet Key} {files : List (FileMetaData Key)}
  {edit : VersionEdit Key}

/-- An edit as the database makes them: it adds files to one level, under numbers that
were not used before, or a file that it removes from a level above. -/
structure Adds (edits : List (VersionEdit Key)) (versions : VersionSet Key) (target : Nat)
    (files : List (FileMetaData Key)) (edit : VersionEdit Key) : Prop where
  shape : edit.newFiles = files.map fun file => (target, file)
  unnamed : edit.comparator = none
  within : target < kNumLevels
  distinct : DistinctNumbers files
  origin : ∀ file ∈ files, Unused edits file.number ∨
    ∃ upper < target, file ∈ versions.current.files upper ∧ file.number ∈ edit.deletedAt upper
  taken : ∀ file ∈ files, file.number < versions.nextFileNumber
  log : edit.logNumber.getD versions.logNumber ≤ versions.nextFileNumber

theorem adds_admissible (adds : Adds edits versions target files edit) :
    Admissible edits versions.current edit :=
  admissible_target adds.shape adds.distinct adds.origin

theorem adds_member (adds : Adds edits versions target files edit)
    (member : file ∈ edit.addedAt level) :
    level = target ∧ file ∈ files := by
  rw [addedAt_target adds.shape] at member
  split at member
  · rename_i here
    exact ⟨here, member⟩
  · cases member

section

variable (adds : Adds edits versions target files edit)
  (written : Written comparatorName edits versions)
include adds written

section

variable (stored : Stored tables start versions.current)
include stored

theorem adds_recorded (known : top ≤ versions.lastSequence) :
    Recorded comparatorName top (edits ++ [versions.complete edit])
      (versions.apply (versions.complete edit)) := by
  apply written_logAndApply written stored.sound.separate (adds_admissible adds) adds.unnamed _
    adds.log known
  intro _ file member
  exact adds.taken file (adds_member adds member).2

theorem adds_files (level : Nat) (file : FileMetaData Key) :
    file ∈ (versions.apply (versions.complete edit)).current.files level ↔
      file ∈ versions.current.files level ∧ file.number ∉ edit.deletedAt level ∨
        level = target ∧ file ∈ files := by
  have fresh := admissible_fresh written.replays stored.sound.separate
    (admissible_complete (adds_admissible adds)) level
  have members := applyEdit_mem fresh file
  have added : (versions.complete edit).addedAt level = edit.addedAt level := rfl
  have deleted : (versions.complete edit).deletedAt level = edit.deletedAt level := rfl
  rw [added, deleted, addedAt_target adds.shape] at members
  refine members.trans (or_congr_right ?_)
  split
  · rename_i here
    simp [here]
  · rename_i elsewhere
    simp [elsewhere]

theorem adds_stored
    (kept : ∀ level, ∀ file ∈ versions.current.files level, after file.number = tables file.number)
    (added : ∀ file ∈ files, ∃ items, after file.number = some items ∧ Holds file items ∧ ∀ item ∈
      items, item.key.sequence ≤ top) (older : start ≤ top) :
    Stored after top (versions.apply (versions.complete edit)).current := by
  have admissible := admissible_complete (adds_admissible adds)
  have fresh := admissible_fresh written.replays stored.sound.separate admissible
  have members := adds_files adds written stored
  constructor
  · intro level
    exact applyEdit_ordered (fresh level) (stored.ordered level)
  · intro level deep
    rw [eq_nil_iff_forall_not_mem]
    intro file member
    have within := adds.within
    cases (members level file).mp member with
    | inl old =>
      rw [stored.shallow level deep] at old
      cases old.1
    | inr new => omega
  · apply sound_applyEdit written.replays stored.sound admissible kept
    intro level file member
    obtain ⟨items, present, holds, _⟩ := added file (adds_member adds member).2
    exact ⟨items, present, holds⟩
  · intro level file member item inside
    cases (members level file).mp member with
    | inl old =>
      rw [contents, kept level file old.1] at inside
      exact (stored.aged level file old.1 item inside).trans older
    | inr new =>
      obtain ⟨items, present, _, aged⟩ := added file new.2
      rw [contents, present] at inside
      exact aged item inside

end

theorem adds_unused {number : Nat} (unused : Unused edits number)
    (others : ∀ file ∈ files, file.number ≠ number) :
    Unused (edits ++ [versions.complete edit]) number := by
  have admissible := admissible_complete (adds_admissible adds)
  intro level file member
  cases (replay_added written.replays admissible level file).mp member with
  | inl old => exact unused level file old
  | inr new => exact others file (adds_member adds new).2

end

end

end CodeReading.Leveldb
