import CodeReading.Leveldb.CompactionOutputs

/-!
# Compactions preserve what snapshots read

Dropping an entry does not change the view of a snapshot when a newer entry hides it
from all snapshots concerned, or when it is a deletion and nothing older remains. The
closure of the inputs gives the second: what is older than an input, for its user key,
and is not an input itself lies in a deeper level, and the drop rules ask for that.
-/

namespace CodeReading.Leveldb

open List

variable {Key Value : Type} [LinearOrder Key]

/-- Dropping hidden entries, and deletions with nothing behind them, changes no view
from the snapshot on. -/
theorem view_drop {sequence : Nat} {before after : List (Item Key Value)}
    (distinct : Distinct before) (fewer : ∀ item ∈ after, item ∈ before)
    (dropped : ∀ item ∈ before, item ∉ after →
      (∃ newer ∈ before, newer.key.userKey = item.key.userKey ∧ newer.key < item.key ∧
        newer.key.sequence ≤ smallestSnapshot) ∨
      item.key.type = .deletion ∧
        ∀ older ∈ after, older.key.userKey = item.key.userKey → ¬ item.key < older.key)
    (userKey : Key) (later : smallestSnapshot ≤ sequence) :
    view after userKey sequence = view before userKey sequence := by
  have distinctAfter : Distinct after := fun left leftMember right rightMember =>
    distinct left (fewer left leftMember) right (fewer right rightMember)
  rw [view, view]
  cases found : newest before userKey sequence with
  | none =>
    have nothing : newest after userKey sequence = none :=
      newest_none.mpr fun item mem => newest_none.mp found item (fewer item mem)
    rw [nothing]
  | some item =>
    obtain ⟨mem, ⟨rfl, visible⟩, least⟩ := newest_some found
    by_cases stays : item ∈ after
    · have same : newest after item.key.userKey sequence = some item :=
        newest_eq distinctAfter stays rfl visible fun other inside =>
          least other (fewer other inside)
      rw [same]
    · rcases dropped item mem stays with ⟨newer, inside, same, less, old⟩ | ⟨deletion, alone⟩
      · exact absurd less (not_lt.mpr (least newer inside same (old.trans later)))
      · have gone : item.content = none := by simp [Item.content, deletion]
        rw [Option.bind_some, gone]
        cases foundAfter : newest after item.key.userKey sequence with
        | none => rfl
        | some other =>
          obtain ⟨inside, ⟨same, visibleToo⟩, _⟩ := newest_some foundAfter
          have order := least other (fewer other inside) same visibleToo
          have differ : item.key ≠ other.key := fun keys =>
            stays (distinct item mem other (fewer other inside) keys ▸ inside)
          exact absurd (lt_of_le_of_ne order differ) (alone other inside same)

section

variable {format : TableFormat Key Value} {compaction : Compaction Key} {work : Work Key Value}

section

variable (files : List (FileMetaData Key)) (level : Nat) (edit : VersionEdit Key)

theorem foldl_removeFile : files.foldl (fun edit file => edit.removeFile level file.number) edit =
      { edit with
        deletedFiles := edit.deletedFiles ++ files.map fun file => (level, file.number) } := by
  induction files generalizing edit with
  | nil => simp
  | cons file rest ih =>
    rw [foldl_cons, ih]
    simp [VersionEdit.removeFile]

theorem foldl_addFile : files.foldl (fun edit file => edit.addFile level file) edit =
      { edit with newFiles := edit.newFiles ++ files.map fun file => (level, file) } := by
  induction files generalizing edit with
  | nil => simp
  | cons file rest ih =>
    rw [foldl_cons, ih]
    simp [VersionEdit.addFile]

end

theorem installEdit_newFiles (blank : compaction.edit.newFiles = []) :
    (installEdit format compaction work).newFiles =
      (work.outputFiles format).map fun file => (compaction.level + 1, file) := by
  simp [installEdit, Compaction.addInputDeletions, foldl_removeFile, foldl_addFile, blank]

section

variable (blank : compaction.edit.deletedFiles = [] ∧ compaction.edit.newFiles = [])
include blank

theorem installEdit_deleted (level number : Nat) :
    number ∈ (installEdit format compaction work).deletedAt level ↔
      (level = compaction.level ∧ ∃ file ∈ compaction.inputs0, file.number = number) ∨
        level = compaction.level + 1 ∧ ∃ file ∈ compaction.inputs1, file.number = number := by
  simp only [installEdit, Compaction.addInputDeletions, foldl_removeFile, foldl_addFile,
    VersionEdit.deletedAt, blank.1, nil_append, filterMap_append, mem_append,
    mem_filterMap, mem_map]
  constructor
  · rintro (⟨_, ⟨file, mem, rfl⟩, found⟩ | ⟨_, ⟨file, mem, rfl⟩, found⟩)
    · obtain ⟨rfl, rfl⟩ : compaction.level = level ∧ file.number = number := by simpa using found
      exact .inl ⟨rfl, file, mem, rfl⟩
    · obtain ⟨rfl, rfl⟩ : compaction.level + 1 = level ∧ file.number = number := by simpa using found
      exact .inr ⟨rfl, file, mem, rfl⟩
  · rintro (⟨rfl, file, mem, rfl⟩ | ⟨rfl, file, mem, rfl⟩)
    · exact .inl ⟨_, ⟨file, mem, rfl⟩, by simp⟩
    · exact .inr ⟨_, ⟨file, mem, rfl⟩, by simp⟩

theorem installEdit_added (level : Nat) : (installEdit format compaction work).addedAt level =
      if level = compaction.level + 1 then work.outputFiles format else [] :=
  addedAt_target (installEdit_newFiles blank.2) level

end

def IsInput (compaction : Compaction Key) (level : Nat) (file : FileMetaData Key) : Prop :=
  (level = compaction.level ∧ file ∈ compaction.inputs0) ∨
    level = compaction.level + 1 ∧ file ∈ compaction.inputs1

variable {tables : Nat → Option (List (Item Key Value))} {version : Version Key}

/-- The outputs have numbers that the version does not use. -/
def FreshOutputs (version : Version Key) (work : Work Key Value) : Prop :=
  ∀ output ∈ work.outputs, ∀ level, ∀ file ∈ version.files level, file.number ≠ output.number

theorem deleted_isInput (sound : Sound tables version)
    (present : ∀ level file, IsInput compaction level file → file ∈ version.files level)
    (mem : file ∈ version.files level) :
    ((level = compaction.level ∧ ∃ input ∈ compaction.inputs0, input.number = file.number) ∨
      level = compaction.level + 1 ∧ ∃ input ∈ compaction.inputs1, input.number = file.number) ↔
      IsInput compaction level file := by
  constructor
  · rintro (⟨rfl, input, inside, same⟩ | ⟨rfl, input, inside, same⟩)
    · have isInput : IsInput compaction compaction.level input := .inl ⟨rfl, inside⟩
      exact sound_number sound (present _ input isInput) mem same ▸ isInput
    · have isInput : IsInput compaction (compaction.level + 1) input := .inr ⟨rfl, inside⟩
      exact sound_number sound (present _ input isInput) mem same ▸ isInput
  · rintro (⟨rfl, inside⟩ | ⟨rfl, inside⟩)
    · exact .inl ⟨rfl, file, inside, rfl⟩
    · exact .inr ⟨rfl, file, inside, rfl⟩

theorem selected_present (selected : Selected version compaction) (level : Nat)
    (file : FileMetaData Key) (isInput : IsInput compaction level file) :
    file ∈ version.files level := by
  rcases isInput with ⟨rfl, first⟩ | ⟨rfl, second⟩
  · exact selected.closed0.subset file first
  · exact selected.closed1.subset file second

section

variable (selected : Selected version compaction)
  (described : Described format work.outputs (work.outputFiles format))
  (fresh : FreshOutputs version work) (level : Nat)
include selected described fresh level

theorem installEdit_fresh :
    FreshAt (version.files level) ((installEdit format compaction work).addedAt level) := by
  rw [installEdit_added selected.blank]
  split
  · constructor
    · exact described.distinct
    · intro file mem other inside
      obtain ⟨output, isOutput, number, _⟩ := described.file file mem
      rw [number]
      exact fresh output isOutput level other inside
  · constructor
    · exact .nil
    · intro file mem
      cases mem

/-- The files of the version that a compaction leaves: those that were no inputs, and
the outputs. -/
theorem installed_mem (sound : Sound tables version) (file : FileMetaData Key) :
    file ∈ (version.applyEdit (installEdit format compaction work)).files level ↔
      (file ∈ version.files level ∧ ¬ IsInput compaction level file) ∨
        level = compaction.level + 1 ∧ file ∈ work.outputFiles format := by
  rw [applyEdit_mem (installEdit_fresh selected described fresh level),
    installEdit_deleted selected.blank, installEdit_added selected.blank]
  have deleted : file ∈ version.files level → _ :=
    fun mem => deleted_isInput sound (selected_present selected) mem
  constructor
  · rintro (⟨mem, kept⟩ | added)
    · exact .inl ⟨mem, fun input => kept ((deleted mem).mpr input)⟩
    · split at added
      · rename_i target
        exact .inr ⟨target, added⟩
      · cases added
  · rintro (⟨mem, kept⟩ | ⟨target, added⟩)
    · exact .inl ⟨mem, fun gone => kept ((deleted mem).mp gone)⟩
    · rw [if_pos target]
      exact .inr added

end

section

variable (tables : Nat → Option (List (Item Key Value))) (version : Version Key)

def allItems : List (Item Key Value) :=
  (List.range kNumLevels).flatMap fun level => (version.files level).flatMap (contents tables)

theorem allItems_mem (item : Item Key Value) : item ∈ allItems tables version ↔
      ∃ level < kNumLevels, ∃ file ∈ version.files level, item ∈ contents tables file := by
  simp [allItems]

end

theorem allItems_distinct (sound : Sound tables version) (keysApart : KeysApart tables version) :
    Distinct (allItems tables version) := by
  intro left leftMember right rightMember same
  obtain ⟨upper, _, file, mem, leftInside⟩ := (allItems_mem tables version left).mp leftMember
  obtain ⟨lower, _, other, inside, rightInside⟩ :=
    (allItems_mem tables version right).mp rightMember
  by_cases equal : file = other
  · subst equal
    exact sorted_distinct (sound_holds sound mem).sorted left leftInside right rightInside same
  · exact absurd same (keysApart upper lower file mem other inside equal left leftInside right
      rightInside)

/-- After the outputs are installed, the items are those outside the inputs and those
written. -/
theorem installed_items (sound : Sound tables version) (selected : Selected version compaction)
    (described : Described format work.outputs (work.outputFiles format))
    (increasing : work.outputs.Pairwise fun left right => left.number < right.number)
    (fresh : FreshOutputs version work) (item : Item Key Value) :
    item ∈ allItems (writeTables tables work.outputs)
        (version.applyEdit (installEdit format compaction work)) ↔
      (∃ level < kNumLevels, ∃ file ∈ version.files level, ¬ IsInput compaction level file ∧
        item ∈ contents tables file) ∨ item ∈ work.outputs.flatMap Output.items := by
  have old : ∀ level, ∀ file ∈ version.files level,
      contents (writeTables tables work.outputs) file = contents tables file := by
    intro level file mem
    rw [contents, contents, writeTables_other tables fun output isOutput =>
      (fresh output isOutput level file mem).symm]
  have new : ∀ file, ∀ output ∈ work.outputs, file.number = output.number →
      contents (writeTables tables work.outputs) file = output.items := by
    intro file output isOutput number
    rw [contents, number, writeTables_output tables increasing isOutput, Option.getD_some]
  rw [allItems_mem]
  constructor
  · rintro ⟨level, bound, file, mem, inside⟩
    rcases (installed_mem selected described fresh level sound file).mp mem with
      ⟨stays, outside⟩ | ⟨_, added⟩
    · rw [old level file stays] at inside
      exact .inl ⟨level, bound, file, stays, outside, inside⟩
    · obtain ⟨output, isOutput, number, _⟩ := described.file file added
      rw [new file output isOutput number] at inside
      exact .inr (mem_flatMap.mpr ⟨output, isOutput, inside⟩)
  · rintro (⟨level, bound, file, stays, outside, inside⟩ | written)
    · refine ⟨level, bound, file, ?_, ?_⟩
      · exact (installed_mem selected described fresh level sound file).mpr (.inl ⟨stays, outside⟩)
      · rwa [old level file stays]
    · obtain ⟨output, isOutput, inside⟩ := mem_flatMap.mp written
      obtain ⟨file, added, number, _⟩ := described.output output isOutput
      refine ⟨compaction.level + 1, selected.deepest, file, ?_, ?_⟩
      · exact (installed_mem selected described fresh _ sound file).mpr (.inr ⟨rfl, added⟩)
      · rwa [new file output isOutput number]

end

section

variable {tables : Nat → Option (List (Item Key Value))} {version : Version Key}
  {compaction : Compaction Key}

theorem isInput_iff (compaction : Compaction Key) (file : FileMetaData Key) :
    file ∈ compaction.inputs0 ++ compaction.inputs1 ↔ ∃ level, IsInput compaction level file := by
  rw [mem_append]
  constructor
  · rintro (first | second)
    · exact ⟨_, .inl ⟨rfl, first⟩⟩
    · exact ⟨_, .inr ⟨rfl, second⟩⟩
  · rintro ⟨level, ⟨_, first⟩ | ⟨_, second⟩⟩
    · exact .inl first
    · exact .inr second

variable {file : FileMetaData Key} {item : Item Key Value}

theorem userKey_within (holds : Holds file items) (mem : item ∈ items) :
    file.smallest.userKey ≤ item.key.userKey ∧ item.key.userKey ≤ file.largest.userKey :=
  ⟨userKey_mono (holds_within holds mem).1, userKey_mono (holds_within holds mem).2⟩

variable {older : Item Key Value} {other : FileMetaData Key}

section

variable (sound : Sound tables version) (ascend : LevelsAscend version)
  (itemMember : item ∈ contents tables file) (olderMember : older ∈ contents tables other)
  (same : older.key.userKey = item.key.userKey) (less : item.key < older.key)
include sound ascend itemMember olderMember same less

/-- In one level, a file with an older entry of a user key that closed files have is one
of them. -/
theorem closed_older (closed : Closed level (version.files level) files) (mem : file ∈ files)
    (inside : other ∈ version.files level) : other ∈ files := by
  have holds := sound_holds sound (closed.subset file mem)
  have holdsOther := sound_holds sound inside
  have within := userKey_within holds itemMember
  have withinOther := userKey_within holdsOther olderMember
  by_cases zero : level = 0
  · apply closed.saturated zero file mem other inside
    · exact within.1.trans (same ▸ withinOther.2)
    · exact (same ▸ withinOther.1).trans within.2
  · rcases ascending_trichotomy (ascend level zero) (closed.subset file mem) inside with
      equal | before | after
    · exact equal ▸ mem
    · apply closed.rightClosed file mem other inside before
      apply le_antisymm
      · exact (same ▸ withinOther.1).trans within.2
      · exact userKey_mono before.le
    · have above := (holds_within holdsOther olderMember).2
      have below := (holds_within holds itemMember).1
      exact absurd (above.trans_lt (after.trans_le below)) (lt_asymm less)

/-- An entry older than an input's, for its user key, is in an input or in a level deeper
than the outputs. -/
theorem older_deeper (recent : Recent tables version) (selected : Selected version compaction)
    (isInput : IsInput compaction level file)
    (inside : other ∈ version.files below) (outside : ¬ IsInput compaction below other) :
    compaction.level + 2 ≤ below := by
  have aged : older.key.sequence ≤ item.key.sequence := sequence_anti less.le same.symm
  have mem := selected_present selected level file isInput
  have notAbove : level ≤ below := by
    by_contra above
    have newer := recent.levels below level (not_le.mp above) other inside file mem older
      olderMember item itemMember same
    omega
  by_contra shallow
  rcases isInput with ⟨rfl, first⟩ | ⟨rfl, second⟩
  · have choices : below = compaction.level ∨ below = compaction.level + 1 := by omega
    rcases choices with rfl | rfl
    · exact outside (.inl ⟨rfl, closed_older sound ascend itemMember olderMember same less
        selected.closed0 first inside⟩)
    · apply outside
      refine .inr ⟨rfl, selected.complete1 other inside ?_⟩
      have within := userKey_within (sound_holds sound mem) itemMember
      have withinOther := userKey_within (sound_holds sound inside) olderMember
      exact ⟨⟨file, first, within.1.trans (same ▸ withinOther.2)⟩,
        file, first, (same ▸ withinOther.1).trans within.2⟩
  · obtain rfl : below = compaction.level + 1 := by omega
    exact outside (.inr ⟨rfl, closed_older sound ascend itemMember olderMember same less
      selected.closed1 second inside⟩)

end

/-- A compaction that `PickCompaction` or `CompactRange` produces. -/
def Picked (options : Options) (version : Version Key) (compaction : Compaction Key) : Prop :=
  (∃ compactPointer trigger,
      pickCompaction options version compactPointer trigger = some compaction) ∨
    ∃ level begin finish, compactRange options version level begin finish = some compaction

theorem picked_selected (ascend : LevelsAscend version)
    (picked : Picked options version compaction) : Selected version compaction := by
  rcases picked with ⟨compactPointer, trigger, found⟩ | ⟨level, begin, finish, found⟩
  · exact (pickCompaction_selected ascend found).1
  · exact compactRange_selected found ascend

/-- The inputs are closed under what a compaction must not leave behind: the files of the next
level that meet the first inputs, the files that continue a user key of an input, and in level 0
the files that meet an input. The loops that gather them are total: a restart of
`GetOverlappingInputs` widens the range past a file, and a round of `AddBoundaryInputs` leaves
fewer files to follow. -/
theorem inputs_closed (options : Options) (ascend : LevelsAscend version)
    (picked : Picked options version compaction) :
    (∀ file ∈ version.files (compaction.level + 1), MeetsHull compaction.inputs0 file →
      file ∈ compaction.inputs1) ∧
    RightClosed (version.files compaction.level) compaction.inputs0 ∧
    RightClosed (version.files (compaction.level + 1)) compaction.inputs1 ∧
    (compaction.level = 0 → Saturated (version.files 0) compaction.inputs0) := by
  have selected := picked_selected ascend picked
  refine ⟨selected.complete1, selected.closed0.rightClosed, selected.closed1.rightClosed, ?_⟩
  intro top
  have saturated := selected.closed0.saturated top
  rwa [top] at saturated

/-- The items of the database after the work of a compaction has been installed. -/
def compactedItems (options : Options) (format : TableFormat Key Value)
    (tables : Nat → Option (List (Item Key Value))) (version : Version Key)
    (compaction : Compaction Key) (smallestSnapshot nextFileNumber : Nat)
    (input : List (Item Key Value)) : List (Item Key Value) :=
  let work := doCompactionWork options format compaction smallestSnapshot nextFileNumber input
  allItems (writeTables tables work.outputs)
    (version.applyEdit (installEdit format compaction work))

theorem compactedItems_mem (options : Options) (format : TableFormat Key Value)
    (smallestSnapshot : Nat) (sound : Sound tables version)
    (selected : Selected version compaction)
    (fresh : ∀ level, ∀ file ∈ version.files level, file.number < nextFileNumber)
    (sorted : Sorted input) (item : Item Key Value) :
    item ∈ compactedItems options format tables version compaction smallestSnapshot
        nextFileNumber input ↔
      (∃ level < kNumLevels, ∃ file ∈ version.files level, ¬ IsInput compaction level file ∧
        item ∈ contents tables file) ∨
      item ∈ kept compaction smallestSnapshot
        ⟨none, kMaxSequenceNumber, compaction.inputVersion.files⟩ input := by
  have allotted : Allotted nextFileNumber
      (input.foldl (Work.turn options format compaction smallestSnapshot)
        (Work.start compaction nextFileNumber)) :=
    foldl_allotted (allotted_start compaction nextFileNumber) input
  have written := doCompactionWork_written options format compaction smallestSnapshot
    nextFileNumber input
  have described := outputs_described format
    (written ▸ sorted.sublist (kept_sublist)) allotted.increasing allotted.nonempty
  rw [compactedItems, installed_items sound selected described allotted.increasing, written]
  intro output isOutput level file mem
  have taken := allotted.taken output isOutput
  have less := fresh level file mem
  omega

/-- Compactions preserve every view from the smallest snapshot on. -/
theorem compaction_preserves_view (options : Options) (format : TableFormat Key Value)
    (sound : Sound tables version) (ascend : LevelsAscend version) (recent : Recent tables version)
    (picked : Picked options version compaction) {smallestSnapshot nextFileNumber : Nat}
    (fresh : ∀ level, ∀ file ∈ version.files level, file.number < nextFileNumber)
    (bounded : smallestSnapshot < kMaxSequenceNumber) (userKey : Key) (sequence : Nat)
    (later : smallestSnapshot ≤ sequence) :
    ∃ input, makeInputIterator tables compaction = some input ∧
      view (compactedItems options format tables version compaction smallestSnapshot
          nextFileNumber input) userKey sequence =
        view (allItems tables version) userKey sequence := by
  have selected := picked_selected ascend picked
  have keysApart := recent_keysApart sound ascend recent
  obtain ⟨made, sorted, inputMem⟩ := makeInputIterator_merged sound keysApart selected
  refine ⟨_, made, ?_⟩
  generalize (inputChildren tables compaction).foldr mergeItems [] = input at *
  have after := compactedItems_mem options format smallestSnapshot sound selected fresh sorted
  have tracks : Tracks compaction ([] : List (Item Key Value)) _ := tracks_start compaction
  have level_lt : ∀ level file, IsInput compaction level file → level < kNumLevels := by
    have deepest := selected.deepest
    rintro level file (⟨rfl, _⟩ | ⟨rfl, _⟩) <;> omega
  have stored := selected_present selected
  have inputBefore : ∀ item ∈ input, item ∈ allItems tables version := by
    intro item mem
    obtain ⟨file, inside, held⟩ := (inputMem item).mp mem
    obtain ⟨level, isInput⟩ := (isInput_iff compaction file).mp inside
    exact (allItems_mem tables version item).mpr
      ⟨level, level_lt level file isInput, file, stored level file isInput, held⟩
  apply view_drop (allItems_distinct sound keysApart) _ _ userKey later
  · intro item mem
    rcases (after item).mp mem with ⟨level, bound, file, inside, _, held⟩ | survived
    · exact (allItems_mem tables version item).mpr ⟨level, bound, file, inside, held⟩
    · exact inputBefore item ((kept_sublist).subset survived)
  · intro item mem gone
    rw [after, not_or] at gone
    obtain ⟨level, bound, file, inside, held⟩ := (allItems_mem tables version item).mp mem
    have isInput : IsInput compaction level file := by
      by_contra outside
      exact gone.1 ⟨level, bound, file, inside, outside, held⟩
    have itemInput : item ∈ input :=
      (inputMem item).mpr ⟨file, (isInput_iff compaction file).mpr ⟨level, isInput⟩, held⟩
    have deeperAscend : ∀ deeper ∈ compaction.deeperLevels,
        Ascending (compaction.inputVersion.files deeper) := by
      intro deeper isDeeper
      have range := mem_range'_1.mp isDeeper
      rw [selected.pickedFrom]
      exact ascend deeper (by omega)
    rcases kept_dropped tracks (by simpa using sorted) bounded deeperAscend itemInput gone.2 with
      ⟨newer, newerMember, same, less, old⟩ | ⟨deletion, old, base⟩
    · exact .inl ⟨newer, inputBefore newer (by simpa using newerMember), same, less, old⟩
    · refine .inr ⟨deletion, ?_⟩
      intro older olderAfter same less
      rcases (after older).mp olderAfter with ⟨below, _, other, otherIn, outside, olderHeld⟩ |
        survived
      · have deeper := older_deeper sound ascend held olderHeld same less recent selected
          isInput otherIn outside
        have isDeeper : below ∈ compaction.deeperLevels := mem_range'_1.mpr (by omega)
        have within := userKey_within (sound_holds sound otherIn) olderHeld
        rw [BaseLevel, selected.pickedFrom] at base
        rcases base below isDeeper other otherIn with before | beyond
        · exact absurd before (not_lt.mpr (same ▸ within.2))
        · exact absurd beyond (not_lt.mpr (same ▸ within.1))
      · have olderInput := (kept_sublist).subset survived
        exact kept_shadowed tracks (by simpa using sorted) bounded olderInput
          (by simpa using itemInput) same.symm less old survived

end

section

/-- Two levels of three tables each. The first table of level 1 ends in a deletion of 7; the second
one begins with a value that it hides, and so does one of level 2. -/
def pairFile (number smallest first largest last : Nat) (firstType lastType : ValueType)
    (ordered : InternalKey.mk smallest first firstType ≤ ⟨largest, last, lastType⟩) :
    FileMetaData Nat :=
  ⟨number, 100, ⟨smallest, first, firstType⟩, ⟨largest, last, lastType⟩, ordered⟩

def upperFiles : List (FileMetaData Nat) :=
  [pairFile 3 5 9 7 8 .value .deletion (by decide), pairFile 4 7 6 8 5 .value .value (by decide),
    pairFile 7 20 4 20 4 .value .value (by decide)]

def lowerFiles : List (FileMetaData Nat) :=
  [pairFile 5 5 2 7 3 .value .value (by decide), pairFile 6 8 1 8 1 .value .value (by decide),
    pairFile 8 20 3 30 1 .value .value (by decide)]

def pairVersion : Version Nat :=
  ⟨fun level => if level = 1 then upperFiles else if level = 2 then lowerFiles else []⟩

def pairTables : Nat → Option (List (Item Nat Nat))
  | 3 => some [⟨⟨5, 9, .value⟩, 50⟩, ⟨⟨7, 8, .deletion⟩, 0⟩]
  | 4 => some [⟨⟨7, 6, .value⟩, 70⟩, ⟨⟨8, 5, .value⟩, 80⟩]
  | 5 => some [⟨⟨5, 2, .value⟩, 51⟩, ⟨⟨7, 3, .value⟩, 71⟩]
  | 6 => some [⟨⟨8, 1, .value⟩, 81⟩]
  | 7 => some [⟨⟨20, 4, .value⟩, 90⟩]
  | 8 => some [⟨⟨20, 3, .value⟩, 91⟩, ⟨⟨30, 1, .value⟩, 92⟩]
  | _ => none

def pairOptions : Options := ⟨1000, 1000⟩

def pairFormat : TableFormat Nat Nat := ⟨List.length, List.length⟩

theorem pairVersion_mem (mem : file ∈ pairVersion.files level) :
    level = 1 ∧ file ∈ upperFiles ∨ level = 2 ∧ file ∈ lowerFiles := by
  simp only [pairVersion] at mem
  split at mem
  case isTrue upper => exact .inl ⟨upper, mem⟩
  case isFalse =>
    split at mem
    case isTrue lower => exact .inr ⟨lower, mem⟩
    case isFalse => cases mem

/-- What holds of no file, of the upper files and of the lower ones holds of every level. -/
theorem pairVersion_levels {P : List (FileMetaData Nat) → Prop} (upper : P upperFiles)
    (lower : P lowerFiles) (none : P []) (level : Nat) : P (pairVersion.files level) := by
  simp only [pairVersion]
  split
  · exact upper
  · split
    · exact lower
    · exact none

theorem pair_ascend : LevelsAscend pairVersion :=
  fun level _ => pairVersion_levels (by unfold Ascending; decide +kernel) (by unfold Ascending; decide +kernel)
    .nil level

theorem pair_sound : Sound pairTables pairVersion := by
  constructor
  · have held : ∀ file ∈ upperFiles ++ lowerFiles, ∃ items,
        pairTables file.number = some items ∧ Holds file items := by
      simp only [upperFiles, lowerFiles, pairFile, cons_append, nil_append, forall_mem_cons]
      refine ⟨?_, ?_, ?_, ?_, ?_, ?_, forall_mem_nil _⟩
      all_goals refine ⟨_, rfl, ?_, ⟨_, rfl, rfl⟩, ⟨_, rfl, rfl⟩⟩
      all_goals simp only [Sorted]; decide +kernel
    intro level file mem
    rcases pairVersion_mem mem with ⟨_, inside⟩ | ⟨_, inside⟩
    · exact held file (mem_append_left _ inside)
    · exact held file (mem_append_right _ inside)
  · exact fun level => pairVersion_levels (by unfold DistinctNumbers; decide)
      (by unfold DistinctNumbers; decide) .nil level
  · intro level other differ file mem elsewhere inside
    have apart : ∀ file ∈ upperFiles, ∀ elsewhere ∈ lowerFiles,
        file.number ≠ elsewhere.number := by decide
    rcases pairVersion_mem mem with ⟨rfl, first⟩ | ⟨rfl, first⟩ <;>
      rcases pairVersion_mem inside with ⟨rfl, second⟩ | ⟨rfl, second⟩
    · exact absurd rfl differ
    · exact apart file first elsewhere second
    · exact (apart elsewhere second file first).symm
    · exact absurd rfl differ

theorem pair_recent : Recent pairTables pairVersion := by
  constructor
  · intro upper lower less file mem deeper inside
    have older : ∀ file ∈ upperFiles, ∀ deeper ∈ lowerFiles,
        ∀ newer ∈ contents pairTables file, ∀ older ∈ contents pairTables deeper,
          newer.key.userKey = older.key.userKey → older.key.sequence < newer.key.sequence := by
      decide
    rcases pairVersion_mem mem with ⟨rfl, first⟩ | ⟨rfl, first⟩ <;>
      rcases pairVersion_mem inside with ⟨rfl, second⟩ | ⟨rfl, second⟩
    · omega
    · exact older file first deeper second
    · omega
    · omega
  · intro file mem
    rcases pairVersion_mem mem with ⟨absurd, _⟩ | ⟨absurd, _⟩ <;> cases absurd

theorem pair_fresh (level : Nat) (file : FileMetaData Nat)
    (mem : file ∈ pairVersion.files level) : file.number < 9 := by
  have small : ∀ file ∈ upperFiles ++ lowerFiles, file.number < 9 := by decide
  rcases pairVersion_mem mem with ⟨_, inside⟩ | ⟨_, inside⟩
  · exact small file (mem_append_left _ inside)
  · exact small file (mem_append_right _ inside)

/-- A manual compaction of the key 5. Its range meets the first table of level 1 only; the second
one is a boundary file. -/
theorem pair_picked :
    pairVersion.getOverlappingInputs 1 (some ⟨5, 9, .value⟩) (some ⟨5, 0, .value⟩) =
      upperFiles.take 1 ∧
    ∃ compaction,
      compactRange pairOptions pairVersion 1 (some ⟨5, 9, .value⟩) (some ⟨5, 0, .value⟩) =
        some compaction ∧
      compaction.level = 1 ∧ compaction.inputs0 = upperFiles.take 2 ∧
        compaction.inputs1 = lowerFiles.take 2 := by
  have outcome : (compactRange pairOptions pairVersion 1 (some ⟨5, 9, .value⟩)
      (some ⟨5, 0, .value⟩)).map (fun compaction =>
        (compaction.level, compaction.inputs0, compaction.inputs1)) =
      some (1, upperFiles.take 2, lowerFiles.take 2) := by
    decide +kernel
  obtain ⟨compaction, found, parts⟩ := Option.map_eq_some_iff.mp outcome
  simp only [Prod.mk.injEq] at parts
  exact ⟨by decide +kernel, compaction, found, parts⟩

theorem inputs_closed_pair : ∃ compaction, Picked pairOptions pairVersion compaction ∧
    compaction.inputs0 = upperFiles.take 2 ∧ compaction.inputs1 = lowerFiles.take 2 ∧
    (∀ file ∈ lowerFiles, MeetsHull (upperFiles.take 2) file → file ∈ lowerFiles.take 2) ∧
    RightClosed upperFiles (upperFiles.take 2) ∧ RightClosed lowerFiles (lowerFiles.take 2) := by
  obtain ⟨_, compaction, found, level, inputs0, inputs1⟩ := pair_picked
  have picked : Picked pairOptions pairVersion compaction := .inr ⟨1, _, _, found⟩
  have closed := inputs_closed pairOptions pair_ascend picked
  rw [level, inputs0, inputs1] at closed
  exact ⟨compaction, picked, inputs0, inputs1, closed.1, closed.2.1, closed.2.2.1⟩

/-- From the snapshot 8 on: the deletion and the three items that are hidden there go, and
no view changes. -/
theorem compaction_preserves_view_pair :
    ∃ compaction input, Picked pairOptions pairVersion compaction ∧
      makeInputIterator pairTables compaction = some input ∧
      (input.length, (compactedItems pairOptions pairFormat pairTables pairVersion compaction 8 9
        input).map (fun item => (item.key.userKey, item.key.sequence))) =
          (7, [(20, 4), (5, 9), (5, 2), (8, 5), (20, 3), (30, 1)]) ∧
      ∀ userKey sequence, 8 ≤ sequence →
        view (compactedItems pairOptions pairFormat pairTables pairVersion compaction 8 9 input)
            userKey sequence =
          view (allItems pairTables pairVersion) userKey sequence := by
  have outcome : (compactRange pairOptions pairVersion 1 (some ⟨5, 9, .value⟩)
      (some ⟨5, 0, .value⟩)).bind (fun compaction =>
        (makeInputIterator pairTables compaction).map fun input => (input.length,
          (compactedItems pairOptions pairFormat pairTables pairVersion compaction 8 9
            input).map fun item => (item.key.userKey, item.key.sequence))) =
      some (7, [(20, 4), (5, 9), (5, 2), (8, 5), (20, 3), (30, 1)]) := by
    decide +kernel
  obtain ⟨compaction, found, rest⟩ := Option.bind_eq_some_iff.mp outcome
  obtain ⟨input, made, items⟩ := Option.map_eq_some_iff.mp rest
  have picked : Picked pairOptions pairVersion compaction := .inr ⟨1, _, _, found⟩
  refine ⟨compaction, input, picked, made, items, ?_⟩
  intro userKey sequence later
  obtain ⟨_, same, preserved⟩ := compaction_preserves_view pairOptions pairFormat pair_sound
    pair_ascend pair_recent picked pair_fresh (by decide : 8 < kMaxSequenceNumber) userKey
    sequence later
  rw [made, Option.some_inj] at same
  rwa [same]

/-- At `kMaxSequenceNumber` the value that stands for no entry before is old enough too,
and the compaction drops all it reads. -/
theorem compaction_loses_at_max :
    Sound pairTables pairVersion ∧ LevelsAscend pairVersion ∧ Recent pairTables pairVersion ∧
    ∃ compaction, Picked pairOptions pairVersion compaction ∧
      ∃ input, makeInputIterator pairTables compaction = some input ∧
        view (allItems pairTables pairVersion) 5 kMaxSequenceNumber = some 50 ∧
        view (compactedItems pairOptions pairFormat pairTables pairVersion compaction
          kMaxSequenceNumber 9 input) 5 kMaxSequenceNumber = none := by
  refine ⟨pair_sound, pair_ascend, pair_recent, ?_⟩
  have outcome : (compactRange pairOptions pairVersion 1 none none).bind (fun compaction =>
      (makeInputIterator pairTables compaction).map fun input =>
        (view (allItems pairTables pairVersion) 5 kMaxSequenceNumber,
          view (compactedItems pairOptions pairFormat pairTables pairVersion compaction
            kMaxSequenceNumber 9 input) 5 kMaxSequenceNumber)) = some (some 50, none) := by
    decide +kernel
  obtain ⟨compaction, found, rest⟩ := Option.bind_eq_some_iff.mp outcome
  obtain ⟨input, made, views⟩ := Option.map_eq_some_iff.mp rest
  obtain ⟨before, after⟩ := Prod.mk.inj views
  exact ⟨compaction, .inr ⟨1, none, none, found⟩, input, made, before, after⟩

end

end CodeReading.Leveldb
