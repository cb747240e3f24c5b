import CodeReading.Leveldb.CompactionOutputs
import CodeReading.Leveldb.VersionSet

/-!
# Replaying the descriptor gives back the current version

The builder of `Recover` accumulates all edits of the descriptor before it saves, while
`LogAndApply` saved after every one. The two agree because a number is added to a level
at most once in the whole history: new files take numbers that were never used, and a
file that is moved only goes down.
-/

namespace CodeReading.Leveldb

open List VersionSet

variable {Key Value : Type} [LinearOrder Key]

theorem lastSet_append (field : VersionEdit Key → Option Nat) (edits : List (VersionEdit Key))
    (edit : VersionEdit Key) :
    lastSet field (edits ++ [edit]) = (field edit).or (lastSet field edits) := by
  rw [lastSet, foldl_append]
  rfl

theorem foreignComparator_append (comparatorName : String) (edits : List (VersionEdit Key))
    (unnamed : edit.comparator = none) :
    foreignComparator comparatorName (edits ++ [edit]) =
      foreignComparator comparatorName edits := by
  simp [foreignComparator, findSome?_append, unnamed]

section

variable (edits : List (VersionEdit Key))

theorem replay_append (edit : VersionEdit Key) (level : Nat) : replay (edits ++ [edit]) level =
      (replay edits level).apply (edit.deletedAt level) (edit.addedAt level) := by
  rw [replay, foldl_append]
  rfl

/-- No edit ever added a file of that number. -/
def Unused (number : Nat) : Prop :=
  ∀ level, ∀ file ∈ (replay edits level).addedFiles, file.number ≠ number

/-- What the builder has accumulated, compared with the current version. -/
structure Replays (version : Version Key) : Prop where
  ordered : ∀ level, ByPosition (replay edits level).addedFiles
  live : ∀ level file, file ∈ version.files level ↔
    file ∈ (replay edits level).addedFiles ∧ file.number ∉ (replay edits level).deletedFiles
  descends : ∀ level, ∀ file ∈ (replay edits level).addedFiles, ∀ lower,
    ∀ other ∈ version.files lower, other.number = file.number → level ≤ lower

/-- The levels of a version share no number. -/
def SeparateNumbers (version : Version Key) : Prop :=
  ∀ level other, level ≠ other → ∀ file ∈ version.files level,
    ∀ elsewhere ∈ version.files other, file.number ≠ elsewhere.number

/-- An edit as the database makes them: the files it adds have numbers that were never
used, or are moved to a deeper level. -/
structure Admissible (version : Version Key) (edit : VersionEdit Key) : Prop where
  distinct : ∀ level, DistinctNumbers (edit.addedAt level)
  across : ∀ level other, level ≠ other → ∀ file ∈ edit.addedAt level,
    ∀ elsewhere ∈ edit.addedAt other, file.number ≠ elsewhere.number
  origin : ∀ level, ∀ file ∈ edit.addedAt level, Unused edits file.number ∨
    ∃ upper < level, file ∈ version.files upper ∧ file.number ∈ edit.deletedAt upper

end

section

variable {edits : List (VersionEdit Key)} {version : Version Key} {edit : VersionEdit Key}

theorem replays_saveTo (replays : Replays edits version)
    (ordered : ∀ level, ByPosition (version.files level)) :
    (replay edits).saveTo Version.empty = version := by
  obtain ⟨files⟩ := version
  refine congrArg Version.mk (funext fun level => ?_)
  apply byPosition_unique _ (ordered level)
  · intro file
    rw [saveLevel_mem, replays.live level file]
    simp [Version.empty]
  · apply saveLevel_ordered (replays.ordered level) .nil
    intro file _ _ none
    cases none

theorem unused_live (replays : Replays edits version) {number : Nat} (unused : Unused edits number)
    (mem : file ∈ version.files level) : file.number ≠ number :=
  unused level file ((replays.live level file).mp mem).1

theorem admissible_target
    (shape : edit.newFiles = files.map fun file => (target, file))
    (distinct : DistinctNumbers files) (origin : ∀ file ∈ files, Unused edits file.number ∨
      ∃ upper < target, file ∈ version.files upper ∧ file.number ∈ edit.deletedAt upper) :
    Admissible edits version edit := by
  constructor
  · intro level
    rw [addedAt_target shape]
    split
    · exact distinct
    · exact .nil
  · intro level other differ file mem elsewhere inside
    rw [addedAt_target shape] at mem inside
    split at mem
    · split at inside
      · omega
      · cases inside
    · cases mem
  · intro level file mem
    rw [addedAt_target shape] at mem
    split at mem
    · rename_i here
      exact here ▸ origin file mem
    · cases mem

section

variable (replays : Replays edits version)
include replays

theorem admissible_fresh (separate : SeparateNumbers version)
    (admissible : Admissible edits version edit) (level : Nat) :
    FreshAt (version.files level) (edit.addedAt level) := by
  refine ⟨admissible.distinct level, ?_⟩
  intro file added other live
  rcases admissible.origin level file added with unused | ⟨upper, above, moved, _⟩
  · exact unused_live replays unused live
  · exact (separate upper level above.ne file moved other live).symm

theorem admissible_new (admissible : Admissible edits version edit)
    (added : file ∈ edit.addedAt level)
    (mem : old ∈ (replay edits level).addedFiles) : old.number ≠ file.number := by
  rcases admissible.origin level file added with unused | ⟨upper, _, moved, _⟩
  · exact unused level old mem
  · intro same
    exact absurd (replays.descends level old mem upper file moved same.symm) (by omega)

theorem replay_added (admissible : Admissible edits version edit) (level : Nat)
    (file : FileMetaData Key) : file ∈ (replay (edits ++ [edit]) level).addedFiles ↔
      file ∈ (replay edits level).addedFiles ∨ file ∈ edit.addedAt level := by
  rw [replay_append]
  apply apply_added _ _ _ (admissible.distinct level)
  intro _ added _ mem
  exact admissible_new replays admissible added mem

end

theorem replay_deleted (level number : Nat) :
    number ∈ (replay (edits ++ [edit]) level).deletedFiles ↔
      (number ∈ (replay edits level).deletedFiles ∨ number ∈ edit.deletedAt level) ∧
        ∀ file ∈ edit.addedAt level, file.number ≠ number := by
  rw [replay_append, apply_deleted]

section

variable (replays : Replays edits version) (separate : SeparateNumbers version)
  (admissible : Admissible edits version edit)
include replays separate admissible

/-- One more record: the builder and the version stay in step. -/
theorem replays_append : Replays (edits ++ [edit]) (version.applyEdit edit) := by
  have fresh := admissible_fresh replays separate admissible
  constructor
  · intro level
    rw [replay_append]
    exact foldl_add_ordered _ _ (replays.ordered level)
  · intro level file
    rw [applyEdit_mem (fresh level), replay_added replays admissible, replay_deleted, replays.live]
    constructor
    · rintro (⟨⟨added, undeleted⟩, kept⟩ | new)
      · exact ⟨.inl added, fun gone => gone.1.elim undeleted kept⟩
      · exact ⟨.inr new, fun gone => gone.2 file new rfl⟩
    · rintro ⟨added | new, kept⟩
      · left
        have others : ∀ other ∈ edit.addedAt level, other.number ≠ file.number :=
          fun other new => (admissible_new replays admissible new added).symm
        exact ⟨⟨added, fun gone => kept ⟨.inl gone, others⟩⟩,
          fun gone => kept ⟨.inr gone, others⟩⟩
      · exact .inr new
  · intro level file history lower other live same
    rw [replay_added replays admissible] at history
    rw [applyEdit_mem (fresh lower)] at live
    rcases live with ⟨old, kept⟩ | new
    · rcases history with added | addedNow
      · exact replays.descends level file added lower other old same
      · rcases admissible.origin level file addedNow with unused | ⟨upper, _, moved, deleted⟩
        · exact absurd same (unused_live replays unused old)
        · by_cases place : upper = lower
          · subst place
            exact absurd (same ▸ deleted) kept
          · exact absurd same.symm (separate upper lower place file moved other old)
    · rcases history with added | addedNow
      · rcases admissible.origin lower other new with unused | ⟨upper, above, moved, _⟩
        · exact absurd same.symm (unused level file added)
        · exact (replays.descends level file added upper other moved same).trans above.le
      · by_contra lowerFirst
        exact admissible.across level lower (by omega) file addedNow other new same.symm

theorem separate_applyEdit : SeparateNumbers (version.applyEdit edit) := by
  have fresh := admissible_fresh replays separate admissible
  -- an old file and an added one of another level
  have mixed : ∀ level other, level ≠ other → ∀ file ∈ version.files level,
      file.number ∉ edit.deletedAt level → ∀ elsewhere ∈ edit.addedAt other,
        file.number ≠ elsewhere.number := by
    intro level other differ file live kept elsewhere added
    rcases admissible.origin other elsewhere added with unused | ⟨upper, _, moved, deleted⟩
    · exact unused_live replays unused live
    · by_cases place : level = upper
      · subst place
        intro same
        exact kept (same ▸ deleted)
      · exact separate level upper place file live elsewhere moved
  intro level other differ file mem elsewhere inside
  rw [applyEdit_mem (fresh level)] at mem
  rw [applyEdit_mem (fresh other)] at inside
  rcases mem with ⟨old, kept⟩ | new
  · rcases inside with ⟨oldToo, _⟩ | newToo
    · exact separate level other differ file old elsewhere oldToo
    · exact mixed level other differ file old kept elsewhere newToo
  · rcases inside with ⟨oldToo, keptToo⟩ | newToo
    · exact (mixed other level differ.symm elsewhere oldToo keptToo file new).symm
    · exact admissible.across level other differ file new elsewhere newToo

end

theorem distinct_applyEdit (fresh : ∀ level, FreshAt (version.files level) (edit.addedAt level))
    (distinct : ∀ level, DistinctNumbers (version.files level)) (level : Nat) :
    DistinctNumbers ((version.applyEdit edit).files level) := by
  have perm := saveLevel_perm (Builder.empty.apply edit level).deletedFiles
    (Builder.empty.apply edit level).addedFiles (version.files level)
  have added : ∀ file ∈ (Builder.empty.apply edit level).addedFiles, file ∈ edit.addedAt level := by
    intro file mem
    rcases (apply_added ⟨[], []⟩ _ _ (fresh level).distinct (by simp) file).mp mem with
      none | new
    · cases none
    · exact new
  have ordered : ByPosition (Builder.empty.apply edit level).addedFiles :=
    foldl_add_ordered _ _ .nil
  refine perm.symm.pairwise (List.Pairwise.filter _ (pairwise_append.mpr
    ⟨distinct level, ?_, ?_⟩)) fun differ => differ.symm
  · refine List.Pairwise.imp_of_mem ?_ ordered
    intro left right leftMember rightMember less same
    have equal := distinctNumbers_eq (fresh level).distinct (added left leftMember)
      (added right rightMember) same
    exact absurd less (equal ▸ lt_irrefl _)
  · intro old live new mem
    exact (fresh level).fresh new (added new mem) old live

/-- The tables of a version after an edit: those it had and those that were added. -/
theorem sound_applyEdit {tables after : Nat → Option (List (Item Key Value))}
    (replays : Replays edits version) (sound : Sound tables version)
    (admissible : Admissible edits version edit)
    (kept : ∀ level, ∀ file ∈ version.files level, after file.number = tables file.number)
    (added : ∀ level, ∀ file ∈ edit.addedAt level,
      ∃ items, after file.number = some items ∧ Holds file items) :
    Sound after (version.applyEdit edit) := by
  have fresh := admissible_fresh replays sound.separate admissible
  constructor
  · intro level file mem
    rw [applyEdit_mem (fresh level)] at mem
    rcases mem with ⟨old, _⟩ | new
    · rw [kept level file old]
      exact sound.stored level file old
    · exact added level file new
  · exact distinct_applyEdit fresh sound.distinct
  · exact separate_applyEdit replays sound.separate admissible

end

section

/-- The records of a descriptor make up the current version, under numbers below the
counter. -/
structure Written (comparatorName : String) (edits : List (VersionEdit Key))
    (versions : VersionSet Key) : Prop where
  comparator : foreignComparator comparatorName edits = none
  replays : Replays edits versions.current
  below : ∀ level, ∀ file ∈ (replay edits level).addedFiles, file.number < versions.nextFileNumber

/-- The descriptor tells what the version set is. The tables hold sequence numbers up to
`start`, and the descriptor knows of these. -/
structure Recorded (comparatorName : String) (start : Nat) (edits : List (VersionEdit Key))
    (versions : VersionSet Key) : Prop where
  comparator : foreignComparator comparatorName edits = none
  replays : Replays edits versions.current
  next : ∃ next ≤ versions.nextFileNumber, lastSet VersionEdit.nextFileNumber edits = some next ∧
    (∀ level, ∀ file ∈ (replay edits level).addedFiles, file.number < next) ∧
    versions.logNumber ≤ next
  log : lastSet VersionEdit.logNumber edits = some versions.logNumber
  prev : (lastSet VersionEdit.prevLogNumber edits).getD 0 = versions.prevLogNumber
  last : ∃ last ≤ versions.lastSequence, lastSet VersionEdit.lastSequence edits = some last ∧
    start ≤ last

variable {edits : List (VersionEdit Key)} {versions : VersionSet Key}

theorem recorded_written (recorded : Recorded comparatorName start edits versions) :
    Written comparatorName edits versions := by
  obtain ⟨next, bound, _, below, _⟩ := recorded.next
  refine { recorded with below := ?_ }
  intro level file mem
  exact (below level file mem).trans_le bound

theorem admissible_complete (admissible : Admissible edits versions.current edit) :
    Admissible edits versions.current (versions.complete edit) :=
  { admissible with }

section

variable (written : Written comparatorName edits versions)
include written

theorem written_unused {number : Nat} (above : versions.nextFileNumber ≤ number) :
    Unused edits number := by
  intro level file mem
  have small := written.below level file mem
  omega

theorem written_number
    (mem : file ∈ versions.current.files level) : file.number < versions.nextFileNumber :=
  written.below level file ((written.replays.live level file).mp mem).1

theorem written_logAndApply (separate : SeparateNumbers versions.current)
    (admissible : Admissible edits versions.current edit) (unnamed : edit.comparator = none)
    (below : ∀ level, ∀ file ∈ edit.addedAt level, file.number < versions.nextFileNumber)
    (log : edit.logNumber.getD versions.logNumber ≤ versions.nextFileNumber)
    (known : start ≤ versions.lastSequence) :
    Recorded comparatorName start (edits ++ [versions.complete edit])
      (versions.apply (versions.complete edit)) := by
  have complete := admissible_complete admissible
  have anonymous : (versions.complete edit).comparator = none := unnamed
  constructor
  · rw [foreignComparator_append comparatorName edits anonymous]
    exact written.comparator
  · exact replays_append written.replays separate complete
  · refine ⟨versions.nextFileNumber, le_rfl, ?_, ?_, ?_⟩
    · rw [lastSet_append]
      rfl
    · intro level file mem
      cases (replay_added written.replays complete level file).mp mem with
      | inl old => exact written.below level file old
      | inr new => exact below level file new
    · exact log
  · rw [lastSet_append]
    rfl
  · rw [lastSet_append]
    rfl
  · refine ⟨versions.lastSequence, le_rfl, ?_, known⟩
    rw [lastSet_append]
    rfl

end

variable {other : VersionSet Key}

theorem recorded_ahead (recorded : Recorded comparatorName start edits versions)
    (current : other.current = versions.current)
    (counter : versions.nextFileNumber ≤ other.nextFileNumber)
    (sequence : versions.lastSequence ≤ other.lastSequence)
    (log : other.logNumber = versions.logNumber)
    (prev : other.prevLogNumber = versions.prevLogNumber) :
    Recorded comparatorName start edits other := by
  obtain ⟨next, nextBound, isNext, below, logBelow⟩ := recorded.next
  obtain ⟨last, lastBound, isLast, known⟩ := recorded.last
  constructor
  · exact recorded.comparator
  · rw [current]
    exact recorded.replays
  · exact ⟨next, nextBound.trans counter, isNext, below, log ▸ logBelow⟩
  · rw [log]
    exact recorded.log
  · rw [prev]
    exact recorded.prev
  · exact ⟨last, lastBound.trans sequence, isLast, known⟩

/-- `Recover` gives back the version set, with the counters of the last record. -/
theorem recover_recorded (recorded : Recorded comparatorName start edits versions)
    (ordered : ∀ level, ByPosition (versions.current.files level)) :
    ∃ recovered, VersionSet.recover comparatorName edits = .ok recovered ∧
      recovered.current = versions.current ∧ recovered.logNumber = versions.logNumber ∧
      recovered.prevLogNumber = versions.prevLogNumber ∧
      (start ≤ recovered.lastSequence ∧ recovered.lastSequence ≤ versions.lastSequence) ∧
      (∀ level, ∀ file ∈ versions.current.files level, file.number < recovered.nextFileNumber) ∧
      recovered.logNumber < recovered.nextFileNumber := by
  obtain ⟨next, _, isNext, below, logBelow⟩ := recorded.next
  obtain ⟨last, lastBound, isLast, known⟩ := recorded.last
  have made : recover comparatorName edits = .ok
      { current := (replay edits).saveTo Version.empty
        compactPointer := edits.foldl (fun pointers edit => applyPointers edit pointers)
          fun _ => none
        nextFileNumber := next + 1
        lastSequence := last
        logNumber := versions.logNumber
        prevLogNumber := (lastSet VersionEdit.prevLogNumber edits).getD 0 } := by
    rw [recover, recorded.comparator, isNext, recorded.log, isLast]
  refine ⟨_, made, ?_, rfl, ?_, ?_, ?_, ?_⟩
  · exact replays_saveTo recorded.replays ordered
  · exact recorded.prev
  · exact ⟨known, lastBound⟩
  · intro level file mem
    have small := below level file ((recorded.replays.live level file).mp mem).1
    exact small.trans (Nat.lt_succ_self next)
  · exact Nat.lt_succ_of_le logBelow

theorem flatMap_only {α β : Type} [DecidableEq α] (values : α → List β) (wanted : α)
    {places : List α} (nodup : places.Nodup) :
    (places.flatMap fun place => if place = wanted then values place else []) =
      if wanted ∈ places then values wanted else [] := by
  induction places with
  | nil => rfl
  | cons place rest ih =>
    obtain ⟨fresh, later⟩ := nodup_cons.mp nodup
    rw [flatMap_cons, ih later]
    by_cases here : place = wanted
    · subst here
      simp [fresh]
    · have elsewhere : wanted ≠ place := fun same => here same.symm
      simp [here, elsewhere]

theorem snapshotEdit_addedAt (comparatorName : String) (versions : VersionSet Key)
    (shallow : ∀ level, kNumLevels ≤ level → versions.current.files level = []) (level : Nat) :
    (versions.snapshotEdit comparatorName).addedAt level = versions.current.files level := by
  have split : ∀ place, (versions.current.files place).filterMap
      (fun file => if place = level then some file else none) =
        if place = level then versions.current.files place else [] := by
    intro place
    by_cases here : place = level
    · simp [here]
    · simp [here]
  rw [VersionEdit.addedAt, snapshotEdit, filterMap_flatMap]
  simp only [filterMap_map, Function.comp_def, split]
  rw [flatMap_only versions.current.files level nodup_range]
  split
  · rfl
  · rename_i deep
    exact (shallow level (by simpa using deep)).symm

theorem snapshot_written (shallow : ∀ level, kNumLevels ≤ level → versions.current.files level = [])
    (distinct : ∀ level, DistinctNumbers (versions.current.files level))
    (separate : SeparateNumbers versions.current) (current : other.current = versions.current)
    (below : ∀ level, ∀ file ∈ versions.current.files level, file.number < other.nextFileNumber) :
    Written comparatorName [versions.snapshotEdit comparatorName] other := by
  have added : ∀ level file,
      file ∈ (replay [versions.snapshotEdit comparatorName] level).addedFiles ↔
        file ∈ versions.current.files level := by
    intro level file
    have members := apply_added ⟨[], []⟩ ((versions.snapshotEdit comparatorName).deletedAt level)
      (versions.current.files level) (distinct level) (by simp) file
    rw [← snapshotEdit_addedAt comparatorName versions shallow level] at members ⊢
    exact members.trans (or_iff_right not_mem_nil)
  have deleted : ∀ level number,
      number ∉ (replay [versions.snapshotEdit comparatorName] level).deletedFiles := by
    intro level number gone
    have removed := (apply_deleted ⟨[], []⟩ _ _ number).mp gone
    cases removed.1 with
    | inl none | inr none => cases none
  constructor
  · simp [foreignComparator, snapshotEdit]
  · rw [current]
    constructor
    · intro level
      exact foldl_add_ordered _ _ .nil
    · intro level file
      rw [added]
      exact ⟨fun mem => ⟨mem, deleted level _⟩, fun both => both.1⟩
    · intro level file mem lower other inside same
      rw [added] at mem
      by_contra differ
      exact separate level lower (by omega) file mem other inside same.symm
  · intro level file mem
    exact below level file ((added level file).mp mem)

end

end CodeReading.Leveldb
