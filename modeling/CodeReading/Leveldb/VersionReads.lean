import CodeReading.Leveldb.CompactionOutputs
import CodeReading.Leveldb.Sources

/-!
# Point lookups when tables are added to level 0

`Version::Get` asks the files of level 0 from the newest number down, leaving out those
whose range does not hold the user key, and then the deeper levels. New tables of level 0
with greater numbers are asked first, and leaving a file out by its range loses nothing.
-/

namespace CodeReading.Leveldb

open List

variable {Key Value : Type} [LinearOrder Key] {file : FileMetaData Key}

/-- A table has no entry outside the range of its file. -/
theorem holds_silent (holds : Holds file items)
    (outside : ¬ (file.smallest.userKey ≤ userKey ∧ userKey ≤ file.largest.userKey))
    (sequence : Nat) : lookup items userKey sequence = .notFound := by
  have nothing : newest items userKey sequence = none := by
    rw [newest_none]
    rintro item mem ⟨rfl, _⟩
    have within := holds_within holds mem
    exact outside ⟨userKey_mono within.1, userKey_mono within.2⟩
  rw [lookup_newest holds.sorted, nothing]
  rfl

theorem tableGet_contents (stored : tables file.number = some items) (userKey : Key)
    (sequence : Nat) :
    tableGet tables userKey sequence file = lookup (contents tables file) userKey sequence := by
  rw [tableGet, contents, stored]
  rfl

def inRange (userKey : Key) (file : FileMetaData Key) : Bool :=
  decide (file.smallest.userKey ≤ userKey) && decide (userKey ≤ file.largest.userKey)

theorem candidates_mem (files : List (FileMetaData Key)) (userKey : Key) (file : FileMetaData Key) :
    file ∈ levelZeroCandidates files userKey ↔ file ∈ files ∧ inRange userKey file = true := by
  rw [levelZeroCandidates, mem_insertionSort, mem_filter]
  rfl

variable {files : List (FileMetaData Key)}

theorem newestFirst_descending (distinct : DistinctNumbers files) :
    (files.insertionSort newestFirst).Pairwise fun left right => right.number < left.number := by
  have total : Std.Total fun left right : FileMetaData Key => newestFirst left right :=
    ⟨fun left right => le_total right.number left.number⟩
  have transitive : IsTrans (FileMetaData Key) newestFirst :=
    ⟨fun _ _ _ first second => second.trans first⟩
  have weakly := pairwise_insertionSort newestFirst files
  have apart : (files.insertionSort newestFirst).Pairwise
      fun left right => left.number ≠ right.number :=
    (perm_insertionSort newestFirst _).symm.pairwise distinct fun differ => differ.symm
  exact (weakly.and apart).imp fun both => lt_of_le_of_ne both.1 both.2.symm

theorem candidates_descending (distinct : DistinctNumbers files) (userKey : Key) :
    (levelZeroCandidates files userKey).Pairwise fun left right => right.number < left.number :=
  newestFirst_descending (distinct.filter _)

variable {new : List (FileMetaData Key)}

/-- New files with greater numbers are asked before the old ones, the last first. -/
theorem candidates_add {old all : List (FileMetaData Key)} (distinctAll : DistinctNumbers all)
    (distinctOld : DistinctNumbers old) (members : ∀ file, file ∈ all ↔ file ∈ old ∨ file ∈ new)
    (increasing : new.Pairwise fun left right => left.number < right.number)
    (later : ∀ before ∈ old, ∀ after ∈ new, before.number < after.number) (userKey : Key) :
    levelZeroCandidates all userKey =
      new.reverse.filter (inRange userKey) ++ levelZeroCandidates old userKey := by
  apply pairwise_unique _ (candidates_descending distinctAll userKey)
  · refine pairwise_append.mpr
      ⟨(pairwise_reverse.mpr increasing).filter _, candidates_descending distinctOld userKey, ?_⟩
    intro after isAfter before isBefore
    apply later before ((candidates_mem old userKey before).mp isBefore).1
    exact mem_reverse.mp (mem_filter.mp isAfter).1
  · intro file
    rw [candidates_mem, members, mem_append, candidates_mem, mem_filter, mem_reverse]
    tauto
  · intro _ _ less
    exact less.not_gt

variable {version : Version Key}

theorem forEachOverlapping_subset (mem : file ∈ version.forEachOverlapping userKey internalKey) :
    ∃ level, file ∈ version.files level := by
  cases mem_append.mp mem with
  | inl zero => exact ⟨0, ((candidates_mem _ _ _).mp zero).1⟩
  | inr deeper =>
    obtain ⟨level, _, found⟩ := mem_filterMap.mp deeper
    exact ⟨level, mem_of_getElem? (Option.filter_eq_some_iff.mp found).1⟩

theorem get_added {other : Version Key} {after : Nat → Option (List (Item Key Value))}
    (members : ∀ file, file ∈ other.files 0 ↔ file ∈ version.files 0 ∨ file ∈ new)
    (deeper : ∀ level ≠ 0, other.files level = version.files level)
    (distinctAll : DistinctNumbers (other.files 0))
    (distinctOld : DistinctNumbers (version.files 0))
    (increasing : new.Pairwise fun left right => left.number < right.number)
    (later : ∀ before ∈ version.files 0, ∀ next ∈ new, before.number < next.number)
    (kept : ∀ level, ∀ file ∈ version.files level, after file.number = tables file.number)
    (stored : ∀ file ∈ new, ∃ items, after file.number = some items ∧ Holds file items)
    (userKey : Key) (sequence : Nat) : other.get after userKey sequence =
      (firstHit ((new.reverse.map (contents after)).map
        fun items => lookup items userKey sequence)).orElse
        (version.get tables userKey sequence) := by
  have same : other.forEachOverlapping userKey (lookupKey userKey sequence) =
      new.reverse.filter (inRange userKey) ++
        version.forEachOverlapping userKey (lookupKey userKey sequence) := by
    rw [Version.forEachOverlapping, Version.forEachOverlapping,
      candidates_add distinctAll distinctOld members increasing later, append_assoc]
    refine congrArg _ (congrArg _ (filterMap_congr ?_))
    intro level mem
    rw [deeper level (by rw [mem_range'_1] at mem; omega)]
  have answers : ∀ file ∈ new,
      tableGet after userKey sequence file = lookup (contents after file) userKey sequence := by
    intro file mem
    obtain ⟨items, present, _⟩ := stored file mem
    exact tableGet_contents present userKey sequence
  rw [Version.get, same, map_append, firstHit_append, firstHit_filter]
  · congr 1
    · rw [map_map]
      refine congrArg _ (map_congr_left ?_)
      intro file mem
      exact answers file (mem_reverse.mp mem)
    · rw [Version.get]
      refine congrArg _ (map_congr_left ?_)
      intro file mem
      obtain ⟨level, inside⟩ := forEachOverlapping_subset mem
      rw [tableGet, tableGet, kept level file inside]
  · intro file mem outside
    have isNew := mem_reverse.mp mem
    obtain ⟨items, present, holds⟩ := stored file isNew
    rw [answers file isNew, contents, present]
    apply holds_silent holds
    simpa [inRange] using outside

end CodeReading.Leveldb
