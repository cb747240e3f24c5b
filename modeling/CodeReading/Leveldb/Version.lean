import CodeReading.Leveldb.MemTable
import Mathlib.Data.List.AList
import Mathlib.Data.List.Chain

/-!
# Versions: the files of every level and how they are searched

A version lists, level by level, the tables that make up the database. The searches
below are those of the source: the binary search over the files of a level, the test
whether a range of user keys meets a level, the collection of overlapping files, whose
scan of level 0 restarts whenever a file widens the range, the choice of a level for a
flushed memtable, and the point lookup, which visits level 0 from the newest file to
the oldest and then one file per level.

A null bound of a range stands for no bound. Sizes are in bytes.
-/

namespace CodeReading.Leveldb

open List

def kNumLevels : Nat := 7

def kMaxMemCompactLevel : Nat := 2

/-- The part of `Options` that steers versions and compactions. -/
structure Options where
  maxFileSize : Nat
  writeBufferSize : Nat
deriving DecidableEq, Repr

def Options.maxGrandParentOverlapBytes (options : Options) : Nat := 10 * options.maxFileSize

def Options.expandedCompactionByteSizeLimit (options : Options) : Nat := 25 * options.maxFileSize

/-- `MaxFileSizeForLevel`, the same for every level. -/
def Options.maxFileSizeForLevel (options : Options) : Nat := options.maxFileSize

variable {Key Value : Type} [LinearOrder Key]

/-- `FileMetaData`. The counter `allowed_seeks` is left out: it only decides when a
seek compaction is due. -/
structure FileMetaData (Key : Type) [LinearOrder Key] where
  number : Nat
  fileSize : Nat
  smallest : InternalKey Key
  largest : InternalKey Key
  ordered : smallest ≤ largest
deriving DecidableEq

def totalFileSize (files : List (FileMetaData Key)) : Nat := (files.map FileMetaData.fileSize).sum

/-- `Version`: the files of every level. -/
structure Version (Key : Type) [LinearOrder Key] where
  files : Nat → List (FileMetaData Key)

def Version.empty : Version Key := ⟨fun _ => []⟩

/-- The loop of `FindFile`. The index stays below the number of files, so the file
it looks at is there. The source's `uint32_t` sum is this one for up to `2 ^ 31` files. -/
def findFileLoop (files : List (FileMetaData Key)) (key : InternalKey Key) (left right : Nat) :
    Nat :=
  if left < right then
    let mid := (left + right) / 2
    if files[mid]?.any fun file => decide (file.largest < key) then
      findFileLoop files key (mid + 1) right
    else findFileLoop files key left mid
  else right
termination_by right - left
decreasing_by all_goals omega

/-- `FindFile`: the index of the first file that ends at the key or after it. -/
def findFile (files : List (FileMetaData Key)) (key : InternalKey Key) : Nat :=
  findFileLoop files key 0 files.length

def afterFile (userKey : Option Key) (file : FileMetaData Key) : Bool :=
  userKey.any fun bound => decide (file.largest.userKey < bound)

def beforeFile (userKey : Option Key) (file : FileMetaData Key) : Bool :=
  userKey.any fun bound => decide (bound < file.smallest.userKey)

def someFileOverlapsRange (disjointSortedFiles : Bool) (files : List (FileMetaData Key))
    (smallestUserKey largestUserKey : Option Key) : Bool :=
  if disjointSortedFiles then
    let index := match smallestUserKey with
      | none => 0
      | some bound => findFile files (lookupKey bound kMaxSequenceNumber)
    files[index]?.any fun file => !beforeFile largestUserKey file
  else
    files.any fun file => !(afterFile smallestUserKey file || beforeFile largestUserKey file)

def Version.overlapInLevel (version : Version Key) (level : Nat)
    (smallestUserKey largestUserKey : Option Key) : Bool :=
  someFileOverlapsRange (decide (0 < level)) (version.files level) smallestUserKey largestUserKey

/-- A range of user keys; a missing bound is no bound. -/
structure UserRange (Key : Type) where
  lower : Option Key
  upper : Option Key

open UserRange

section

variable (range : UserRange Key) (file : FileMetaData Key)

/-- The file is neither completely before nor completely after the range. -/
def UserRange.overlaps : Bool :=
  !afterFile range.lower file && !beforeFile range.upper file

def UserRange.startsBefore : Bool :=
  range.lower.any fun bound => decide (file.smallest.userKey < bound)

def UserRange.endsAfter : Bool :=
  range.upper.any fun bound => decide (bound < file.largest.userKey)

end

/-- How many files of the level still could widen the range. -/
def UserRange.slack (range : UserRange Key) (files : List (FileMetaData Key)) : Nat :=
  files.countP range.startsBefore + files.countP range.endsAfter

theorem countP_lt {α : Type} {narrow wide : α → Bool} {values : List α} {value : α}
    (weaker : ∀ value, narrow value = true → wide value = true) (mem : value ∈ values)
    (inside : wide value = true) (outside : narrow value = false) :
    values.countP narrow < values.countP wide := by
  obtain ⟨before, after, rfl⟩ := append_of_mem mem
  have first : before.countP narrow ≤ before.countP wide :=
    countP_mono_left fun value _ => weaker value
  have second : after.countP narrow ≤ after.countP wide :=
    countP_mono_left fun value _ => weaker value
  rw [countP_append, countP_append, countP_cons, countP_cons, inside, outside]
  simp
  omega

section

variable {range : UserRange Key}

theorem slack_lower (mem : file ∈ files) (starts : range.startsBefore file = true) :
    slack ⟨some file.smallest.userKey, range.upper⟩ files < range.slack files := by
  have fewer : files.countP (startsBefore ⟨some file.smallest.userKey, range.upper⟩) <
      files.countP range.startsBefore := by
    apply countP_lt _ mem starts
    · simp [startsBefore]
    · intro _ earlier
      obtain ⟨lower, upper⟩ := range
      cases lower with
      | none => simp [startsBefore] at starts
      | some bound =>
        simp only [startsBefore, Option.any_some, decide_eq_true_eq] at *
        exact earlier.trans starts
  exact Nat.add_lt_add_right fewer _

theorem slack_upper (mem : file ∈ files) (ends : range.endsAfter file = true) :
    slack ⟨range.lower, some file.largest.userKey⟩ files < range.slack files := by
  have fewer : files.countP (endsAfter ⟨range.lower, some file.largest.userKey⟩) <
      files.countP range.endsAfter := by
    apply countP_lt _ mem ends
    · simp [endsAfter]
    · intro _ later
      obtain ⟨lower, upper⟩ := range
      cases upper with
      | none => simp [endsAfter] at ends
      | some bound =>
        simp only [endsAfter, Option.any_some, decide_eq_true_eq] at *
        exact ends.trans later
  exact Nat.add_lt_add_left fewer _

end

/-- A restart scans all files again, but with one less that could cause another. -/
theorem restart_measure (less : fewer < more) {length index : Nat} :
    fewer * (length + 1) + (length - 0) < more * (length + 1) + (length - index) := by
  have bound : (fewer + 1) * (length + 1) ≤ more * (length + 1) := Nat.mul_le_mul_right _ less
  rw [Nat.succ_mul] at bound
  omega

/-- The loop of `GetOverlappingInputs`. In level 0 a file that widens the range starts
the scan over; every such restart uses up a file that could widen it. -/
def overlapLoop (levelZero : Bool) (files : List (FileMetaData Key)) (index : Nat)
    (range : UserRange Key) (inputs : List (FileMetaData Key)) : List (FileMetaData Key) :=
  match _found : files[index]? with
  | none => inputs
  | some file =>
      if afterFile range.lower file then overlapLoop levelZero files (index + 1) range inputs
      else if beforeFile range.upper file then
        overlapLoop levelZero files (index + 1) range inputs
      else if _starts : levelZero && range.startsBefore file then
        overlapLoop levelZero files 0 ⟨some file.smallest.userKey, range.upper⟩ []
      else if _ends : levelZero && range.endsAfter file then
        overlapLoop levelZero files 0 ⟨range.lower, some file.largest.userKey⟩ []
      else overlapLoop levelZero files (index + 1) range (inputs ++ [file])
termination_by range.slack files * (files.length + 1) + (files.length - index)
decreasing_by
  all_goals
    have inside : index < files.length := (List.getElem?_eq_some_iff.mp _found).1
    have mem : file ∈ files := List.mem_of_getElem? _found
  · omega
  · omega
  · exact restart_measure (slack_lower mem (by simp_all))
  · exact restart_measure (slack_upper mem (by simp_all))
  · omega

def Version.getOverlappingInputs (version : Version Key) (level : Nat)
    (begin finish : Option (InternalKey Key)) : List (FileMetaData Key) :=
  overlapLoop (decide (level = 0)) (version.files level) 0
    ⟨begin.map InternalKey.userKey, finish.map InternalKey.userKey⟩ []

/-- The loop of `PickLevelForMemTableOutput`: the level is raised while the next one
holds nothing of the range and the one after that not too much. -/
def pickLevelLoop (options : Options) (version : Version Key) (smallestUserKey largestUserKey : Key)
    (level : Nat) : Nat :=
  if level < kMaxMemCompactLevel then
    if version.overlapInLevel (level + 1) (some smallestUserKey) (some largestUserKey) then level
    else if level + 2 < kNumLevels ∧
        options.maxGrandParentOverlapBytes <
          totalFileSize (version.getOverlappingInputs (level + 2)
            (some (lookupKey smallestUserKey kMaxSequenceNumber))
            (some ⟨largestUserKey, 0, .deletion⟩)) then level
    else pickLevelLoop options version smallestUserKey largestUserKey (level + 1)
  else level
termination_by kMaxMemCompactLevel - level

def Version.pickLevelForMemTableOutput (options : Options) (version : Version Key)
    (smallestUserKey largestUserKey : Key) : Nat :=
  if version.overlapInLevel 0 (some smallestUserKey) (some largestUserKey) then 0
  else pickLevelLoop options version smallestUserKey largestUserKey 0

def newestFirst (left right : FileMetaData Key) : Prop := right.number ≤ left.number

instance (left right : FileMetaData Key) : Decidable (newestFirst left right) :=
  inferInstanceAs (Decidable (right.number ≤ left.number))

/-- The file of a deeper level that `ForEachOverlapping` visits, if any. -/
def levelCandidate (files : List (FileMetaData Key)) (userKey : Key)
    (internalKey : InternalKey Key) : Option (FileMetaData Key) :=
  files[findFile files internalKey]?.filter fun file => !decide (userKey < file.smallest.userKey)

/-- The files of level 0 whose range holds the user key, from the newest on. -/
def levelZeroCandidates (files : List (FileMetaData Key)) (userKey : Key) :
    List (FileMetaData Key) :=
  (files.filter fun file => decide (file.smallest.userKey ≤ userKey) &&
    decide (userKey ≤ file.largest.userKey)).insertionSort newestFirst

/-- The files in the order in which `ForEachOverlapping` visits them. -/
def Version.forEachOverlapping (version : Version Key) (userKey : Key)
    (internalKey : InternalKey Key) : List (FileMetaData Key) :=
  levelZeroCandidates (version.files 0) userKey ++
    (List.range' 1 (kNumLevels - 1)).filterMap fun level =>
      levelCandidate (version.files level) userKey internalKey

/-- `TableCache::Get` with `SaveValue`. -/
def tableGet (tables : Nat → Option (List (Item Key Value))) (userKey : Key) (sequence : Nat)
    (file : FileMetaData Key) : SaverState Value :=
  match tables file.number with
  | some items => lookup items userKey sequence
  | none => .corrupt

/-- A search that stops at the first state other than `notFound`. -/
def firstHit : List (SaverState Value) → SaverState Value
  | [] => .notFound
  | .notFound :: rest => firstHit rest
  | state :: _ => state

def Version.get (tables : Nat → Option (List (Item Key Value))) (version : Version Key)
    (userKey : Key) (sequence : Nat) : SaverState Value :=
  firstHit ((version.forEachOverlapping userKey (lookupKey userKey sequence)).map
    (tableGet tables userKey sequence))

end CodeReading.Leveldb
