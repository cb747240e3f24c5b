import CodeReading.Leveldb.VersionEdit
import CodeReading.Leveldb.VersionSearch

/-!
# Picking the inputs of a compaction

A compaction takes files of a level and the files of the next level that they meet.
What starts it is a level that is too large, a file that was sought too often, or a
request for a range of keys; from there on the source extends the inputs in the same
way. Both input sets are closed under boundary files, that is files that continue the
last user key, and the first set may grow when that costs no file of the second.

The score of a level and the seek counters only decide which compaction is started.
They are not modelled; every level and every file may be the trigger.
-/

namespace CodeReading.Leveldb

open List

variable {Key : Type} [LinearOrder Key]

/-- The keys between which a set of files lies. -/
structure KeyRange (Key : Type) where
  smallest : InternalKey Key
  largest : InternalKey Key

/-- One turn of the loop of `GetRange`. -/
def KeyRange.extend (range : KeyRange Key) (file : FileMetaData Key) : KeyRange Key :=
  ⟨if file.smallest < range.smallest then file.smallest else range.smallest,
    if range.largest < file.largest then file.largest else range.largest⟩

/-- `GetRange`. It requires that there are inputs. -/
def getRange : List (FileMetaData Key) → Option (KeyRange Key)
  | [] => none
  | file :: rest => some (rest.foldl KeyRange.extend ⟨file.smallest, file.largest⟩)

def findLargestKey : List (FileMetaData Key) → Option (InternalKey Key)
  | [] => none
  | file :: rest => some (rest.foldl
      (fun largest other => if largest < other.largest then other.largest else largest)
      file.largest)

/-- The file continues the user key that ends at the key. -/
def isBoundaryFile (largestKey : InternalKey Key) (file : FileMetaData Key) : Bool :=
  decide (largestKey < file.smallest) && decide (file.smallest.userKey = largestKey.userKey)

/-- One turn of the loop of `FindSmallestBoundaryFile`. -/
def smallerBoundaryFile (largestKey : InternalKey Key) (best : Option (FileMetaData Key))
    (file : FileMetaData Key) : Option (FileMetaData Key) :=
  if isBoundaryFile largestKey file then
    match best with
    | none => some file
    | some other => if file.smallest < other.smallest then some file else some other
  else best

def findSmallestBoundaryFile (levelFiles : List (FileMetaData Key))
    (largestKey : InternalKey Key) : Option (FileMetaData Key) :=
  levelFiles.foldl (smallerBoundaryFile largestKey) none

/-- The best candidate among the files seen so far. -/
def BestBoundary (largestKey : InternalKey Key) (seen : List (FileMetaData Key)) :
    Option (FileMetaData Key) → Prop
  | none => ∀ file ∈ seen, isBoundaryFile largestKey file = false
  | some best => best ∈ seen ∧ isBoundaryFile largestKey best = true ∧
      ∀ file ∈ seen, isBoundaryFile largestKey file = true → best.smallest ≤ file.smallest

variable {largestKey : InternalKey Key}

theorem bestBoundary_turn (known : BestBoundary largestKey seen best) (file : FileMetaData Key) :
    BestBoundary largestKey (seen ++ [file]) (smallerBoundaryFile largestKey best file) := by
  unfold smallerBoundaryFile
  by_cases boundary : isBoundaryFile largestKey file = true
  · rw [if_pos boundary]
    cases best with
    | none =>
      refine ⟨by simp, boundary, ?_⟩
      intro other mem held
      rcases mem_append.mp mem with old | new
      · simp [known other old] at held
      · rw [mem_singleton.mp new]
    | some other =>
      obtain ⟨mem, held, least⟩ := known
      by_cases less : file.smallest < other.smallest
      · simp only [if_pos less]
        refine ⟨by simp, boundary, ?_⟩
        intro third inside heldToo
        rcases mem_append.mp inside with old | new
        · exact less.le.trans (least third old heldToo)
        · rw [mem_singleton.mp new]
      · simp only [if_neg less]
        refine ⟨mem_append_left _ mem, held, ?_⟩
        intro third inside heldToo
        rcases mem_append.mp inside with old | new
        · exact least third old heldToo
        · rw [mem_singleton.mp new]
          exact not_lt.mp less
  · rw [if_neg boundary]
    cases best with
    | none =>
      intro other mem
      rcases mem_append.mp mem with old | new
      · exact known other old
      · rw [mem_singleton.mp new]
        exact Bool.eq_false_iff.mpr boundary
    | some other =>
      obtain ⟨mem, held, least⟩ := known
      refine ⟨mem_append_left _ mem, held, ?_⟩
      intro third inside heldToo
      rcases mem_append.mp inside with old | new
      · exact least third old heldToo
      · rw [mem_singleton.mp new] at heldToo
        exact absurd heldToo boundary

theorem findSmallestBoundaryFile_best (levelFiles : List (FileMetaData Key))
    (largestKey : InternalKey Key) :
    BestBoundary largestKey levelFiles (findSmallestBoundaryFile levelFiles largestKey) := by
  suffices run : ∀ rest seen best, BestBoundary largestKey seen best →
      BestBoundary largestKey (seen ++ rest)
        (rest.foldl (smallerBoundaryFile largestKey) best) by
    exact run levelFiles [] none fun file mem => by cases mem
  intro rest
  induction rest with
  | nil =>
    intro seen best known
    simpa using known
  | cons file rest ih =>
    intro seen best known
    have next := ih _ _ (bestBoundary_turn known file)
    rwa [append_assoc, singleton_append] at next

theorem isBoundaryFile_iff (largestKey : InternalKey Key) (file : FileMetaData Key) :
    isBoundaryFile largestKey file = true ↔
      largestKey < file.smallest ∧ file.smallest.userKey = largestKey.userKey := by
  simp [isBoundaryFile]

/-- A boundary file moves the largest key past its own smallest key. -/
theorem boundary_progress (found : findSmallestBoundaryFile levelFiles largestKey = some file) :
    levelFiles.countP (fun other => decide (file.largest < other.smallest)) <
      levelFiles.countP fun other => decide (largestKey < other.smallest) := by
  have best := findSmallestBoundaryFile_best levelFiles largestKey
  rw [found] at best
  have beyond := ((isBoundaryFile_iff largestKey file).mp best.2.1).1
  apply countP_lt _ best.1 (decide_eq_true beyond)
  · exact decide_eq_false (not_lt.mpr file.ordered)
  · intro other less
    exact decide_eq_true ((beyond.trans_le file.ordered).trans (of_decide_eq_true less))

def boundaryLoop (levelFiles : List (FileMetaData Key)) (largestKey : InternalKey Key)
    (compactionFiles : List (FileMetaData Key)) : List (FileMetaData Key) :=
  match _found : findSmallestBoundaryFile levelFiles largestKey with
  | none => compactionFiles
  | some file => boundaryLoop levelFiles file.largest (compactionFiles ++ [file])
termination_by levelFiles.countP fun other => decide (largestKey < other.smallest)
decreasing_by exact boundary_progress _found

def addBoundaryInputs (levelFiles compactionFiles : List (FileMetaData Key)) :
    List (FileMetaData Key) :=
  match findLargestKey compactionFiles with
  | none => compactionFiles
  | some largestKey => boundaryLoop levelFiles largestKey compactionFiles

/-- `Compaction`, with the version it was picked from. -/
structure Compaction (Key : Type) [LinearOrder Key] where
  level : Nat
  inputVersion : Version Key
  inputs0 : List (FileMetaData Key)
  inputs1 : List (FileMetaData Key)
  grandparents : List (FileMetaData Key)
  edit : VersionEdit Key

/-- The files of a level that meet the range, with their boundary files. -/
def Version.closedInputs (version : Version Key) (level : Nat) (range : KeyRange Key) :
    List (FileMetaData Key) :=
  addBoundaryInputs (version.files level)
    (version.getOverlappingInputs level (some range.smallest) (some range.largest))

/-- The inputs of the two levels, and the range of the first. -/
structure Inputs (Key : Type) [LinearOrder Key] where
  inputs0 : List (FileMetaData Key)
  inputs1 : List (FileMetaData Key)
  range : KeyRange Key

/-- The part of `SetupOtherInputs` that tries to grow the inputs of the first level
without changing the number of files of the second. -/
def Inputs.expand (options : Options) (version : Version Key) (level : Nat)
    (all : KeyRange Key) (inputs : Inputs Key) : Inputs Key :=
  let expanded0 := version.closedInputs level all
  if inputs.inputs1 ≠ [] ∧ inputs.inputs0.length < expanded0.length ∧
      totalFileSize inputs.inputs1 + totalFileSize expanded0 <
        options.expandedCompactionByteSizeLimit then
    match getRange expanded0 with
    | none => inputs
    | some newRange =>
        let expanded1 := version.closedInputs (level + 1) newRange
        if expanded1.length = inputs.inputs1.length then ⟨expanded0, expanded1, newRange⟩
        else inputs
  else inputs

/-- `SetupOtherInputs`, for inputs of the first level that are not empty. -/
def setupOtherInputs (options : Options) (version : Version Key) (level : Nat)
    (inputs : List (FileMetaData Key)) : Option (Compaction Key) :=
  let inputs0 := addBoundaryInputs (version.files level) inputs
  (getRange inputs0).bind fun range =>
    let inputs1 := version.closedInputs (level + 1) range
    (getRange (inputs0 ++ inputs1)).bind fun all =>
      let chosen := Inputs.expand options version level all ⟨inputs0, inputs1, range⟩
      (getRange (chosen.inputs0 ++ chosen.inputs1)).map fun whole =>
        { level := level
          inputVersion := version
          inputs0 := chosen.inputs0
          inputs1 := chosen.inputs1
          grandparents :=
            if level + 2 < kNumLevels then
              version.getOverlappingInputs (level + 2) (some whole.smallest) (some whole.largest)
            else []
          edit := VersionEdit.empty.setCompactPointer level chosen.range.largest }

/-- What makes `PickCompaction` start: the level with too much data, or the file that
was sought too often. -/
inductive Trigger (Key : Type) [LinearOrder Key] where
  | size (level : Nat)
  | seek (level : Nat) (file : FileMetaData Key)

/-- The file with which a size compaction begins: the first after the compaction
pointer of the level, or else the first. -/
def pickFile (compactPointer : Option (InternalKey Key)) (files : List (FileMetaData Key)) :
    Option (FileMetaData Key) :=
  (files.find? fun file => compactPointer.all fun pointer => decide (pointer < file.largest)).or
    files.head?

/-- `PickCompaction` for a trigger. The source asserts the level, and does not look the file of a
seek up; the triggers of a version pass both tests. -/
def pickCompaction (options : Options) (version : Version Key)
    (compactPointer : Nat → Option (InternalKey Key)) (trigger : Trigger Key) :
    Option (Compaction Key) :=
  let picked := match trigger with
    | .size level => (pickFile (compactPointer level) (version.files level)).map (level, ·)
    | .seek level file => if file ∈ version.files level then some (level, file) else none
  picked.bind fun (level, file) =>
    if level + 1 < kNumLevels then
      setupOtherInputs options version level
        (if level = 0 then
          version.getOverlappingInputs 0 (some file.smallest) (some file.largest)
        else [file])
    else none

/-- The loop of `CompactRange` that cuts the inputs once they reach a limit. -/
def limitInputs (limit : Nat) (total : Nat) : List (FileMetaData Key) → List (FileMetaData Key)
  | [] => []
  | file :: rest =>
      if limit ≤ total + file.fileSize then [file]
      else file :: limitInputs limit (total + file.fileSize) rest

def compactRange (options : Options) (version : Version Key) (level : Nat)
    (begin finish : Option (InternalKey Key)) : Option (Compaction Key) :=
  let inputs := version.getOverlappingInputs level begin finish
  if inputs = [] ∨ kNumLevels ≤ level + 1 then none
  else setupOtherInputs options version level
    (if 0 < level then limitInputs options.maxFileSizeForLevel 0 inputs else inputs)

def Compaction.isTrivialMove (options : Options) (compaction : Compaction Key) : Bool :=
  decide (compaction.inputs0.length = 1) && decide (compaction.inputs1.length = 0) &&
    decide (totalFileSize compaction.grandparents ≤ options.maxGrandParentOverlapBytes)

def Compaction.addInputDeletions (compaction : Compaction Key) (edit : VersionEdit Key) :
    VersionEdit Key :=
  let first := compaction.inputs0.foldl
    (fun edit file => edit.removeFile compaction.level file.number) edit
  compaction.inputs1.foldl
    (fun edit file => edit.removeFile (compaction.level + 1) file.number) first

end CodeReading.Leveldb
