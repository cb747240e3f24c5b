import CodeReading.Leveldb.Compaction

/-!
# The work of a compaction

`DoCompactionWork` merges the inputs in key order and writes what it keeps to new
tables of the next level. An entry is dropped when a newer entry of its user key is
visible to every snapshot, or when it is a deletion that every snapshot sees and no
deeper level has its user key. The second test walks a cursor over every deeper level,
which only moves forward; the source keeps an index, the model the files from it on.

One turn of the loop handles one entry, so that other threads can act in between. The
sizes that the table builder reports are parameters.
-/

namespace CodeReading.Leveldb

variable {Key Value : Type} [LinearOrder Key]

/-- The sizes a table builder reports for the items added to it. -/
structure TableFormat (Key Value : Type) where
  /-- `TableBuilder::FileSize` while the table is being built. -/
  sizeSoFar : List (Item Key Value) → Nat
  /-- `TableBuilder::FileSize` after `Finish`. -/
  fileSize : List (Item Key Value) → Nat

/-- The metadata of a table built from items. Nothing is written for no items. The
items come in increasing order, so the first key is not above the last. -/
def tableMetaData (format : TableFormat Key Value) (number : Nat) (items : List (Item Key Value)) :
    Option (FileMetaData Key) :=
  match items.head?, items.getLast? with
  | some first, some last =>
      if ordered : first.key ≤ last.key then
        some ⟨number, format.fileSize items, first.key, last.key, ordered⟩
      else none
  | _, _ => none

/-- Two children of `NewMergingIterator`: the smaller item comes first, and the first
child among equals. -/
def mergeItems : List (Item Key Value) → List (Item Key Value) → List (Item Key Value)
  | [], right => right
  | left, [] => left
  | first :: left, second :: right =>
      if first.key ≤ second.key then first :: mergeItems left (second :: right)
      else second :: mergeItems (first :: left) right
termination_by left right => left.length + right.length

/-- `MakeInputIterator`: the files of level 0 are merged one by one, those of a deeper
level are read one after the other. Every table has to be there. -/
def makeInputIterator (tables : Nat → Option (List (Item Key Value)))
    (compaction : Compaction Key) : Option (List (Item Key Value)) :=
  (compaction.inputs0.mapM fun file => tables file.number).bind fun first =>
    (compaction.inputs1.mapM fun file => tables file.number).map fun second =>
      ((if compaction.level = 0 then first else [first.flatten]) ++ [second.flatten]).foldr
        mergeItems []

/-- The cursor over one deeper level: files that end before the user key are passed. -/
def advance (userKey : Key) (files : List (FileMetaData Key)) : List (FileMetaData Key) :=
  files.dropWhile fun file => decide (file.largest.userKey < userKey)

/-- The loop of `IsBaseLevelForKey` over the deeper levels. It leaves at the first level
with a file that holds the user key, before the cursors of the others have moved. -/
def baseLevelLoop (userKey : Key) : List Nat → (Nat → List (FileMetaData Key)) →
    Bool × (Nat → List (FileMetaData Key))
  | [], levelPtrs => (true, levelPtrs)
  | level :: rest, levelPtrs =>
      let moved := Function.update levelPtrs level (advance userKey (levelPtrs level))
      if (advance userKey (levelPtrs level)).head?.any
          fun file => decide (file.smallest.userKey ≤ userKey) then (false, moved)
      else baseLevelLoop userKey rest moved

/-- The levels that `IsBaseLevelForKey` looks at. -/
def Compaction.deeperLevels (compaction : Compaction Key) : List Nat :=
  List.range' (compaction.level + 2) (kNumLevels - (compaction.level + 2))

/-- What the drop rules remember between entries. -/
structure DropState (Key : Type) [LinearOrder Key] where
  currentUserKey : Option Key
  lastSequenceForKey : Nat
  levelPtrs : Nat → List (FileMetaData Key)

/-- The sequence number of the entry before, if that had the same user key. -/
def DropState.lastSequence (state : DropState Key) (userKey : Key) : Nat :=
  if state.currentUserKey = some userKey then state.lastSequenceForKey else kMaxSequenceNumber

/-- The drop rules for one entry. -/
def dropTurn (compaction : Compaction Key) (smallestSnapshot : Nat) (state : DropState Key)
    (key : InternalKey Key) : Bool × DropState Key :=
  if state.lastSequence key.userKey ≤ smallestSnapshot then
    (true, ⟨some key.userKey, key.sequence, state.levelPtrs⟩)
  else if key.type = .deletion ∧ key.sequence ≤ smallestSnapshot then
    let (isBase, levelPtrs) := baseLevelLoop key.userKey compaction.deeperLevels state.levelPtrs
    (isBase, ⟨some key.userKey, key.sequence, levelPtrs⟩)
  else (false, ⟨some key.userKey, key.sequence, state.levelPtrs⟩)

/-- An output table: its number and the items written to it. -/
structure Output (Key Value : Type) where
  number : Nat
  items : List (Item Key Value)

/-- `CompactionState` and the locals of the loop. The grandparents are those from
`grandparent_index_` on. -/
structure Work (Key Value : Type) [LinearOrder Key] where
  drops : DropState Key
  grandparents : List (FileMetaData Key)
  seenKey : Bool
  overlappedBytes : Nat
  builder : Option (Output Key Value)
  outputs : List (Output Key Value)
  nextFileNumber : Nat

def Work.start (compaction : Compaction Key) (nextFileNumber : Nat) : Work Key Value :=
  { drops := ⟨none, kMaxSequenceNumber, compaction.inputVersion.files⟩
    grandparents := compaction.grandparents
    seenKey := false
    overlappedBytes := 0
    builder := none
    outputs := []
    nextFileNumber := nextFileNumber }

/-- `FinishCompactionOutputFile`, if an output is open. -/
def Work.finishOutput (work : Work Key Value) : Work Key Value :=
  { work with builder := none, outputs := work.outputs ++ work.builder.toList }

def Work.allOutputs (work : Work Key Value) : List (Output Key Value) :=
  work.outputs ++ work.builder.toList

def Work.shouldStopBefore (options : Options) (work : Work Key Value) (key : InternalKey Key) :
    Bool × Work Key Value :=
  let passed := work.grandparents.takeWhile fun file => decide (file.largest < key)
  let overlappedBytes := work.overlappedBytes + if work.seenKey then totalFileSize passed else 0
  let stop := decide (options.maxGrandParentOverlapBytes < overlappedBytes)
  (stop, { work with
      grandparents := work.grandparents.dropWhile fun file => decide (file.largest < key)
      seenKey := true
      overlappedBytes := if stop then 0 else overlappedBytes })

/-- `OpenCompactionOutputFile` if necessary, and `TableBuilder::Add`. -/
def Work.addItem (work : Work Key Value) (item : Item Key Value) : Work Key Value :=
  match work.builder with
  | some output => { work with builder := some ⟨output.number, output.items ++ [item]⟩ }
  | none =>
      { work with
        builder := some ⟨work.nextFileNumber, [item]⟩
        nextFileNumber := work.nextFileNumber + 1 }

section

variable (options : Options) (format : TableFormat Key Value)

/-- Close the output file if it is big enough. -/
def Work.closeBigOutput (work : Work Key Value) : Work Key Value :=
  if work.builder.any fun output =>
      decide (options.maxFileSizeForLevel ≤ format.sizeSoFar output.items) then work.finishOutput
  else work

/-- One turn of the loop of `DoCompactionWork`. -/
def Work.turn (compaction : Compaction Key) (smallestSnapshot : Nat) (work : Work Key Value)
    (item : Item Key Value) : Work Key Value :=
  let (stop, work) := work.shouldStopBefore options item.key
  let work := if stop then work.finishOutput else work
  let (drop, drops) := dropTurn compaction smallestSnapshot work.drops item.key
  let work := { work with drops := drops }
  if drop then work else (work.addItem item).closeBigOutput options format

/-- The loop of `DoCompactionWork` and the output left open at its end. -/
def doCompactionWork (compaction : Compaction Key) (smallestSnapshot nextFileNumber : Nat)
    (input : List (Item Key Value)) : Work Key Value :=
  (input.foldl (Work.turn options format compaction smallestSnapshot)
    (Work.start compaction nextFileNumber)).finishOutput

end

def Work.outputFiles (format : TableFormat Key Value) (work : Work Key Value) :
    List (FileMetaData Key) :=
  work.outputs.filterMap fun output => tableMetaData format output.number output.items

/-- The edit of `InstallCompactionResults`: the inputs go, the outputs come. -/
def installEdit (format : TableFormat Key Value) (compaction : Compaction Key)
    (work : Work Key Value) : VersionEdit Key :=
  (work.outputFiles format).foldl (fun edit file => edit.addFile (compaction.level + 1) file)
    (compaction.addInputDeletions compaction.edit)

end CodeReading.Leveldb
