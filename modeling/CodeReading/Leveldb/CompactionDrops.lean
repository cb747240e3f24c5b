import CodeReading.Leveldb.CompactionWork

/-!
# Which entries a compaction drops

`kept` follows the drop rules alone through the entries of a compaction. Two facts
describe it on sorted entries. An entry is dropped only when a newer one of its user
key is old enough for every snapshot, or when it is such a deletion itself and no
deeper level has its user key. And once an entry old enough for every snapshot has
been seen, all older entries of its user key are dropped.
-/

namespace CodeReading.Leveldb

open List

variable {Key Value : Type} [LinearOrder Key]

/-- The entries that survive the drop rules. -/
def kept (compaction : Compaction Key) (smallestSnapshot : Nat) :
    DropState Key → List (Item Key Value) → List (Item Key Value)
  | _, [] => []
  | state, item :: rest =>
      (if (dropTurn compaction smallestSnapshot state item.key).1 then [] else [item]) ++
        kept compaction smallestSnapshot
          (dropTurn compaction smallestSnapshot state item.key).2 rest

variable {compaction : Compaction Key} {state : DropState Key}

theorem kept_sublist : (kept compaction smallestSnapshot state items).Sublist items := by
  induction items generalizing state with
  | nil => exact List.Sublist.refl _
  | cons item rest ih =>
    rw [kept]
    split
    · exact (ih).cons item
    · exact (ih).cons_cons item

/-- Every cursor has passed only files with the property. -/
def Cursors (files levelPtrs : Nat → List (FileMetaData Key)) (passable : FileMetaData Key → Prop) :
    Prop :=
  ∀ level, ∃ passed, files level = passed ++ levelPtrs level ∧ ∀ file ∈ passed, passable file

theorem advance_passes (userKey : Key) (files : List (FileMetaData Key)) :
    ∃ passed, files = passed ++ advance userKey files ∧
      ∀ file ∈ passed, file.largest.userKey < userKey := by
  refine ⟨files.takeWhile fun file => decide (file.largest.userKey < userKey), ?_, ?_⟩
  · exact takeWhile_append_dropWhile.symm
  · intro file mem
    exact of_decide_eq_true (all_eq_true.mp all_takeWhile file mem)

variable {files levelPtrs : Nat → List (FileMetaData Key)} {userKey : Key}
  {passable : FileMetaData Key → Prop}

section

variable (cursors : Cursors files levelPtrs passable)
  (allowed : ∀ file, file.largest.userKey < userKey → passable file)
include cursors allowed

theorem cursors_advance (level : Nat) :
    Cursors files (Function.update levelPtrs level (advance userKey (levelPtrs level)))
      passable := by
  intro other
  obtain ⟨passed, split, fine⟩ := cursors other
  by_cases same : other = level
  · subst same
    obtain ⟨more, further, ended⟩ := advance_passes userKey (levelPtrs other)
    refine ⟨passed ++ more, ?_, ?_⟩
    · rw [Function.update_self, append_assoc, ← further]
      exact split
    · intro file mem
      exact (mem_append.mp mem).elim (fine file) fun late => allowed file (ended file late)
  · exact ⟨passed, by rw [Function.update_of_ne same]; exact split, fine⟩

theorem baseLevelLoop_cursors (levels : List Nat) :
    Cursors files (baseLevelLoop userKey levels levelPtrs).2 passable := by
  induction levels generalizing levelPtrs with
  | nil => exact cursors
  | cons level rest ih =>
    have moved := cursors_advance cursors allowed level
    rw [baseLevelLoop]
    split
    · exact moved
    · exact ih moved

end

/-- A level whose cursor stands before all files that could hold the user key, and
whose next file does not, has no file that does. -/
theorem cursor_apart {files : List (FileMetaData Key)} (ascending : Ascending files)
    (split : files = passed ++ rest)
    (before : ∀ file ∈ passed, file.largest.userKey < userKey)
    (miss : (advance userKey rest).head?.any (fun file => decide (file.smallest.userKey ≤ userKey))
      = false) : ∀ file ∈ files, Apart userKey userKey file := by
  intro file mem
  subst split
  obtain ⟨_, further, ended⟩ := advance_passes userKey rest
  rcases mem_append.mp mem with early | late
  · exact .inl (before file early)
  · rw [further] at late
    rcases mem_append.mp late with passedToo | ahead
    · exact .inl (ended file passedToo)
    · cases next : advance userKey rest with
      | nil =>
        rw [next] at ahead
        cases ahead
      | cons head tail =>
        rw [next] at ahead miss
        simp only [head?_cons, Option.any_some, decide_eq_false_iff_not, not_le] at miss
        rcases mem_cons.mp ahead with rfl | later
        · exact .inr miss
        · have sorted := (pairwise_append.mp ascending).2.1
          rw [further, next] at sorted
          have beyond := (pairwise_cons.mp (pairwise_append.mp sorted).2.1).1 file later
          exact .inr (miss.trans_le (userKey_mono (head.ordered.trans beyond.le)))

/-- `IsBaseLevelForKey` is right when it says yes: no file of the levels holds the user
key. -/
theorem baseLevelLoop_apart {levels : List Nat}
    (ascending : ∀ level ∈ levels, Ascending (files level))
    (cursors : Cursors files levelPtrs fun file => file.largest.userKey < userKey)
    (isBase : (baseLevelLoop userKey levels levelPtrs).1 = true) :
    ∀ level ∈ levels, ∀ file ∈ files level, Apart userKey userKey file := by
  induction levels generalizing levelPtrs with
  | nil =>
    intro level mem
    cases mem
  | cons level rest ih =>
    rw [baseLevelLoop] at isBase
    split at isBase
    · cases isBase
    · rename_i miss
      intro other mem
      rcases mem_cons.mp mem with rfl | later
      · obtain ⟨_, split, before⟩ := cursors other
        exact cursor_apart (ascending other (.head _)) split before
          (Bool.eq_false_iff.mpr miss)
      · apply ih (fun level inside => ascending level (.tail _ inside))
          (cursors_advance cursors (fun _ less => less) level) isBase other later

/-- The state of the drop rules after the entries seen so far. -/
structure Tracks (compaction : Compaction Key) (seen : List (Item Key Value))
    (state : DropState Key) : Prop where
  user : state.currentUserKey = seen.getLast?.map fun item => item.key.userKey
  sequence : ∀ item ∈ seen.getLast?, state.lastSequenceForKey = item.key.sequence
  cursors : Cursors compaction.inputVersion.files state.levelPtrs fun file =>
    ∃ item ∈ seen, file.largest.userKey < item.key.userKey

theorem tracks_start (compaction : Compaction Key) :
    Tracks compaction ([] : List (Item Key Value))
      ⟨none, kMaxSequenceNumber, compaction.inputVersion.files⟩ := by
  constructor
  · rfl
  · intro _ last
    cases last
  · intro _
    exact ⟨[], rfl, fun file mem => by cases mem⟩

theorem dropTurn_tracks (tracks : Tracks compaction seen state)
    (smallestSnapshot : Nat) (item : Item Key Value) :
    Tracks compaction (seen ++ [item]) (dropTurn compaction smallestSnapshot state item.key).2 := by
  have kept : Cursors compaction.inputVersion.files state.levelPtrs fun file =>
      ∃ other ∈ seen ++ [item], file.largest.userKey < other.key.userKey := by
    intro level
    obtain ⟨passed, split, fine⟩ := tracks.cursors level
    refine ⟨passed, split, ?_⟩
    intro file mem
    obtain ⟨other, inside, less⟩ := fine file mem
    exact ⟨other, mem_append_left _ inside, less⟩
  have allowed : ∀ file : FileMetaData Key, file.largest.userKey < item.key.userKey →
      ∃ other ∈ seen ++ [item], file.largest.userKey < other.key.userKey := fun file less =>
    ⟨item, mem_append_right _ (.head _), less⟩
  have moved := baseLevelLoop_cursors kept allowed compaction.deeperLevels
  have last : (seen ++ [item]).getLast? = some item := getLast?_concat
  constructor
  · rw [last, dropTurn]
    split
    · rfl
    · split <;> rfl
  · rw [last]
    rintro _ ⟨⟩
    rw [dropTurn]
    split
    · rfl
    · split <;> rfl
  · rw [dropTurn]
    split
    · exact kept
    · split
      · exact moved
      · exact kept

section

variable {compaction : Compaction Key} {seen rest : List (Item Key Value)} {state : DropState Key}
  {item : Item Key Value}

/-- In sorted entries, an entry below one of the rest has been seen before it. -/
theorem seen_before (sorted : Sorted (seen ++ item :: rest))
    (mem : other ∈ seen ++ item :: rest) (less : other.key < item.key) : other ∈ seen := by
  rcases mem_append.mp mem with early | late
  · exact early
  · exfalso
    rcases mem_cons.mp late with rfl | later
    · exact lt_irrefl _ less
    · have beyond := (pairwise_cons.mp (pairwise_append.mp sorted).2.1).1 other later
      exact lt_asymm less beyond

/-- No deeper level has the user key. -/
def BaseLevel (compaction : Compaction Key) (userKey : Key) : Prop :=
  ∀ level ∈ compaction.deeperLevels, ∀ file ∈ compaction.inputVersion.files level,
    Apart userKey userKey file

section

variable (sorted : Sorted (seen ++ item :: rest)) (tracks : Tracks compaction seen state)
  (bounded : smallestSnapshot < kMaxSequenceNumber)
include sorted tracks bounded

/-- The sequence number remembered for an entry is old enough exactly when an entry of
its user key was seen that is. -/
theorem lastSequence_le : state.lastSequence item.key.userKey ≤ smallestSnapshot ↔
      ∃ newer ∈ seen, newer.key.userKey = item.key.userKey ∧
        newer.key.sequence ≤ smallestSnapshot := by
  rw [DropState.lastSequence, tracks.user]
  cases last : seen.getLast? with
  | none =>
    obtain rfl := getLast?_eq_none_iff.mp last
    simp only [Option.map_none, reduceCtorEq, if_false, not_mem_nil, false_and, exists_false,
      iff_false, not_le]
    exact bounded
  | some before =>
    obtain ⟨front, rfl⟩ := getLast?_eq_some_iff.mp last
    have remembered := tracks.sequence before last
    have inside : before ∈ front ++ [before] := mem_append_right _ (.head _)
    have order := pairwise_append.mp sorted
    have below : before.key < item.key := order.2.2 before inside item (.head _)
    simp only [Option.map_some, Option.some.injEq]
    constructor
    · intro old
      by_cases same : before.key.userKey = item.key.userKey
      · rw [if_pos same, remembered] at old
        exact ⟨before, inside, same, old⟩
      · rw [if_neg same] at old
        exact absurd old (not_le.mpr bounded)
    · rintro ⟨newer, mem, same, old⟩
      -- the entry just before lies between the newer one and this one
      have between : newer.key ≤ before.key := by
        rcases mem_append.mp mem with early | only
        · exact ((pairwise_append.mp order.1).2.2 newer early before (.head _)).le
        · rw [mem_singleton.mp only]
      have sameUser : before.key.userKey = item.key.userKey := by
        apply le_antisymm (userKey_mono below.le)
        rw [← same]
        exact userKey_mono between
      rw [if_pos sameUser, remembered]
      exact (sequence_anti between (same.trans sameUser.symm)).trans old

theorem dropTurn_drops
    (ascend : ∀ level ∈ compaction.deeperLevels, Ascending (compaction.inputVersion.files level))
    (dropped : (dropTurn compaction smallestSnapshot state item.key).1 = true) :
    (∃ newer ∈ seen, newer.key.userKey = item.key.userKey ∧
        newer.key.sequence ≤ smallestSnapshot) ∨
      item.key.type = .deletion ∧ item.key.sequence ≤ smallestSnapshot ∧
        BaseLevel compaction item.key.userKey := by
  rw [dropTurn] at dropped
  split at dropped
  · rename_i old
    exact .inl ((lastSequence_le sorted tracks bounded).mp old)
  · split at dropped
    · rename_i deletion
      refine .inr ⟨deletion.1, deletion.2, ?_⟩
      apply baseLevelLoop_apart ascend _ dropped
      intro level
      obtain ⟨passed, split, fine⟩ := tracks.cursors level
      refine ⟨passed, split, ?_⟩
      intro file mem
      obtain ⟨other, inside, less⟩ := fine file mem
      have below := (pairwise_append.mp sorted).2.2 other inside item (.head _)
      exact less.trans_le (userKey_mono below.le)
    · cases dropped

end

section

variable (tracks : Tracks compaction seen state) (sorted : Sorted (seen ++ rest))
  (bounded : smallestSnapshot < kMaxSequenceNumber)
include tracks sorted bounded

/-- An entry is dropped only for one of the two reasons. -/
theorem kept_dropped
    (ascend : ∀ level ∈ compaction.deeperLevels, Ascending (compaction.inputVersion.files level))
    (mem : item ∈ rest) (dropped : item ∉ kept compaction smallestSnapshot state rest) :
    (∃ newer ∈ seen ++ rest, newer.key.userKey = item.key.userKey ∧ newer.key < item.key ∧
        newer.key.sequence ≤ smallestSnapshot) ∨
      item.key.type = .deletion ∧ item.key.sequence ≤ smallestSnapshot ∧
        BaseLevel compaction item.key.userKey := by
  induction rest generalizing seen state with
  | nil => cases mem
  | cons head tail ih =>
    rw [kept, mem_append, not_or] at dropped
    rcases mem_cons.mp mem with rfl | later
    · have gone : (dropTurn compaction smallestSnapshot state item.key).1 = true := by
        by_contra stays
        rw [if_neg stays] at dropped
        exact dropped.1 (.head _)
      rcases dropTurn_drops sorted tracks bounded ascend gone with ⟨newer, early, same, old⟩ | base
      · have below := (pairwise_append.mp sorted).2.2 newer early item (.head _)
        exact .inl ⟨newer, mem_append_left _ early, same, below, old⟩
      · exact .inr base
    · have next := ih (dropTurn_tracks tracks smallestSnapshot head)
        (by rwa [append_assoc, singleton_append]) later dropped.2
      rwa [append_assoc, singleton_append] at next

/-- Behind an entry that is old enough, the older ones of its user key are dropped. -/
theorem kept_shadowed (mem : item ∈ rest) (present : newer ∈ seen ++ rest)
    (same : newer.key.userKey = item.key.userKey) (less : newer.key < item.key)
    (old : newer.key.sequence ≤ smallestSnapshot) :
    item ∉ kept compaction smallestSnapshot state rest := by
  induction rest generalizing seen state with
  | nil => cases mem
  | cons head tail ih =>
    have follows := pairwise_cons.mp (pairwise_append.mp sorted).2.1
    rw [kept, mem_append, not_or]
    rcases mem_cons.mp mem with rfl | later
    · have early := seen_before sorted present less
      have remembered := (lastSequence_le sorted tracks bounded).mpr ⟨newer, early, same, old⟩
      have gone : (dropTurn compaction smallestSnapshot state item.key).1 = true := by
        rw [dropTurn, if_pos remembered]
      constructor
      · rw [if_pos gone]
        exact not_mem_nil
      · intro again
        have beyond := follows.1 item ((kept_sublist).subset again)
        exact lt_irrefl _ beyond
    · constructor
      · have differs : item ≠ head := fun same => by
          subst same
          exact lt_irrefl _ (follows.1 item later)
        split
        · exact not_mem_nil
        · rwa [mem_singleton]
      · apply ih (dropTurn_tracks tracks smallestSnapshot head) _ later
        · rwa [append_assoc, singleton_append]
        · rwa [append_assoc, singleton_append]

end

end

end CodeReading.Leveldb
