import CodeReading.Leveldb.Version

/-!
# Version edits and the builder that applies them

An edit deletes files from levels and adds files to them. A builder accumulates
edits, level by level: the numbers deleted and, in a set ordered by the smallest key
with the number as a tie-break, the files added. Saving merges the added files with
those of a base version and leaves out what is deleted.

One edit on a version gives exactly the surviving files and the added ones, in the
order of the set. Many edits accumulated over the empty version, as recovery does it,
give the same files.
-/

namespace CodeReading.Leveldb

open List

variable {Key : Type} [LinearOrder Key]

/-- `VersionEdit`. A field that was not set is `none`. -/
structure VersionEdit (Key : Type) [LinearOrder Key] where
  comparator : Option String
  logNumber : Option Nat
  prevLogNumber : Option Nat
  nextFileNumber : Option Nat
  lastSequence : Option Nat
  compactPointers : List (Nat × InternalKey Key)
  deletedFiles : List (Nat × Nat)
  newFiles : List (Nat × FileMetaData Key)
deriving DecidableEq

/-- `VersionEdit::Clear`. -/
def VersionEdit.empty : VersionEdit Key := ⟨none, none, none, none, none, [], [], []⟩

section

variable (edit : VersionEdit Key) (level : Nat)

def VersionEdit.addFile (file : FileMetaData Key) : VersionEdit Key :=
  { edit with newFiles := edit.newFiles ++ [(level, file)] }

def VersionEdit.removeFile (number : Nat) : VersionEdit Key :=
  { edit with deletedFiles := edit.deletedFiles ++ [(level, number)] }

def VersionEdit.setCompactPointer (key : InternalKey Key) : VersionEdit Key :=
  { edit with compactPointers := edit.compactPointers ++ [(level, key)] }

def VersionEdit.deletedAt : List Nat :=
  edit.deletedFiles.filterMap fun (at_, number) => if at_ = level then some number else none

def VersionEdit.addedAt : List (FileMetaData Key) :=
  edit.newFiles.filterMap fun (at_, file) => if at_ = level then some file else none

end

theorem addedAt_target {edit : VersionEdit Key}
    (shape : edit.newFiles = files.map fun file => (target, file)) (level : Nat) :
    edit.addedAt level = if level = target then files else [] := by
  simp only [VersionEdit.addedAt, shape, filterMap_map]
  by_cases same : level = target
  · subst same
    simp
  · simp [same, Ne.symm same]

def bySmallestKey (left right : FileMetaData Key) : Prop :=
  left.smallest < right.smallest ∨ left.smallest = right.smallest ∧ left.number < right.number

instance (left right : FileMetaData Key) : Decidable (bySmallestKey left right) :=
  inferInstanceAs (Decidable (_ ∨ _))

/-- The position of a file in that order. -/
def FileMetaData.position (file : FileMetaData Key) : InternalKey Key ×ₗ ℕ :=
  toLex (file.smallest, file.number)

theorem bySmallestKey_iff (left right : FileMetaData Key) :
    bySmallestKey left right ↔ left.position < right.position := by
  rw [FileMetaData.position, FileMetaData.position, Prod.Lex.toLex_lt_toLex]
  rfl

theorem position_number {left right : FileMetaData Key} (same : left.position = right.position) :
    left.number = right.number :=
  congrArg Prod.snd (toLex.injective same)

/-- Files in the order of `BySmallestKey`, without repetition. -/
def ByPosition (files : List (FileMetaData Key)) : Prop :=
  files.Pairwise fun left right => left.position < right.position

/-- `FileSet::insert`: nothing happens when an equivalent file is there. -/
def fileSetInsert (file : FileMetaData Key) (files : List (FileMetaData Key)) :
    List (FileMetaData Key) :=
  if files.any fun other => decide (other.position = file.position) then files
  else files.orderedInsert (fun left right => left.position ≤ right.position) file

structure LevelState (Key : Type) [LinearOrder Key] where
  deletedFiles : List Nat
  addedFiles : List (FileMetaData Key)

open LevelState

abbrev Builder (Key : Type) [LinearOrder Key] := Nat → LevelState Key

def Builder.empty : Builder Key := fun _ => ⟨[], []⟩

/-- An added file is no longer deleted. -/
def LevelState.add (state : LevelState Key) (file : FileMetaData Key) : LevelState Key :=
  ⟨state.deletedFiles.filter fun number => decide (number ≠ file.number),
    fileSetInsert file state.addedFiles⟩

/-- What `Builder::Apply` does at one level: first the deletions, then the new files. -/
def LevelState.apply (state : LevelState Key) (deleted : List Nat)
    (added : List (FileMetaData Key)) : LevelState Key :=
  added.foldl LevelState.add ⟨state.deletedFiles ++ deleted, state.addedFiles⟩

/-- `Builder::Apply`, except for the compaction pointers. -/
def Builder.apply (builder : Builder Key) (edit : VersionEdit Key) : Builder Key := fun level =>
  (builder level).apply (edit.deletedAt level) (edit.addedAt level)

/-- The test of `Builder::MaybeAddFile`. -/
def maybeAddFile (deleted : List Nat) (file : FileMetaData Key) : Bool :=
  decide (file.number ∉ deleted)

/-- One level of `Builder::SaveTo`: before every added file go the base files that are
not greater, up to `upper_bound`. -/
def saveLevel (deleted : List Nat) :
    List (FileMetaData Key) → List (FileMetaData Key) → List (FileMetaData Key)
  | [], base => base.filter (maybeAddFile deleted)
  | file :: added, base =>
      (base.takeWhile fun other => decide (¬ bySmallestKey file other)).filter
          (maybeAddFile deleted) ++
        ([file].filter (maybeAddFile deleted) ++
          saveLevel deleted added
            (base.dropWhile fun other => decide (¬ bySmallestKey file other)))

def Builder.saveTo (builder : Builder Key) (base : Version Key) : Version Key :=
  ⟨fun level => saveLevel (builder level).deletedFiles (builder level).addedFiles
    (base.files level)⟩

/-- One edit on a version, as `LogAndApply` does it. -/
def Version.applyEdit (version : Version Key) (edit : VersionEdit Key) : Version Key :=
  (Builder.empty.apply edit).saveTo version

/-- All edits of a manifest over the empty version, as `Recover` does it. -/
def replay (edits : List (VersionEdit Key)) : Builder Key :=
  edits.foldl Builder.apply Builder.empty

section

variable {file other : FileMetaData Key} {files : List (FileMetaData Key)}

theorem fileSetInsert_mem (mem : other ∈ fileSetInsert file files) :
    other = file ∨ other ∈ files := by
  rw [fileSetInsert] at mem
  split at mem
  · exact .inr mem
  · exact mem_cons.mp ((perm_orderedInsert _ _ _).mem_iff.mp mem)

theorem fileSetInsert_keeps (mem : other ∈ files) : other ∈ fileSetInsert file files := by
  rw [fileSetInsert]
  split
  · exact mem
  · exact (perm_orderedInsert _ _ _).mem_iff.mpr (.tail _ mem)

theorem fileSetInsert_self (fresh : ∀ other ∈ files, other.position ≠ file.position) :
    file ∈ fileSetInsert file files := by
  rw [fileSetInsert, if_neg]
  · exact (perm_orderedInsert _ _ _).mem_iff.mpr (.head _)
  · intro present
    obtain ⟨other, mem, same⟩ := any_eq_true.mp present
    exact fresh other mem (of_decide_eq_true same)

theorem fileSetInsert_ordered (file : FileMetaData Key) (ordered : ByPosition files) :
    ByPosition (fileSetInsert file files) := by
  rw [fileSetInsert]
  split
  · exact ordered
  · rename_i missing
    have weakly := List.Pairwise.orderedInsert
      (r := fun left right : FileMetaData Key => left.position ≤ right.position) file files
      (ordered.imp fun less => less.le)
    have apart : (files.orderedInsert (fun left right => left.position ≤ right.position)
        file).Pairwise fun left right => left.position ≠ right.position := by
      refine (perm_orderedInsert _ file files).symm.pairwise ?_ fun differ => differ.symm
      refine pairwise_cons.mpr ⟨?_, ordered.imp fun less => less.ne⟩
      intro other mem same
      exact missing (any_eq_true.mpr ⟨other, mem, decide_eq_true same.symm⟩)
    exact (weakly.and apart).imp fun both => lt_of_le_of_ne both.1 both.2

section

variable (added : List (FileMetaData Key)) (state : LevelState Key)

theorem foldl_add_ordered (ordered : ByPosition state.addedFiles) :
    ByPosition (added.foldl add state).addedFiles := by
  induction added generalizing state with
  | nil => exact ordered
  | cons file rest ih => exact ih (state.add file) (fileSetInsert_ordered file ordered)

theorem foldl_add_deleted (number : Nat) :
    number ∈ (added.foldl add state).deletedFiles ↔
      number ∈ state.deletedFiles ∧ ∀ file ∈ added, file.number ≠ number := by
  induction added generalizing state with
  | nil => simp
  | cons file rest ih =>
    rw [foldl_cons, ih]
    simp only [add, mem_filter, decide_eq_true_eq, forall_mem_cons]
    constructor
    · rintro ⟨⟨mem, differs⟩, others⟩
      exact ⟨mem, differs.symm, others⟩
    · rintro ⟨mem, differs, others⟩
      exact ⟨⟨mem, differs.symm⟩, others⟩

def DistinctNumbers (files : List (FileMetaData Key)) : Prop :=
  files.Pairwise fun left right => left.number ≠ right.number

/-- A list in strict order is determined by its members. -/
theorem pairwise_unique {α : Type} {before : α → α → Prop}
    (asymmetric : ∀ first second, before first second → ¬ before second first) {left right : List α}
    (leftOrdered : left.Pairwise before) (rightOrdered : right.Pairwise before)
    (same : ∀ value, value ∈ left ↔ value ∈ right) : left = right := by
  have nodup : ∀ {values : List α}, values.Pairwise before → values.Nodup := by
    intro values ordered
    refine ordered.imp ?_
    rintro first _ earlier rfl
    exact asymmetric first first earlier earlier
  have perm : left.Perm right :=
    (perm_ext_iff_of_nodup (nodup leftOrdered) (nodup rightOrdered)).mpr same
  exact perm.eq_of_pairwise (fun _ _ _ _ one two => absurd two (asymmetric _ _ one)) leftOrdered
    rightOrdered

theorem distinctNumbers_eq (distinct : DistinctNumbers files) (mem : file ∈ files)
    (inside : other ∈ files) (same : file.number = other.number) : file = other := by
  have symmetric : Std.Symm fun left right : FileMetaData Key => left.number ≠ right.number :=
    ⟨fun _ _ differ => differ.symm⟩
  by_contra differ
  exact List.Pairwise.forall distinct mem inside differ same

theorem foldl_add_positions
    (distinct : added.Pairwise fun left right => left.position ≠ right.position)
    (fresh : ∀ file ∈ added, ∀ other ∈ state.addedFiles, other.position ≠ file.position)
    (file : FileMetaData Key) : file ∈ (added.foldl add state).addedFiles ↔
      file ∈ state.addedFiles ∨ file ∈ added := by
  induction added generalizing state with
  | nil => simp
  | cons head rest ih =>
    obtain ⟨headDiffers, restDistinct⟩ := pairwise_cons.mp distinct
    rw [foldl_cons, ih (state.add head) restDistinct]
    · rw [mem_cons]
      constructor
      · rintro (inserted | later)
        · rcases fileSetInsert_mem inserted with same | old
          · exact .inr (.inl same)
          · exact .inl old
        · exact .inr (.inr later)
      · rintro (old | rfl | later)
        · exact .inl (fileSetInsert_keeps old)
        · exact .inl (fileSetInsert_self (fresh file (.head _)))
        · exact .inr later
    · intro file mem other inserted
      rcases fileSetInsert_mem inserted with rfl | old
      · exact headDiffers file mem
      · exact fresh file (.tail _ mem) other old

theorem foldl_add_added (distinct : DistinctNumbers added)
    (fresh : ∀ file ∈ added, ∀ other ∈ state.addedFiles, other.number ≠ file.number)
    (file : FileMetaData Key) : file ∈ (added.foldl add state).addedFiles ↔
      file ∈ state.addedFiles ∨ file ∈ added := by
  apply foldl_add_positions
  · exact distinct.imp fun differ same => differ (position_number same)
  · intro new mem other inside same
    exact fresh new mem other inside (position_number same)

end

section

variable (state : LevelState Key) (deleted : List Nat) (added : List (FileMetaData Key))

theorem apply_deleted (number : Nat) : number ∈ (state.apply deleted added).deletedFiles ↔
      (number ∈ state.deletedFiles ∨ number ∈ deleted) ∧ ∀ file ∈ added, file.number ≠ number := by
  rw [apply, foldl_add_deleted, mem_append]

theorem apply_added (distinct : DistinctNumbers added)
    (fresh : ∀ file ∈ added, ∀ other ∈ state.addedFiles, other.number ≠ file.number)
    (file : FileMetaData Key) :
    file ∈ (state.apply deleted added).addedFiles ↔ file ∈ state.addedFiles ∨ file ∈ added :=
  foldl_add_added added ⟨state.deletedFiles ++ deleted, state.addedFiles⟩ distinct fresh file

end

/-- Saving loses nothing but the deleted files. -/
theorem saveLevel_perm (deleted : List Nat) (added base : List (FileMetaData Key)) :
    (saveLevel deleted added base).Perm ((base ++ added).filter (maybeAddFile deleted)) := by
  induction added generalizing base with
  | nil => simp [saveLevel]
  | cons file rest ih =>
    rw [saveLevel]
    generalize (fun other => decide (¬ bySmallestKey file other)) = within
    have whole : base = base.takeWhile within ++ base.dropWhile within :=
      takeWhile_append_dropWhile.symm
    generalize base.takeWhile within = early at *
    generalize base.dropWhile within = late at *
    subst whole
    refine (((ih late).append_left _).append_left _).trans ?_
    rw [← filter_append, ← filter_append]
    apply List.Perm.filter
    rw [append_assoc, singleton_append]
    exact List.Perm.append_left early perm_middle.symm

theorem saveLevel_mem (deleted : List Nat) (added base : List (FileMetaData Key))
    (file : FileMetaData Key) :
    file ∈ saveLevel deleted added base ↔
      (file ∈ base ∨ file ∈ added) ∧ file.number ∉ deleted := by
  rw [(saveLevel_perm deleted added base).mem_iff, mem_filter, mem_append, maybeAddFile,
    decide_eq_true_eq]

variable {base : List (FileMetaData Key)}

/-- `upper_bound` splits an ordered base at the file. -/
theorem upperBound_greater (file : FileMetaData Key) (ordered : ByPosition base)
    (late : other ∈ base.dropWhile fun other => decide (¬ bySmallestKey file other)) :
    file.position < other.position := by
  induction base with
  | nil => cases late
  | cons head rest ih =>
    obtain ⟨before, restOrdered⟩ := pairwise_cons.mp ordered
    rw [dropWhile_cons] at late
    split at late
    · exact ih restOrdered late
    · rename_i reached
      have greater : file.position < head.position := by
        rw [← bySmallestKey_iff]
        simpa using reached
      rcases mem_cons.mp late with rfl | later
      · exact greater
      · exact greater.trans (before other later)

theorem saveLevel_ordered (addedOrdered : ByPosition added) (baseOrdered : ByPosition base)
    (apart : ∀ file ∈ added, ∀ other ∈ base, other.position ≠ file.position) :
    ByPosition (saveLevel deleted added base) := by
  induction added generalizing base with
  | nil => exact baseOrdered.filter _
  | cons file rest ih =>
    obtain ⟨before, restOrdered⟩ := pairwise_cons.mp addedOrdered
    have early : ∀ other ∈ base.takeWhile fun other => decide (¬ bySmallestKey file other),
        other.position < file.position := by
      intro other mem
      have reached := all_eq_true.mp all_takeWhile other mem
      have mem := (takeWhile_sublist _).subset mem
      simp only [bySmallestKey_iff, not_lt, decide_eq_true_eq] at reached
      exact lt_of_le_of_ne reached (apart file (.head _) other mem)
    have late : ∀ other ∈ saveLevel deleted rest
        (base.dropWhile fun other => decide (¬ bySmallestKey file other)),
        file.position < other.position := by
      intro other mem
      have mem := (mem_filter.mp ((saveLevel_perm _ _ _).mem_iff.mp mem)).1
      rcases mem_append.mp mem with old | new
      · exact upperBound_greater file baseOrdered old
      · exact before other new
    have tail : ByPosition (saveLevel deleted rest
        (base.dropWhile fun other => decide (¬ bySmallestKey file other))) := by
      apply ih restOrdered (baseOrdered.sublist (dropWhile_sublist _))
      intro new mem other old
      exact apart new (.tail _ mem) other
        ((dropWhile_sublist _).subset old)
    refine pairwise_append.mpr ⟨?_, pairwise_append.mpr ⟨?_, tail, ?_⟩, ?_⟩
    · exact (baseOrdered.sublist (takeWhile_sublist _)).filter _
    · exact (pairwise_singleton _ file).filter _
    · intro other mem later latter
      obtain rfl := mem_singleton.mp (mem_filter.mp mem).1
      exact late later latter
    · intro other mem later latter
      have first := early other (mem_filter.mp mem).1
      rcases mem_append.mp latter with middle | last
      · obtain rfl := mem_singleton.mp (mem_filter.mp middle).1
        exact first
      · exact first.trans (late later last)

end

section

variable {version : Version Key} {edit : VersionEdit Key}

/-- An edit names new files: their numbers differ from each other and from those of
the level they go to. -/
structure FreshAt (files : List (FileMetaData Key)) (added : List (FileMetaData Key)) : Prop where
  distinct : DistinctNumbers added
  fresh : ∀ file ∈ added, ∀ other ∈ files, other.number ≠ file.number

section

variable (fresh : FreshAt (version.files level) (edit.addedAt level))
include fresh

theorem applyEdit_mem (file : FileMetaData Key) : file ∈ (version.applyEdit edit).files level ↔
      file ∈ version.files level ∧ file.number ∉ edit.deletedAt level ∨
        file ∈ edit.addedAt level := by
  have added := apply_added ⟨[], []⟩ (edit.deletedAt level) (edit.addedAt level) fresh.distinct
    (by simp)
  have deleted := apply_deleted ⟨[], []⟩ (edit.deletedAt level) (edit.addedAt level)
  rw [Version.applyEdit, Builder.saveTo, saveLevel_mem, Builder.apply, Builder.empty, added,
    deleted]
  simp only [not_mem_nil, false_or]
  constructor
  · rintro ⟨old | new, kept⟩
    · by_cases gone : file.number ∈ edit.deletedAt level
      · exact absurd ⟨gone, fun other mem => (fresh.fresh other mem file old).symm⟩ kept
      · exact .inl ⟨old, gone⟩
    · exact .inr new
  · rintro (⟨old, kept⟩ | new)
    · exact ⟨.inl old, fun both => kept both.1⟩
    · exact ⟨.inr new, fun both => both.2 file new rfl⟩

theorem applyEdit_ordered (ordered : ByPosition (version.files level)) :
    ByPosition ((version.applyEdit edit).files level) := by
  apply saveLevel_ordered _ ordered
  · intro file mem other old same
    rw [Builder.apply, apply_added _ _ _ fresh.distinct (by simp [Builder.empty])] at mem
    rcases mem with none | new
    · cases none
    · exact fresh.fresh file new other old (position_number same)
  · exact foldl_add_ordered _ _ .nil

end

theorem applyEdit_untouched (noneDeleted : edit.deletedAt level = [])
    (noneAdded : edit.addedAt level = []) :
    (version.applyEdit edit).files level = version.files level := by
  simp only [Version.applyEdit, Builder.saveTo, Builder.apply, apply, noneDeleted,
    noneAdded, Builder.empty, foldl_nil, saveLevel]
  exact filter_eq_self.mpr fun file _ => by simp [maybeAddFile]

theorem byPosition_unique {left right : List (FileMetaData Key)} (leftOrdered : ByPosition left)
    (rightOrdered : ByPosition right) (same : ∀ file, file ∈ left ↔ file ∈ right) : left = right :=
  pairwise_unique (fun _ _ less => less.not_gt) leftOrdered rightOrdered same

end

end CodeReading.Leveldb
