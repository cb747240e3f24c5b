import CodeReading.Leveldb.Descriptor

/-!
# One pass over many edits

`Recover` applies all edits of a descriptor to one builder and saves once. `LogAndApply`
builds a version after every edit. Both give the same version, provided that no edit adds a
file to a level under a number that the level had before. The builder forgets that a
number was deleted when a file is added under it, so that a file of the base would come
back together with the new one.
-/

namespace CodeReading.Leveldb

open List VersionEdit LevelState

variable {Key : Type} [LinearOrder Key]

/-- The version after one edit at a time. -/
def Version.applyEdits (base : Version Key) (edits : List (VersionEdit Key)) : Version Key :=
  edits.foldl Version.applyEdit base

def allAddedAt (edits : List (VersionEdit Key)) (level : Nat) : List (FileMetaData Key) :=
  edits.flatMap fun edit => edit.addedAt level

/-- Every deletion names a file that its level has at that point. -/
def DeletesPresent : Version Key → List (VersionEdit Key) → Prop
  | _, [] => True
  | version, edit :: rest =>
      (∀ level, ∀ number ∈ edit.deletedAt level, ∃ file ∈ version.files level,
        file.number = number) ∧ DeletesPresent (version.applyEdit edit) rest

/-- No number is added to a level twice, or to a level where the base has it. -/
structure AddedOnce (base : Version Key) (edits : List (VersionEdit Key)) : Prop where
  once : ∀ level, DistinctNumbers (allAddedAt edits level)
  fresh : ∀ level, ∀ file ∈ allAddedAt edits level, ∀ old ∈ base.files level,
    old.number ≠ file.number

section

variable {base : Version Key} {builder : Builder Key}

/-- A builder that has added files with numbers of their own. -/
structure Fits (base : Version Key) (builder : Builder Key) : Prop where
  ordered : ∀ level, ByPosition (builder level).addedFiles
  fresh : ∀ level, ∀ file ∈ (builder level).addedFiles, ∀ old ∈ base.files level,
    old.number ≠ file.number

theorem saveTo_mem (builder : Builder Key) (base : Version Key) (level : Nat)
    (file : FileMetaData Key) :
    file ∈ (builder.saveTo base).files level ↔
      (file ∈ base.files level ∨ file ∈ (builder level).addedFiles) ∧
        file.number ∉ (builder level).deletedFiles :=
  saveLevel_mem _ _ _ file

theorem fits_ordered (fits : Fits base builder) (ordered : ∀ level, ByPosition (base.files level))
    (level : Nat) : ByPosition ((builder.saveTo base).files level) := by
  apply saveLevel_ordered (fits.ordered level) (ordered level)
  intro file mem old inside same
  exact fits.fresh level file mem old inside (position_number same)

/-- Saving before an edit or after it makes no difference, if the files that the edit adds
have new numbers. -/
theorem saveTo_apply (fits : Fits base builder) (fitsAfter : Fits base (builder.apply edit))
    (ordered : ∀ level, ByPosition (base.files level))
    (distinct : ∀ level, DistinctNumbers (edit.addedAt level))
    (unknown : ∀ level, ∀ file ∈ edit.addedAt level,
      (∀ old ∈ base.files level, old.number ≠ file.number) ∧
        ∀ old ∈ (builder level).addedFiles, old.number ≠ file.number) :
    (builder.apply edit).saveTo base = (builder.saveTo base).applyEdit edit := by
  have fresh : ∀ level, FreshAt ((builder.saveTo base).files level) (edit.addedAt level) := by
    intro level
    refine ⟨distinct level, ?_⟩
    intro file mem old inside
    cases ((saveTo_mem builder base level old).mp inside).1 with
    | inl inBase => exact (unknown level file mem).1 old inBase
    | inr added => exact (unknown level file mem).2 old added
  refine congrArg Version.mk (funext fun level => ?_)
  apply byPosition_unique (fits_ordered fitsAfter ordered level)
    (applyEdit_ordered (fresh level) (fits_ordered fits ordered level))
  intro file
  have added : file ∈ ((builder.apply edit) level).addedFiles ↔
      file ∈ (builder level).addedFiles ∨ file ∈ edit.addedAt level :=
    apply_added _ _ _ (distinct level) (fun file mem => (unknown level file mem).2) file
  have deleted : file.number ∈ ((builder.apply edit) level).deletedFiles ↔
      (file.number ∈ (builder level).deletedFiles ∨ file.number ∈ edit.deletedAt level) ∧
        ∀ other ∈ edit.addedAt level, other.number ≠ file.number :=
    apply_deleted _ _ _ file.number
  rw [applyEdit_mem (fresh level), saveTo_mem, saveTo_mem, added, deleted]
  constructor
  · rintro ⟨inBase | old | new, alive⟩
    · have others : ∀ other ∈ edit.addedAt level, other.number ≠ file.number :=
        fun other mem => ((unknown level other mem).1 file inBase).symm
      rw [and_iff_left others, not_or] at alive
      exact .inl ⟨⟨.inl inBase, alive.1⟩, alive.2⟩
    · have others : ∀ other ∈ edit.addedAt level, other.number ≠ file.number :=
        fun other mem => ((unknown level other mem).2 file old).symm
      rw [and_iff_left others, not_or] at alive
      exact .inl ⟨⟨.inr old, alive.1⟩, alive.2⟩
    · exact .inr new
  · rintro (⟨⟨known, alive⟩, kept⟩ | new)
    · refine ⟨?_, fun gone => gone.1.elim alive kept⟩
      cases known with
      | inl inBase => exact .inl inBase
      | inr old => exact .inr (.inl old)
    · exact ⟨.inr (.inr new), fun gone => gone.2 file new rfl⟩

theorem allAddedAt_append (edits : List (VersionEdit Key)) (edit : VersionEdit Key) (level : Nat) :
    allAddedAt (edits ++ [edit]) level = allAddedAt edits level ++ edit.addedAt level := by
  simp [allAddedAt]

/-- After a pass over edits the builder has added their files, and saving it gives the
version that one edit at a time leads to. -/
theorem replay_steps (ordered : ∀ level, ByPosition (base.files level))
    (once : AddedOnce base edits) :
    Fits base (replay edits) ∧
      (∀ level file, file ∈ (replay edits level).addedFiles ↔ file ∈ allAddedAt edits level) ∧
      (replay edits).saveTo base = base.applyEdits edits := by
  induction edits using reverseRecOn with
  | nil =>
    refine ⟨⟨fun _ => .nil, ?_⟩, fun _ _ => Iff.rfl, ?_⟩
    · intro level file none
      cases none
    · refine congrArg Version.mk (funext fun level => ?_)
      exact filter_eq_self.mpr fun file _ => by simp [maybeAddFile, replay, Builder.empty]
  | append_singleton edits edit ih =>
    have before : AddedOnce base edits := by
      constructor
      · intro level
        have both := once.once level
        rw [allAddedAt_append] at both
        exact (pairwise_append.mp both).1
      · intro level file mem
        apply once.fresh level file
        rw [allAddedAt_append]
        exact mem_append_left _ mem
    obtain ⟨fits, members, same⟩ := ih before
    have split : ∀ level, DistinctNumbers (allAddedAt edits level) ∧
        DistinctNumbers (edit.addedAt level) ∧ ∀ old ∈ allAddedAt edits level,
          ∀ file ∈ edit.addedAt level, old.number ≠ file.number := by
      intro level
      have both := once.once level
      rw [allAddedAt_append] at both
      exact pairwise_append.mp both
    have unknown : ∀ level, ∀ file ∈ edit.addedAt level,
        (∀ old ∈ base.files level, old.number ≠ file.number) ∧
          ∀ old ∈ (replay edits level).addedFiles, old.number ≠ file.number := by
      intro level file mem
      constructor
      · apply once.fresh level file
        rw [allAddedAt_append]
        exact mem_append_right _ mem
      · intro old inside
        exact (split level).2.2 old ((members level old).mp inside) file mem
    have added : ∀ level file, file ∈ (replay (edits ++ [edit]) level).addedFiles ↔
        file ∈ allAddedAt (edits ++ [edit]) level := by
      intro level file
      rw [replay_append, apply_added _ _ _ (split level).2.1
        (fun file mem => (unknown level file mem).2), members, allAddedAt_append, mem_append]
    have fitsAfter : Fits base (replay (edits ++ [edit])) := by
      constructor
      · intro level
        rw [replay_append]
        exact foldl_add_ordered _ _ (fits.ordered level)
      · intro level file mem
        exact once.fresh level file ((added level file).mp mem)
    have whole : replay (edits ++ [edit]) = (replay edits).apply edit :=
      funext fun level => replay_append edits edit level
    refine ⟨fitsAfter, added, ?_⟩
    rw [whole] at fitsAfter ⊢
    rw [saveTo_apply fits fitsAfter ordered (fun level => (split level).2.1) unknown, same,
      Version.applyEdits, Version.applyEdits, foldl_append]
    rfl

end

section

/-- Files in the order of a level go through a builder unchanged. -/
theorem foldl_add_files {files : List (FileMetaData Key)} (ordered : ByPosition files) :
    files.foldl LevelState.add ⟨[], []⟩ = ⟨[], files⟩ := by
  have added : (files.foldl add ⟨[], []⟩).addedFiles = files := by
    apply byPosition_unique (foldl_add_ordered files ⟨[], []⟩ .nil) ordered
    intro file
    rw [foldl_add_positions files ⟨[], []⟩ (ordered.imp fun less => less.ne)]
    · simp
    · intro _ _ _ none
      cases none
  have deleted : (files.foldl add ⟨[], []⟩).deletedFiles = [] := by
    rw [eq_nil_iff_forall_not_mem]
    intro number mem
    cases ((foldl_add_deleted files ⟨[], []⟩ number).mp mem).1
  calc files.foldl add ⟨[], []⟩
      = ⟨(files.foldl add ⟨[], []⟩).deletedFiles, (files.foldl add ⟨[], []⟩).addedFiles⟩ := rfl
    _ = ⟨[], files⟩ := by rw [deleted, added]

theorem saveLevel_fresh (files : List (FileMetaData Key)) : saveLevel [] files [] = files := by
  induction files with
  | nil => rfl
  | cons file rest ih => simp [saveLevel, maybeAddFile, ih]

/-- A descriptor that begins with a snapshot and goes on without files leads back to the
version. -/
theorem recover_snapshot (comparatorName : String) (versions : VersionSet Key)
    (ordered : ∀ level, ByPosition (versions.current.files level))
    (shallow : ∀ level, kNumLevels ≤ level → versions.current.files level = []) :
    ∃ recovered, VersionSet.recover comparatorName
        [versions.snapshotEdit comparatorName, versions.complete empty] =
          .ok recovered ∧ recovered.current = versions.current := by
  have same : (replay [versions.snapshotEdit comparatorName,
      versions.complete empty]).saveTo Version.empty = versions.current := by
    refine congrArg Version.mk (funext fun level => ?_)
    have state : replay [versions.snapshotEdit comparatorName,
        versions.complete empty] level = ⟨[], versions.current.files level⟩ := by
      have first : replay [versions.snapshotEdit comparatorName] level =
          ((versions.snapshotEdit comparatorName).addedAt level).foldl add ⟨[], []⟩ :=
        rfl
      rw [snapshotEdit_addedAt comparatorName versions shallow, foldl_add_files (ordered level)]
        at first
      change (replay [versions.snapshotEdit comparatorName] level).apply [] [] = _
      rw [first]
      rfl
    rw [state]
    exact saveLevel_fresh _
  have named : foreignComparator comparatorName
      [versions.snapshotEdit comparatorName, versions.complete empty] = none := by
    simp [foreignComparator, VersionSet.snapshotEdit, VersionSet.complete, empty]
  rw [VersionSet.recover, named]
  exact ⟨_, rfl, same⟩

/-- Edits do not give a version more levels than the source has. -/
theorem applyEdits_shallow {base : Version Key}
    (shallow : ∀ level, kNumLevels ≤ level → base.files level = [])
    (within : ∀ edit ∈ edits, ∀ level, kNumLevels ≤ level → edit.addedAt level = [])
    (deep : kNumLevels ≤ level) : (base.applyEdits edits).files level = [] := by
  induction edits generalizing base with
  | nil => exact shallow level deep
  | cons edit rest ih =>
    apply ih _ fun other mem => within other (.tail _ mem)
    intro below belowDeep
    rw [eq_nil_iff_forall_not_mem]
    intro file mem
    have none : edit.addedAt below = [] := within edit (.head _) below belowDeep
    rw [Version.applyEdit, saveTo_mem, Builder.apply, none, shallow below belowDeep] at mem
    cases mem.1 with
    | inl inBase => cases inBase
    | inr added => cases added

/-- Replaying edits in one pass gives the version that one edit at a time leads to, and a
snapshot of that version leads back to it. -/
theorem one_pass_replay (comparatorName : String) (base : Version Key)
    (edits : List (VersionEdit Key)) (ordered : ∀ level, ByPosition (base.files level))
    (shallow : ∀ level, kNumLevels ≤ level → base.files level = [])
    (within : ∀ edit ∈ edits, ∀ level, kNumLevels ≤ level → edit.addedAt level = [])
    (once : AddedOnce base edits) :
    (replay edits).saveTo base = base.applyEdits edits ∧
      ∀ versions : VersionSet Key, versions.current = base.applyEdits edits →
        ∃ recovered, VersionSet.recover comparatorName
            [versions.snapshotEdit comparatorName, versions.complete VersionEdit.empty] =
              .ok recovered ∧ recovered.current = base.applyEdits edits := by
  obtain ⟨fits, _, same⟩ := replay_steps ordered once
  refine ⟨same, ?_⟩
  intro versions current
  rw [← current]
  apply recover_snapshot
  · intro level
    rw [current, ← same]
    exact fits_ordered fits ordered level
  · intro level deep
    rw [current]
    exact applyEdits_shallow shallow within deep

end

section

def movedFile : FileMetaData Nat := ⟨5, 100, ⟨1, 1, .value⟩, ⟨2, 2, .value⟩, by decide⟩

def singleVersion : Version Nat := ⟨fun level => if level = 1 then [movedFile] else []⟩

/-- The file is moved to level 2, in two edits. -/
def movingEdits : List (VersionEdit Nat) :=
  [VersionEdit.empty.removeFile 1 5, VersionEdit.empty.addFile 2 movedFile]

/-- The file is deleted and then added again. -/
def readdingEdits : List (VersionEdit Nat) :=
  [VersionEdit.empty.removeFile 1 5, VersionEdit.empty.addFile 1 movedFile]

theorem one_pass_replay_moving :
    (replay movingEdits).saveTo singleVersion = singleVersion.applyEdits movingEdits := by
  have added : ∀ level, allAddedAt movingEdits level = if level = 2 then [movedFile] else [] := by
    intro level
    by_cases two : level = 2
    · subst two
      rfl
    · simp [allAddedAt, movingEdits, addedAt, addFile, removeFile, empty, two, Ne.symm two]
  refine (one_pass_replay "leveldb.BytewiseComparator" singleVersion movingEdits ?_ ?_ ?_
    ⟨?_, ?_⟩).1
  · intro level
    simp only [singleVersion]
    split
    · exact pairwise_singleton _ _
    · exact .nil
  · intro level deep
    have shallow : level ≠ 1 := by
      rintro rfl
      exact absurd deep (by decide)
    simp [singleVersion, shallow]
  · intro edit mem level deep
    have none : allAddedAt movingEdits level = [] := by
      rw [added, if_neg]
      rintro rfl
      exact absurd deep (by decide)
    exact flatMap_eq_nil_iff.mp none edit mem
  · intro level
    rw [added]
    split
    · exact pairwise_singleton _ _
    · exact .nil
  · intro level _ mem _ inside
    rw [added] at mem
    split at mem
    · rename_i two
      subst two
      cases inside
    · cases mem

/-- The builder forgets the deletion of the file and returns it twice. -/
theorem one_pass_readds :
    (∀ level, DistinctNumbers (allAddedAt readdingEdits level)) ∧
      DeletesPresent singleVersion readdingEdits ∧
      ((replay readdingEdits).saveTo singleVersion).files 1 = [movedFile, movedFile] ∧
      (singleVersion.applyEdits readdingEdits).files 1 = [movedFile] := by
  refine ⟨?_, ⟨?_, ?_, trivial⟩, by decide, by decide +kernel⟩
  · intro level
    by_cases one : level = 1
    · subst one
      exact pairwise_singleton _ _
    · have none : allAddedAt readdingEdits level = [] := by
        simp [allAddedAt, readdingEdits, addedAt, addFile, removeFile, empty, Ne.symm one]
      rw [none]
      exact .nil
  · intro level number mem
    by_cases one : level = 1
    · subst one
      obtain rfl : number = 5 := by simpa [deletedAt, removeFile, empty] using mem
      exact ⟨movedFile, mem_singleton_self _, rfl⟩
    · simp [deletedAt, removeFile, empty, Ne.symm one] at mem
  · intro level number mem
    cases mem

end

end CodeReading.Leveldb
