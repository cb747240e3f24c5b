import CodeReading.Leveldb.Recovery

/-!
# Disjoint levels, with older entries further down

The lookup in a version visits one file per level and stops at the first hit. It may,
because the files of a deeper level are disjoint and because what lies further down is
older: the version is tiered. Compactions keep it so as long as their inputs are reserved:
the files they read are still there when the outputs arrive, every other file of the
output level lies on one side of all inputs, and every other file of the input level is
newer.

A flush during a compaction may put its table into the output level. It avoids every file
there and above, and so every input, but not the gaps between the inputs, where the
outputs go. Only manual compactions have inputs with such gaps.
-/

namespace CodeReading.Leveldb

variable {Key Value : Type} [LinearOrder Key]

section

variable (tables : Nat → Option (List (Item Key Value))) (version : Version Key)

/-- What the lookup in a version relies on. -/
structure Tiered : Prop where
  ascend : LevelsAscend version
  recent : Recent tables version

/-- The version holds the inputs of a compaction and nothing that its outputs could
collide with. -/
structure Reserved (compaction : Compaction Key) : Prop where
  present : ∀ level file, IsInput compaction level file → file ∈ version.files level
  outside : ∀ file ∈ version.files (compaction.level + 1), file ∉ compaction.inputs1 →
    (∀ input ∈ compaction.inputs0 ++ compaction.inputs1, file.largest < input.smallest) ∨
      ∀ input ∈ compaction.inputs0 ++ compaction.inputs1, input.largest < file.smallest
  above : ∀ file ∈ version.files compaction.level, file ∉ compaction.inputs0 →
    ∀ input ∈ compaction.inputs0, Newer (contents tables file) (contents tables input)

def Dated : Prop :=
  ∀ upper lower, ∀ file ∈ version.files upper, ∀ other ∈ version.files lower,
    ∀ left ∈ contents tables file, ∀ right ∈ contents tables other,
      left.key.sequence = right.key.sequence → left.key = right.key

end

section

variable {tables : Nat → Option (List (Item Key Value))} {version next : Version Key}
  {compaction : Compaction Key} {added : List (FileMetaData Key)} {files : List (FileMetaData Key)}

/-- Files in the order of the level are disjoint when any two of them are. -/
theorem ascending_of_comparable (ordered : ByPosition files)
    (comparable : ∀ left ∈ files, ∀ right ∈ files, left ≠ right → left.largest < right.smallest ∨
      right.largest < left.smallest) : Ascending files := by
  refine ordered.imp_of_mem ?_
  intro left right leftMember rightMember before
  have differ : left ≠ right := fun same => (same ▸ before).false
  cases comparable left leftMember right rightMember differ with
  | inl apart => exact apart
  | inr swapped =>
    have first : left.smallest ≤ right.smallest := by
      cases (bySmallestKey_iff left right).mpr before with
      | inl less => exact less.le
      | inr same => exact same.1.le
    exact absurd (swapped.trans_le (first.trans right.ordered)) (lt_irrefl _)

theorem ascending_comparable (ascending : Ascending files) :
    ∀ left ∈ files, ∀ right ∈ files, left ≠ right →
      left.largest < right.smallest ∨ right.largest < left.smallest := by
  intro left leftMember right rightMember differ
  exact (ascending_trichotomy ascending leftMember rightMember).resolve_left differ

/-- The compaction took its inputs out of the version and put the added files, made of
their items, into the next level. -/
structure Rearranged (tables : Nat → Option (List (Item Key Value))) (version next : Version Key)
    (compaction : Compaction Key) (added : List (FileMetaData Key)) : Prop where
  members : ∀ level file, file ∈ next.files level ↔
    (file ∈ version.files level ∧ ¬ IsInput compaction level file) ∨
      level = compaction.level + 1 ∧ file ∈ added
  ordered : ∀ level, ByPosition (next.files level)
  ascending : Ascending added
  holds : ∀ file ∈ added, Holds file (contents tables file)
  sourced : ∀ file ∈ added, ∀ item ∈ contents tables file,
    ∃ input ∈ compaction.inputs0 ++ compaction.inputs1, item ∈ contents tables input

variable {file : FileMetaData Key}

section

variable (sound : Sound tables version) (reserved : Reserved tables version compaction)
  (rearranged : Rearranged tables version next compaction added) (mem : file ∈ added)
include sound reserved rearranged mem

theorem rearranged_between :
    (∃ first ∈ compaction.inputs0 ++ compaction.inputs1, first.smallest ≤ file.smallest) ∧
      ∃ last ∈ compaction.inputs0 ++ compaction.inputs1, file.largest ≤ last.largest := by
  have bounded : ∀ item ∈ contents tables file,
      ∃ input ∈ compaction.inputs0 ++ compaction.inputs1,
        input.smallest ≤ item.key ∧ item.key ≤ input.largest := by
    intro item inside
    obtain ⟨input, isInput, held⟩ := rearranged.sourced file mem item inside
    obtain ⟨level, atLevel⟩ := (isInput_iff compaction input).mp isInput
    have holds := sound_holds sound (reserved.present level input atLevel)
    exact ⟨input, isInput, holds_within holds held⟩
  have holds := rearranged.holds file mem
  constructor
  · obtain ⟨first, isFirst, starts⟩ := holds.starts
    obtain ⟨input, isInput, lower, _⟩ := bounded first (List.mem_of_mem_head? isFirst)
    exact ⟨input, isInput, starts ▸ lower⟩
  · obtain ⟨last, isLast, ends⟩ := holds.ends
    obtain ⟨input, isInput, _, upper⟩ := bounded last (List.mem_of_mem_getLast? isLast)
    exact ⟨input, isInput, ends ▸ upper⟩

/-- A file that stays in the output level lies on one side of every added file. -/
theorem rearranged_apart
    (stays : other ∈ version.files (compaction.level + 1)) (outside : other ∉ compaction.inputs1) :
    other.largest < file.smallest ∨ file.largest < other.smallest := by
  obtain ⟨⟨first, isFirst, lower⟩, last, isLast, upper⟩ :=
    rearranged_between sound reserved rearranged mem
  cases reserved.outside other stays outside with
  | inl before => exact .inl ((before first isFirst).trans_le lower)
  | inr behind => exact .inr (upper.trans_lt (behind last isLast))

end

theorem rearranged_ascend (sound : Sound tables version) (ascend : LevelsAscend version)
    (reserved : Reserved tables version compaction)
    (rearranged : Rearranged tables version next compaction added) : LevelsAscend next := by
  have notInput : ∀ file, ¬ IsInput compaction (compaction.level + 1) file →
      file ∉ compaction.inputs1 := fun file outside inside => outside (.inr ⟨rfl, inside⟩)
  intro level deep
  apply ascending_of_comparable (rearranged.ordered level)
  intro left leftMember right rightMember differ
  cases (rearranged.members level left).mp leftMember with
  | inl leftStays =>
    cases (rearranged.members level right).mp rightMember with
    | inl rightStays =>
      exact ascending_comparable (ascend level deep) left leftStays.1 right rightStays.1 differ
    | inr rightAdded =>
      obtain ⟨rfl, isAdded⟩ := rightAdded
      exact rearranged_apart sound reserved rearranged isAdded leftStays.1
        (notInput left leftStays.2)
  | inr leftAdded =>
    obtain ⟨rfl, isAdded⟩ := leftAdded
    cases (rearranged.members _ right).mp rightMember with
    | inl rightStays =>
      exact (rearranged_apart sound reserved rearranged isAdded rightStays.1
        (notInput right rightStays.2)).symm
    | inr rightAdded =>
      exact ascending_comparable rearranged.ascending left isAdded right rightAdded.2 differ

section

variable (recent : Recent tables version) (reserved : Reserved tables version compaction)
include recent reserved

/-- What stays above the output level is newer than the inputs. -/
theorem reserved_newer (shallow : level < compaction.level + 1)
    (stays : file ∈ version.files level) (outside : ¬ IsInput compaction level file) :
    ∀ input ∈ compaction.inputs0 ++ compaction.inputs1,
      Newer (contents tables file) (contents tables input) := by
  intro input isInput
  obtain ⟨from_, atLevel⟩ := (isInput_iff compaction input).mp isInput
  have present := reserved.present from_ input atLevel
  cases atLevel with
  | inl first =>
    obtain ⟨rfl, first⟩ := first
    by_cases same : level = compaction.level
    · subst same
      exact reserved.above file stays (fun inside => outside (.inl ⟨rfl, inside⟩)) input first
    · exact recent.levels level _ (by omega) file stays input present
  | inr second =>
    obtain ⟨rfl, second⟩ := second
    exact recent.levels level _ shallow file stays input present

theorem rearranged_recent (rearranged : Rearranged tables version next compaction added) :
    Recent tables next := by
  constructor
  · intro upper lower less file mem deeper inside newer newerHeld older olderHeld same
    cases (rearranged.members upper file).mp mem with
    | inl stays =>
      cases (rearranged.members lower deeper).mp inside with
      | inl deeperStays =>
        exact recent.levels upper lower less file stays.1 deeper deeperStays.1 newer newerHeld older
          olderHeld same
      | inr isAdded =>
        obtain ⟨rfl, isAdded⟩ := isAdded
        obtain ⟨input, isInput, held⟩ := rearranged.sourced deeper isAdded older olderHeld
        exact reserved_newer recent reserved less stays.1 stays.2 input isInput newer newerHeld older
          held same
    | inr isAdded =>
      obtain ⟨rfl, isAdded⟩ := isAdded
      cases (rearranged.members lower deeper).mp inside with
      | inl deeperStays =>
        obtain ⟨input, isInput, held⟩ := rearranged.sourced file isAdded newer newerHeld
        obtain ⟨level, atLevel⟩ := (isInput_iff compaction input).mp isInput
        have shallow : level < lower := by
          cases atLevel with
          | inl _ | inr _ => omega
        exact recent.levels level lower shallow input (reserved.present level input atLevel) deeper
          deeperStays.1 newer held older olderHeld same
      | inr deeperAdded => omega
  · intro file mem other inside less newer newerHeld older olderHeld same
    cases (rearranged.members 0 file).mp mem with
    | inl stays =>
      cases (rearranged.members 0 other).mp inside with
      | inl otherStays =>
        exact recent.zero file stays.1 other otherStays.1 less newer newerHeld older olderHeld same
      | inr isAdded => omega
    | inr isAdded => omega

end

section

variable (reserved : Reserved tables version compaction)
  (rearranged : Rearranged tables version next compaction added)
include reserved rearranged

theorem rearranged_item (mem : file ∈ next.files level) (inside : item ∈ contents tables file) :
    ∃ before, ∃ source ∈ version.files before, item ∈ contents tables source := by
  cases (rearranged.members level file).mp mem with
  | inl stays => exact ⟨level, file, stays.1, inside⟩
  | inr isAdded =>
    obtain ⟨input, isInput, held⟩ := rearranged.sourced file isAdded.2 item inside
    obtain ⟨before, atLevel⟩ := (isInput_iff compaction input).mp isInput
    exact ⟨before, input, reserved.present before input atLevel, held⟩

theorem rearranged_dated (dated : Dated tables version) : Dated tables next := by
  intro upper lower file mem other inside left leftHeld right rightHeld same
  obtain ⟨first, source, sourceMember, leftSource⟩ :=
    rearranged_item reserved rearranged mem leftHeld
  obtain ⟨second, otherSource, otherMember, rightSource⟩ :=
    rearranged_item reserved rearranged inside rightHeld
  exact dated first second source sourceMember otherSource otherMember left leftSource right
    rightSource same

theorem rearranged_tiered (sound : Sound tables version) (tiered : Tiered tables version) :
    Tiered tables next :=
  ⟨rearranged_ascend sound tiered.ascend reserved rearranged,
    rearranged_recent tiered.recent reserved rearranged⟩

end

end

section

variable {tables after : Nat → Option (List (Item Key Value))} {version next : Version Key}
  {target : Nat} {added : List (FileMetaData Key)}

/-- Files with items newer than all others were added to one level. What lies above has
no user key in common with them. -/
structure Grown (tables after : Nat → Option (List (Item Key Value))) (version next : Version Key)
    (target : Nat) (added : List (FileMetaData Key)) : Prop where
  members : ∀ level file, file ∈ next.files level ↔
    file ∈ version.files level ∨ level = target ∧ file ∈ added
  kept : ∀ level, ∀ file ∈ version.files level, contents after file = contents tables file
  newer : ∀ level, ∀ old ∈ version.files level, ∀ file ∈ added,
    ∀ recent ∈ contents after file, ∀ older ∈ contents tables old,
      older.key.sequence < recent.key.sequence
  clear : ∀ level < target, ∀ old ∈ version.files level, ∀ file ∈ added,
    ∀ item ∈ contents after file, ∀ other ∈ contents tables old,
      item.key.userKey ≠ other.key.userKey
  later : ∀ old ∈ version.files 0, ∀ file ∈ added, old.number < file.number
  among : ∀ file ∈ added, ∀ other ∈ added, other.number < file.number →
    Newer (contents after file) (contents after other)
  dated : ∀ file ∈ added, ∀ other ∈ added, ∀ left ∈ contents after file,
    ∀ right ∈ contents after other, left.key.sequence = right.key.sequence → left.key = right.key

section

variable (grown : Grown tables after version next target added)
include grown

theorem grown_recent (recent : Recent tables version) : Recent after next := by
  constructor
  · intro upper lower less file mem deeper inside newer newerHeld older olderHeld same
    cases (grown.members upper file).mp mem with
    | inl old =>
      rw [grown.kept upper file old] at newerHeld
      cases (grown.members lower deeper).mp inside with
      | inl deeperOld =>
        rw [grown.kept lower deeper deeperOld] at olderHeld
        exact recent.levels upper lower less file old deeper deeperOld newer newerHeld older
          olderHeld same
      | inr new =>
        obtain ⟨rfl, isAdded⟩ := new
        exact absurd same.symm (grown.clear upper less file old deeper isAdded older olderHeld newer
          newerHeld)
    | inr new =>
      obtain ⟨rfl, isAdded⟩ := new
      cases (grown.members lower deeper).mp inside with
      | inl deeperOld =>
        rw [grown.kept lower deeper deeperOld] at olderHeld
        exact grown.newer lower deeper deeperOld file isAdded newer newerHeld older olderHeld
      | inr deeperNew => omega
  · intro file mem other inside less newer newerHeld older olderHeld same
    cases (grown.members 0 file).mp mem with
    | inl old =>
      rw [grown.kept 0 file old] at newerHeld
      cases (grown.members 0 other).mp inside with
      | inl otherOld =>
        rw [grown.kept 0 other otherOld] at olderHeld
        exact recent.zero file old other otherOld less newer newerHeld older olderHeld same
      | inr otherNew =>
        have order := grown.later file old other otherNew.2
        omega
    | inr new =>
      cases (grown.members 0 other).mp inside with
      | inl otherOld =>
        rw [grown.kept 0 other otherOld] at olderHeld
        exact grown.newer 0 other otherOld file new.2 newer newerHeld older olderHeld
      | inr otherNew =>
        exact grown.among file new.2 other otherNew.2 less newer newerHeld older olderHeld same

theorem grown_dated (dated : Dated tables version) : Dated after next := by
  intro upper lower file mem other inside left leftHeld right rightHeld same
  cases (grown.members upper file).mp mem with
  | inl old =>
    rw [grown.kept upper file old] at leftHeld
    cases (grown.members lower other).mp inside with
    | inl otherOld =>
      rw [grown.kept lower other otherOld] at rightHeld
      exact dated upper lower file old other otherOld left leftHeld right rightHeld same
    | inr otherNew =>
      have less := grown.newer upper file old other otherNew.2 right rightHeld left leftHeld
      exact absurd same less.ne
  | inr new =>
    cases (grown.members lower other).mp inside with
    | inl otherOld =>
      rw [grown.kept lower other otherOld] at rightHeld
      have less := grown.newer lower other otherOld file new.2 left leftHeld right rightHeld
      exact absurd same less.ne'
    | inr otherNew =>
      exact grown.dated file new.2 other otherNew.2 left leftHeld right rightHeld same

/-- The inputs of a compaction stay reserved when every file added to its output level lies
on one side of them. -/
theorem grown_reserved (reserved : Reserved tables version compaction)
    (side : target = compaction.level + 1 → ∀ file ∈ added, (∀ input ∈ compaction.inputs0 ++
      compaction.inputs1, file.largest < input.smallest) ∨ ∀ input ∈ compaction.inputs0 ++
      compaction.inputs1, input.largest < file.smallest) : Reserved after next compaction := by
  have keptInput : ∀ input ∈ compaction.inputs0, contents after input = contents tables input :=
    fun input isInput => grown.kept _ input (reserved.present _ input (.inl ⟨rfl, isInput⟩))
  constructor
  · intro level file isInput
    exact (grown.members level file).mpr (.inl (reserved.present level file isInput))
  · intro file mem outside
    cases (grown.members _ file).mp mem with
    | inl old => exact reserved.outside file old outside
    | inr new => exact side new.1.symm file new.2
  · intro file mem outside input isInput
    rw [keptInput input isInput]
    cases (grown.members _ file).mp mem with
    | inl old =>
      rw [grown.kept _ file old]
      exact reserved.above file old outside input isInput
    | inr new =>
      intro recent recentHeld old oldHeld _
      exact grown.newer _ input (reserved.present _ input (.inl ⟨rfl, isInput⟩)) file new.2 recent
        recentHeld old oldHeld

end

end

end CodeReading.Leveldb
