import CodeReading.Leveldb.Compaction

/-!
# What the inputs of a compaction are closed under

The inputs of a compaction at a level are cut out of the level without gaps, and no
file of the level continues a user key of theirs: `Closed`. In level 0, where files
overlap, no file even meets them. The inputs of the next level contain every file
that meets the first set. From this follow the two facts that compactions rest on:
a file of the next level that is not an input lies on one side of all inputs, and
every entry older than an input's, for the same user key, is an input too or lies in
a deeper level.

A compaction that was picked automatically has connected inputs: an interval of user
keys that meets none of them lies on one side of all. A manual one may have gaps.
-/

namespace CodeReading.Leveldb

open List Option KeyRange

variable {Key : Type} [LinearOrder Key]

/-- The range is the exact hull of the files. -/
structure Spans (range : KeyRange Key) (files : List (FileMetaData Key)) : Prop where
  covers : ∀ file ∈ files, range.smallest ≤ file.smallest ∧ file.largest ≤ range.largest
  starts : ∃ file ∈ files, file.smallest = range.smallest
  ends : ∃ file ∈ files, file.largest = range.largest

variable {files : List (FileMetaData Key)}

theorem spans_extend {range : KeyRange Key} (spans : Spans range files) (file : FileMetaData Key) :
    Spans (range.extend file) (files ++ [file]) := by
  have lower : (range.extend file).smallest = min file.smallest range.smallest :=
    (min_def_lt _ _).symm
  have upper : (range.extend file).largest = max range.largest file.largest :=
    (max_def_lt _ _).symm
  constructor
  · intro other mem
    rw [lower, upper]
    rcases mem_append.mp mem with old | new
    · obtain ⟨after, before⟩ := spans.covers other old
      exact ⟨min_le_of_right_le after, le_max_of_le_left before⟩
    · rw [mem_singleton.mp new]
      exact ⟨min_le_left _ _, le_max_right _ _⟩
  · simp only [extend]
    split
    · exact ⟨file, by simp, rfl⟩
    · obtain ⟨first, mem, same⟩ := spans.starts
      exact ⟨first, mem_append_left _ mem, same⟩
  · simp only [extend]
    split
    · exact ⟨file, by simp, rfl⟩
    · obtain ⟨last, mem, same⟩ := spans.ends
      exact ⟨last, mem_append_left _ mem, same⟩

theorem getRange_spans {files : List (FileMetaData Key)} {range : KeyRange Key}
    (found : getRange files = some range) : Spans range files := by
  suffices run : ∀ rest seen start, Spans start seen →
      Spans (rest.foldl extend start) (seen ++ rest) by
    cases files with
    | nil => cases found
    | cons file rest =>
      cases found
      refine run rest [file] _ ⟨?_, ⟨file, by simp, rfl⟩, ⟨file, by simp, rfl⟩⟩
      intro _ mem
      rw [mem_singleton.mp mem]
      exact ⟨le_rfl, le_rfl⟩
  intro rest
  induction rest with
  | nil =>
    intro seen start spans
    simpa using spans
  | cons file rest ih =>
    intro seen start spans
    have next := ih _ _ (spans_extend spans file)
    rwa [append_assoc, singleton_append] at next

theorem getRange_exists (nonempty : files ≠ []) : ∃ range, getRange files = some range := by
  cases files with
  | nil => exact absurd rfl nonempty
  | cons file rest => exact ⟨_, rfl⟩

theorem findLargestKey_range (files : List (FileMetaData Key)) :
    findLargestKey files = (getRange files).map KeyRange.largest := by
  cases files with
  | nil => rfl
  | cons file rest =>
    simp only [findLargestKey, getRange, map_some, some.injEq]
    generalize start : (⟨file.smallest, file.largest⟩ : KeyRange Key) = range
    have same : file.largest = range.largest := by rw [← start]
    rw [same]
    clear start same
    induction rest generalizing range with
    | nil => rfl
    | cons head rest ih => exact ih (range.extend head)

/-- The file is the last of the files. -/
def IsLast (files : List (FileMetaData Key)) (last : FileMetaData Key) : Prop :=
  last ∈ files ∧ ∀ file ∈ files, file.largest ≤ last.largest

/-- The file is the first of the level that continues the last user key of the files. -/
structure Continues (levelFiles files : List (FileMetaData Key)) (last file : FileMetaData Key) :
    Prop where
  isLast : IsLast files last
  member : file ∈ levelFiles
  beyond : last.largest < file.smallest
  sameUser : file.smallest.userKey = last.largest.userKey
  least : ∀ other ∈ levelFiles, isBoundaryFile last.largest other = true →
    file.smallest ≤ other.smallest

variable {levelFiles : List (FileMetaData Key)}

/-- What every added boundary file preserves holds of the inputs with all of them, and
after the last one no further file continues the last user key. -/
theorem addBoundaryInputs_induction {motive : List (FileMetaData Key) → Prop}
    (turn : ∀ files last file, motive files → Continues levelFiles files last file → motive (files
      ++ [file])) (nonempty : files ≠ []) (start : motive files) :
    motive (addBoundaryInputs levelFiles files) ∧
      ∃ last, IsLast (addBoundaryInputs levelFiles files) last ∧
        ∀ file ∈ levelFiles, isBoundaryFile last.largest file = false := by
  obtain ⟨range, found⟩ := getRange_exists nonempty
  have spans := getRange_spans found
  rw [addBoundaryInputs, findLargestKey_range, found, map_some]
  obtain ⟨last, lastMember, lastEnds⟩ := spans.ends
  have isLast : IsLast files last := by
    refine ⟨lastMember, ?_⟩
    intro file mem
    rw [lastEnds]
    exact (spans.covers file mem).2
  simp only
  rw [← lastEnds]
  clear spans found lastEnds lastMember nonempty range
  generalize keyIs : last.largest = key
  fun_induction boundaryLoop levelFiles key files generalizing last with
  | case1 key files missing =>
    refine ⟨start, last, isLast, ?_⟩
    have best := findSmallestBoundaryFile_best levelFiles key
    rw [missing] at best
    rw [keyIs]
    exact best
  | case2 key files file found ih =>
    have best := findSmallestBoundaryFile_best levelFiles key
    rw [found, ← keyIs] at best
    obtain ⟨mem, boundary, least⟩ := best
    obtain ⟨beyond, sameUser⟩ := (isBoundaryFile_iff last.largest file).mp boundary
    refine ih (turn files last file start
      ⟨isLast, mem, beyond, sameUser, least⟩) file ⟨by simp, ?_⟩ rfl
    intro other inside
    rcases mem_append.mp inside with old | new
    · exact (isLast.2 other old).trans (beyond.le.trans file.ordered)
    · rw [mem_singleton.mp new]

theorem addBoundaryInputs_nil (levelFiles : List (FileMetaData Key)) :
    addBoundaryInputs levelFiles [] = [] := rfl

/-- What passes from a file to those that continue it holds of all boundary files. -/
theorem addBoundaryInputs_forall {holds : FileMetaData Key → Prop}
    (turn : ∀ files last file, holds last → Continues levelFiles files last file → holds file)
    (start : ∀ file ∈ files, holds file) : ∀ file ∈ addBoundaryInputs levelFiles files, holds file := by
  by_cases empty : files = []
  · subst empty
    exact start
  · refine (addBoundaryInputs_induction (motive := fun files => ∀ file ∈ files, holds file)
      ?_ empty start).1
    intro files last file known continues other mem
    rcases mem_append.mp mem with old | new
    · exact known other old
    · rw [mem_singleton.mp new]
      exact turn files last file (known last continues.isLast.1) continues

section

variable (levelFiles files : List (FileMetaData Key))

/-- No file of the level lies between two of the files without being one of them. -/
def Contiguous : Prop :=
  ∀ first ∈ files, ∀ last ∈ files, ∀ file ∈ levelFiles, first.largest < file.smallest →
    file.largest < last.smallest → file ∈ files

/-- A file of the level that continues the user key of one of the files is one. -/
def RightClosed : Prop :=
  ∀ file ∈ files, ∀ next ∈ levelFiles, file.largest < next.smallest →
    next.smallest.userKey = file.largest.userKey → next ∈ files

/-- A file of the level that meets one of the files is one. -/
def Saturated : Prop :=
  ∀ file ∈ files, ∀ other ∈ levelFiles, file.smallest.userKey ≤ other.largest.userKey →
    other.smallest.userKey ≤ file.largest.userKey → other ∈ files

end

/-- Files cut out of a level without gaps. Level 0 is not sorted; there the files that
meet are taken together. -/
structure Cut (level : Nat) (levelFiles files : List (FileMetaData Key)) : Prop where
  subset : ∀ file ∈ files, file ∈ levelFiles
  saturated : level = 0 → Saturated levelFiles files
  ascending : level ≠ 0 → Ascending files
  contiguous : level ≠ 0 → Contiguous levelFiles files
  nodup : levelFiles.Nodup → files.Nodup

theorem ascending_nodup (ascending : Ascending files) : files.Nodup :=
  ascending.imp fun {left _} less same => absurd (same ▸ less) (not_lt.mpr left.ordered)

/-- Cut files that no file of the level continues. -/
structure Closed (level : Nat) (levelFiles files : List (FileMetaData Key)) : Prop
    extends Cut level levelFiles files where
  rightClosed : RightClosed levelFiles files

theorem smallest_le_largest_userKey (file : FileMetaData Key) :
    file.smallest.userKey ≤ file.largest.userKey :=
  userKey_mono file.ordered

theorem saturated_rightClosed (saturated : Saturated levelFiles files) :
    RightClosed levelFiles files := by
  intro file mem next inside _ same
  apply saturated file mem next inside
  · calc file.smallest.userKey ≤ file.largest.userKey := smallest_le_largest_userKey file
      _ = next.smallest.userKey := same.symm
      _ ≤ next.largest.userKey := smallest_le_largest_userKey next
  · exact same.le

variable {file last : FileMetaData Key}

theorem saturated_complete (saturated : Saturated levelFiles files) :
    ¬ Continues levelFiles files last file := by
  intro continues
  have inside : file ∈ files := saturated_rightClosed saturated last continues.isLast.1 file
    continues.member continues.beyond continues.sameUser
  have before := continues.isLast.2 file inside
  exact absurd (continues.beyond.trans_le file.ordered) (not_lt.mpr before)

/-- Between the last file and its boundary file there is no file. -/
theorem continues_adjacent
    (continues : Continues levelFiles files last file) (mem : other ∈ levelFiles)
    (after : last.largest < other.smallest) : ¬ other.largest < file.smallest := by
  intro before
  have lower : last.largest.userKey ≤ other.smallest.userKey := userKey_mono after.le
  have upper : other.smallest.userKey ≤ last.largest.userKey := by
    rw [← continues.sameUser]
    exact userKey_mono (other.ordered.trans before.le)
  have boundary : isBoundaryFile last.largest other = true :=
    (isBoundaryFile_iff last.largest other).mpr ⟨after, le_antisymm upper lower⟩
  have least := continues.least other mem boundary
  exact absurd (other.ordered.trans_lt before) (not_lt.mpr least)

variable {level : Nat}

section

variable (levelAscending : level ≠ 0 → Ascending levelFiles) (cut : Cut level levelFiles files)
include levelAscending cut

theorem cut_continues (continues : Continues levelFiles files last file) :
    Cut level levelFiles (files ++ [file]) := by
  have before : ∀ other ∈ files, other.largest < file.smallest := fun other mem =>
    (continues.isLast.2 other mem).trans_lt continues.beyond
  constructor
  · intro other mem
    rcases mem_append.mp mem with old | new
    · exact cut.subset other old
    · rw [mem_singleton.mp new]
      exact continues.member
  · intro zero
    exact absurd continues (saturated_complete (cut.saturated zero))
  · intro deep
    refine pairwise_append.mpr ⟨cut.ascending deep, pairwise_singleton _ file, ?_⟩
    intro other mem new inside
    rw [mem_singleton.mp inside]
    exact before other mem
  · intro deep first firstMember final finalMember between mem after earlier
    apply mem_append_left
    rcases mem_append.mp firstMember with firstOld | firstNew
    · rcases mem_append.mp finalMember with finalOld | finalNew
      · exact cut.contiguous deep first firstOld final finalOld between mem after earlier
      · rw [mem_singleton.mp finalNew] at earlier
        rcases ascending_trichotomy (levelAscending deep) mem
            (cut.subset last continues.isLast.1) with same | less | greater
        · rw [same]
          exact continues.isLast.1
        · exact cut.contiguous deep first firstOld last continues.isLast.1 between mem after less
        · exact absurd earlier (continues_adjacent continues mem greater)
    · -- nothing of the files lies beyond the new file
      rw [mem_singleton.mp firstNew] at after
      exfalso
      have beyond : file.largest < final.smallest :=
        after.trans_le (between.ordered.trans earlier.le)
      rcases mem_append.mp finalMember with finalOld | finalNew
      · exact absurd (before final finalOld) (not_lt.mpr
          (file.ordered.trans (beyond.le.trans final.ordered)))
      · rw [mem_singleton.mp finalNew] at beyond
        exact absurd beyond (not_lt.mpr file.ordered)
  · intro levelNodup
    refine nodup_append.mpr ⟨cut.nodup levelNodup, nodup_singleton file, ?_⟩
    intro other mem new inside
    rw [mem_singleton.mp inside]
    rintro rfl
    exact absurd (before other mem) (not_lt.mpr other.ordered)

theorem addBoundaryInputs_closed :
    Closed level levelFiles (addBoundaryInputs levelFiles files) := by
  by_cases empty : files = []
  · subst empty
    rw [addBoundaryInputs_nil]
    exact ⟨cut, fun file mem => by cases mem⟩
  · obtain ⟨whole, last, isLast, ended⟩ := addBoundaryInputs_induction
      (fun files last file cut continues => cut_continues levelAscending cut continues) empty cut
    refine ⟨whole, ?_⟩
    by_cases zero : level = 0
    · exact saturated_rightClosed (whole.saturated zero)
    · intro file mem next inside beyond same
      rcases ascending_trichotomy (levelAscending zero) inside (whole.subset last isLast.1) with
        equal | less | greater
      · rw [equal]
        exact isLast.1
      · exact whole.contiguous zero file mem last isLast.1 next inside beyond less
      · have between : last.largest.userKey = next.smallest.userKey := by
          apply le_antisymm (userKey_mono greater.le)
          rw [same]
          exact userKey_mono (isLast.2 file mem)
        have boundary := (isBoundaryFile_iff last.largest next).mpr ⟨greater, between.symm⟩
        rw [ended next inside] at boundary
        cases boundary

end

theorem addBoundaryInputs_subset (mem : file ∈ files) :
    file ∈ addBoundaryInputs levelFiles files := by
  have nonempty : files ≠ [] := ne_nil_of_mem mem
  refine (addBoundaryInputs_induction (motive := fun files => file ∈ files) ?_ nonempty mem).1
  intro files last next inside continues
  exact mem_append_left _ inside

theorem filter_contiguous (range : UserRange Key) :
    Contiguous levelFiles (levelFiles.filter range.overlaps) := by
  intro first firstMember last lastMember file mem after before
  have firstMeets := (overlaps_iff range first).mp (mem_filter.mp firstMember).2
  have lastMeets := (overlaps_iff range last).mp (mem_filter.mp lastMember).2
  refine mem_filter.mpr ⟨mem, (overlaps_iff range file).mpr ⟨?_, ?_⟩⟩
  · intro bound isBound
    exact (firstMeets.1 bound isBound).trans (userKey_mono (after.le.trans file.ordered))
  · intro bound isBound
    exact (userKey_mono (file.ordered.trans before.le)).trans (lastMeets.2 bound isBound)

theorem getOverlappingInputs_cut {version : Version Key} (begin finish : Option (InternalKey Key))
    (ascending : level ≠ 0 → Ascending (version.files level)) :
    Cut level (version.files level) (version.getOverlappingInputs level begin finish) := by
  constructor
  · intro file mem
    exact getOverlappingInputs_subset mem
  · rintro rfl
    obtain ⟨final, gathered⟩ := getOverlappingInputs_gathers version begin finish
    intro file mem _ inside lower upper
    have covers := gathered.covered file mem
    rw [gathered.filtered, mem_filter, overlaps_iff]
    refine ⟨inside, ?_, ?_⟩
    · intro bound isBound
      exact (covers.1 bound isBound).trans lower
    · intro bound isBound
      exact upper.trans (covers.2 bound isBound)
  · intro deep
    rw [getOverlappingInputs_filter version deep]
    exact (ascending deep).filter _
  · intro deep
    rw [getOverlappingInputs_filter version deep]
    exact filter_contiguous _
  · intro levelNodup
    by_cases deep : level = 0
    · subst deep
      obtain ⟨final, gathered⟩ := getOverlappingInputs_gathers version begin finish
      rw [gathered.filtered]
      exact levelNodup.filter _
    · rw [getOverlappingInputs_filter version deep]
      exact levelNodup.filter _

theorem singleton_cut (deep : level ≠ 0) (mem : file ∈ levelFiles) :
    Cut level levelFiles [file] := by
  constructor
  · intro other inside
    rwa [mem_singleton.mp inside]
  · intro zero
    exact absurd zero deep
  · intro _
    exact pairwise_singleton _ file
  · intro _ _ firstMember _ lastMember other _ after before
    rw [mem_singleton.mp firstMember] at after
    rw [mem_singleton.mp lastMember] at before
    exact absurd (after.trans_le (other.ordered.trans before.le)) (not_lt.mpr file.ordered)
  · intro _
    exact nodup_singleton file

theorem limitInputs_isPrefix : limitInputs limit total files <+: files := by
  induction files generalizing total with
  | nil => exact prefix_refl []
  | cons file rest ih =>
    rw [limitInputs]
    split
    · exact (prefix_cons_inj file).mpr nil_prefix
    · exact (prefix_cons_inj file).mpr (ih)

theorem prefix_cut (deep : level ≠ 0) (cut : Cut level levelFiles files)
    (isPrefix : first <+: files) : Cut level levelFiles first := by
  obtain ⟨_, rfl⟩ := isPrefix
  have ascending := pairwise_append.mp (cut.ascending deep)
  constructor
  · intro file mem
    exact cut.subset file (mem_append_left _ mem)
  · intro zero
    exact absurd zero deep
  · intro _
    exact ascending.1
  · intro _ begin beginMember last lastMember file mem after before
    have inside := cut.contiguous deep begin (mem_append_left _ beginMember) last
      (mem_append_left _ lastMember) file mem after before
    rcases mem_append.mp inside with early | late
    · exact early
    · have beyond := ascending.2.2 last lastMember file late
      exact absurd (before.trans_le (last.ordered.trans beyond.le)) (not_lt.mpr file.ordered)
  · intro _
    exact ascending_nodup ascending.1

section

variable {lower upper : Key}

/-- Boundary files of files before an interval do not jump over it. -/
theorem addBoundaryInputs_left {levelFiles files : List (FileMetaData Key)}
    (ordered : lower ≤ upper)
    (apart : ∀ file ∈ addBoundaryInputs levelFiles files, Apart lower upper file)
    (left : ∀ file ∈ files, file.largest.userKey < lower) :
    ∀ file ∈ addBoundaryInputs levelFiles files, file.largest.userKey < lower := by
  by_cases empty : files = []
  · subst empty
    intro file mem
    cases mem
  · refine (addBoundaryInputs_induction (motive := fun files =>
      (∀ file ∈ files, Apart lower upper file) → ∀ file ∈ files, file.largest.userKey < lower)
      ?_ empty (fun _ => left)).1 apart
    intro files last file before continues apartAll other mem
    have earlier := before fun file inside => apartAll file (mem_append_left _ inside)
    rcases mem_append.mp mem with old | new
    · exact earlier other old
    · obtain rfl := mem_singleton.mp new
      rcases apartAll other (by simp) with less | greater
      · exact less
      · have starts : other.smallest.userKey < lower := by
          rw [continues.sameUser]
          exact earlier last continues.isLast.1
        exact absurd (starts.trans_le ordered) (lt_asymm greater)

theorem addBoundaryInputs_right {levelFiles files : List (FileMetaData Key)}
    (right : ∀ file ∈ files, upper < file.smallest.userKey) :
    ∀ file ∈ addBoundaryInputs levelFiles files, upper < file.smallest.userKey := by
  refine addBoundaryInputs_forall ?_ right
  intro _ last file after continues
  rw [continues.sameUser]
  exact after.trans_le (smallest_le_largest_userKey last)

/-- Files collected for a range on one side of an interval lie on that side too. -/
theorem getOverlappingInputs_sides (version : Version Key) (level : Nat) (range : KeyRange Key)
    (range_ordered : range.smallest.userKey ≤ range.largest.userKey) (ordered : lower ≤ upper)
    (apart : ∀ file ∈ version.getOverlappingInputs level (some range.smallest)
      (some range.largest), Apart lower upper file) :
    let files := version.getOverlappingInputs level (some range.smallest) (some range.largest)
    (range.largest.userKey < lower → ∀ file ∈ files, file.largest.userKey < lower) ∧
      (upper < range.smallest.userKey → ∀ file ∈ files, upper < file.smallest.userKey) := by
  by_cases deep : level = 0
  · subst deep
    obtain ⟨final, gathered⟩ :=
      getOverlappingInputs_gathers version (some range.smallest) (some range.largest)
    have ownMet := gathered.widened range.smallest.userKey range.largest.userKey
      ⟨by rintro _ ⟨⟩; exact range_ordered, by rintro _ ⟨⟩; exact range_ordered⟩
    constructor
    · intro before file mem
      by_contra notLeft
      have met : final.Meets lower upper := by
        constructor
        · exact fun bound isBound => (ownMet.1 bound isBound).trans (before.le.trans ordered)
        · exact fun bound isBound =>
            (not_lt.mp notLeft).trans ((gathered.covered file mem).2 bound isBound)
      have reached := (gathered.linked lower upper ordered met apart).2 _ rfl
      exact absurd before (not_lt.mpr reached)
    · intro after file mem
      by_contra notRight
      have met : final.Meets lower upper := by
        constructor
        · exact fun bound isBound =>
            ((gathered.covered file mem).1 bound isBound).trans (not_lt.mp notRight)
        · exact fun bound isBound => (ordered.trans after.le).trans (ownMet.2 bound isBound)
      have reached := (gathered.linked lower upper ordered met apart).1 _ rfl
      exact absurd after (not_lt.mpr reached)
  · constructor
    · intro before file mem
      refine (apart file mem).resolve_right fun greater => ?_
      rw [getOverlappingInputs_filter version deep, mem_filter, overlaps_iff] at mem
      have starts := mem.2.2 _ rfl
      exact absurd ((starts.trans_lt before).trans_le ordered) (lt_asymm greater)
    · intro after file mem
      refine (apart file mem).resolve_left fun less => ?_
      rw [getOverlappingInputs_filter version deep, mem_filter, overlaps_iff] at mem
      have ends := mem.2.1 _ rfl
      exact absurd ((ordered.trans_lt after).trans_le ends) (lt_asymm less)

end

/-- The file meets the user keys between the first and the last of the files. -/
def MeetsHull (files : List (FileMetaData Key)) (file : FileMetaData Key) : Prop :=
  (∃ first ∈ files, first.smallest.userKey ≤ file.largest.userKey) ∧
    ∃ last ∈ files, file.smallest.userKey ≤ last.largest.userKey

section

variable {version : Version Key}

theorem closedInputs_closed {level : Nat} (range : KeyRange Key)
    (ascending : level ≠ 0 → Ascending (version.files level)) :
    Closed level (version.files level) (version.closedInputs level range) :=
  addBoundaryInputs_closed ascending (getOverlappingInputs_cut _ _ ascending)

/-- The files that meet the hull of the files a range spans are among its inputs. -/
theorem closedInputs_complete {range : KeyRange Key} (spans : Spans range files)
    (mem : file ∈ version.files level) (meets : MeetsHull files file) :
    file ∈ version.closedInputs level range := by
  obtain ⟨⟨first, firstMember, lower⟩, last, lastMember, upper⟩ := meets
  apply addBoundaryInputs_subset
  apply getOverlappingInputs_complete mem
  constructor
  · rintro _ ⟨⟩
    exact (userKey_mono (spans.covers first firstMember).1).trans lower
  · rintro _ ⟨⟩
    exact upper.trans (userKey_mono (spans.covers last lastMember).2)

/-- Unless there are none, one of the inputs for a range meets it, and none lies before
it. -/
theorem closedInputs_anchored (deep : level ≠ 0) {range : KeyRange Key} (spans : Spans range files)
    (mem : file ∈ version.closedInputs level range) :
    (∃ anchor ∈ version.closedInputs level range, MeetsHull files anchor) ∧
      ∃ first ∈ files, first.smallest.userKey ≤ file.largest.userKey := by
  obtain ⟨first, firstMember, firstStarts⟩ := spans.starts
  obtain ⟨last, lastMember, lastEnds⟩ := spans.ends
  have meets : ∀ other ∈ version.getOverlappingInputs level (some range.smallest)
      (some range.largest), first.smallest.userKey ≤ other.largest.userKey ∧
        other.smallest.userKey ≤ last.largest.userKey := by
    intro other inside
    rw [getOverlappingInputs_filter version deep, mem_filter, overlaps_iff] at inside
    rw [firstStarts, lastEnds]
    exact ⟨inside.2.1 _ rfl, inside.2.2 _ rfl⟩
  rw [Version.closedInputs] at mem ⊢
  by_cases empty : version.getOverlappingInputs level (some range.smallest)
      (some range.largest) = []
  · rw [empty, addBoundaryInputs_nil] at mem
    cases mem
  · constructor
    · obtain ⟨anchor, inside⟩ := exists_mem_of_ne_nil _ empty
      exact ⟨anchor, addBoundaryInputs_subset inside, ⟨first, firstMember, (meets anchor inside).1⟩,
        last, lastMember, (meets anchor inside).2⟩
    · refine ⟨first, firstMember, addBoundaryInputs_forall ?_
        (fun other inside => (meets other inside).1) file mem⟩
      intro _ last other reached continues
      calc first.smallest.userKey ≤ last.largest.userKey := reached
        _ = other.smallest.userKey := continues.sameUser.symm
        _ ≤ other.largest.userKey := smallest_le_largest_userKey other

theorem closedInputs_mono (deep : level ≠ 0) (ascending : Ascending (version.files level))
    (lower : wide.smallest ≤ narrow.smallest)
    (upper : narrow.largest ≤ wide.largest) (mem : file ∈ version.closedInputs level narrow) :
    file ∈ version.closedInputs level wide := by
  have closed := closedInputs_closed wide fun _ => ascending
  have start : ∀ other ∈ version.getOverlappingInputs level (some narrow.smallest)
      (some narrow.largest), other ∈ version.closedInputs level wide := by
    intro other inside
    apply addBoundaryInputs_subset
    rw [getOverlappingInputs_filter version deep, mem_filter, overlaps_iff] at inside ⊢
    refine ⟨inside.1, ?_, ?_⟩
    · rintro _ ⟨⟩
      exact (userKey_mono lower).trans (inside.2.1 _ rfl)
    · rintro _ ⟨⟩
      exact (inside.2.2 _ rfl).trans (userKey_mono upper)
  refine addBoundaryInputs_forall ?_ start file mem
  intro _ last next known continues
  exact closed.rightClosed last known next continues.member continues.beyond continues.sameUser

end

/-- What the inputs of a compaction satisfy in the version it was picked from. -/
structure Selected (version : Version Key) (compaction : Compaction Key) : Prop where
  pickedFrom : compaction.inputVersion = version
  blank : compaction.edit.deletedFiles = [] ∧ compaction.edit.newFiles = []
  deepest : compaction.level + 1 < kNumLevels
  nonempty : compaction.inputs0 ≠ []
  closed0 : Closed compaction.level (version.files compaction.level) compaction.inputs0
  closed1 : Closed (compaction.level + 1) (version.files (compaction.level + 1))
    compaction.inputs1
  complete1 : ∀ file ∈ version.files (compaction.level + 1), MeetsHull compaction.inputs0 file →
    file ∈ compaction.inputs1
  anchored1 : ∀ file ∈ compaction.inputs1,
    (∃ anchor ∈ compaction.inputs1, MeetsHull compaction.inputs0 anchor) ∧
      ∃ first ∈ compaction.inputs0, first.smallest.userKey ≤ file.largest.userKey

/-- Every level but the first is sorted and disjoint. -/
def LevelsAscend (version : Version Key) : Prop :=
  ∀ level, level ≠ 0 → Ascending (version.files level)

variable {compaction : Compaction Key} {version : Version Key}

/-- A file of the next level that is no input lies on one side of all inputs. -/
theorem selected_outside (ascend : LevelsAscend version) (selected : Selected version compaction)
    (mem : file ∈ version.files (compaction.level + 1)) (outside : file ∉ compaction.inputs1) :
    (∀ input ∈ compaction.inputs0 ++ compaction.inputs1, file.largest < input.smallest) ∨
      ∀ input ∈ compaction.inputs0 ++ compaction.inputs1, input.largest < file.smallest := by
  have unmet : ¬ MeetsHull compaction.inputs0 file := fun meets =>
    outside (selected.complete1 file mem meets)
  have deep : compaction.level + 1 ≠ 0 := by omega
  have trichotomy : ∀ input ∈ compaction.inputs1,
      file.largest < input.smallest ∨ input.largest < file.smallest := by
    intro input inside
    rcases ascending_trichotomy (ascend _ deep) mem (selected.closed1.subset input inside) with
      same | less | greater
    · exact absurd (same ▸ inside) outside
    · exact .inl less
    · exact .inr greater
  by_cases before : ∃ first ∈ compaction.inputs0, first.smallest.userKey ≤ file.largest.userKey
  · -- then the file lies after all inputs of the first level
    have after : ∀ last ∈ compaction.inputs0, last.largest.userKey < file.smallest.userKey := by
      intro last inside
      by_contra reaches
      exact unmet ⟨before, last, inside, not_lt.mp reaches⟩
    refine .inr ?_
    intro input inside
    rcases mem_append.mp inside with first | second
    · exact lt_of_userKey_lt (after input first)
    · rcases trichotomy input second with less | greater
      · obtain ⟨⟨anchor, anchorMember, _, last, lastMember, reaches⟩, _⟩ :=
          selected.anchored1 input second
        rcases trichotomy anchor anchorMember with beyond | earlier
        · have past := (smallest_le_largest_userKey file).trans (userKey_mono beyond.le)
          exact absurd ((after last lastMember).trans_le (past.trans reaches)) (lt_irrefl _)
        · exact absurd (selected.closed1.contiguous deep anchor anchorMember input second file
            mem earlier less) outside
      · exact greater
  · refine .inl ?_
    intro input inside
    rcases mem_append.mp inside with first | second
    · by_contra reaches
      exact before ⟨input, first, userKey_mono (not_lt.mp reaches)⟩
    · rcases trichotomy input second with less | greater
      · exact less
      · obtain ⟨_, first, firstMember, reaches⟩ := selected.anchored1 input second
        exact absurd ⟨first, firstMember, reaches.trans
          (userKey_mono (greater.le.trans file.ordered))⟩ before

/-- Inputs of the next level chosen for the range of closed inputs complete them. -/
theorem selected_of_range (ascend : LevelsAscend version)
    (pickedFrom : compaction.inputVersion = version)
    (blank : compaction.edit.deletedFiles = [] ∧ compaction.edit.newFiles = [])
    (deepest : compaction.level + 1 < kNumLevels)
    (closed0 : Closed compaction.level (version.files compaction.level) compaction.inputs0)
    {range : KeyRange Key} (found : getRange compaction.inputs0 = some range)
    (inputs1 : compaction.inputs1 = version.closedInputs (compaction.level + 1) range) :
    Selected version compaction := by
  have spans := getRange_spans found
  have deep : compaction.level + 1 ≠ 0 := by omega
  constructor
  · exact pickedFrom
  · exact blank
  · exact deepest
  · intro empty
    rw [empty] at found
    cases found
  · exact closed0
  · rw [inputs1]
    exact closedInputs_closed range fun _ => ascend _ deep
  · intro file mem meets
    rw [inputs1]
    exact closedInputs_complete spans mem meets
  · intro file mem
    rw [inputs1] at mem ⊢
    exact closedInputs_anchored deep spans mem

variable {inputs : List (FileMetaData Key)}

section

variable (found : setupOtherInputs options version level inputs = some compaction)
include found

/-- The two outcomes of `SetupOtherInputs`: the inputs as first chosen, or grown. -/
theorem setupOtherInputs_cases : compaction.level = level ∧ compaction.inputVersion = version ∧
    (compaction.edit.deletedFiles = [] ∧ compaction.edit.newFiles = []) ∧
    ∃ range all,
      getRange (addBoundaryInputs (version.files level) inputs) = some range ∧
      getRange (addBoundaryInputs (version.files level) inputs ++
        version.closedInputs (level + 1) range) = some all ∧
      ((compaction.inputs0 = addBoundaryInputs (version.files level) inputs ∧
          compaction.inputs1 = version.closedInputs (level + 1) range) ∨
        compaction.inputs0 = version.closedInputs level all ∧
          ∃ newRange, getRange compaction.inputs0 = some newRange ∧
            compaction.inputs1 = version.closedInputs (level + 1) newRange) := by
  rw [setupOtherInputs] at found
  obtain ⟨range, ranged, found⟩ := bind_eq_some_iff.mp found
  obtain ⟨all, whole, found⟩ := bind_eq_some_iff.mp found
  obtain ⟨_, _, rfl⟩ := map_eq_some_iff.mp found
  refine ⟨rfl, rfl, ⟨rfl, rfl⟩, range, all, ranged, whole, ?_⟩
  simp only [Inputs.expand]
  split
  · split
    · exact .inl ⟨rfl, rfl⟩
    · rename_i newRange grown
      split
      · exact .inr ⟨rfl, newRange, grown, rfl⟩
      · exact .inl ⟨rfl, rfl⟩
  · exact .inl ⟨rfl, rfl⟩

theorem setupOtherInputs_selected (ascend : LevelsAscend version) (deepest : level + 1 < kNumLevels)
    (cut : Cut level (version.files level) inputs) : Selected version compaction := by
  obtain ⟨rfl, pickedFrom, blank, _, all, ranged, _, outcome⟩ := setupOtherInputs_cases found
  rcases outcome with ⟨first, second⟩ | ⟨first, _, grown, second⟩
  · apply selected_of_range ascend pickedFrom blank deepest _ (first ▸ ranged) second
    rw [first]
    exact addBoundaryInputs_closed (ascend _) cut
  · apply selected_of_range ascend pickedFrom blank deepest _ grown second
    rw [first]
    exact closedInputs_closed all (ascend _)

end

/-- The files lie on the same side of the interval as the anchor. -/
def SameSide (anchor : FileMetaData Key) (lower upper : Key) (files : List (FileMetaData Key)) :
    Prop :=
  (anchor.largest.userKey < lower → ∀ file ∈ files, file.largest.userKey < lower) ∧
    (upper < anchor.smallest.userKey → ∀ file ∈ files, upper < file.smallest.userKey)

variable {anchor : FileMetaData Key} {lower upper : Key}

theorem sameSide_append
    (leftSide : SameSide anchor lower upper left) (rightSide : SameSide anchor lower upper right) :
    SameSide anchor lower upper (left ++ right) := by
  constructor
  · intro before file inside
    exact (mem_append.mp inside).elim (leftSide.1 before file) (rightSide.1 before file)
  · intro after file inside
    exact (mem_append.mp inside).elim (leftSide.2 after file) (rightSide.2 after file)

/-- Whatever interval the files avoid, they all lie on the same side of it as the
anchor. -/
def Follows (anchor : FileMetaData Key) (files : List (FileMetaData Key)) : Prop :=
  ∀ lower upper, lower ≤ upper → (∀ file ∈ files, Apart lower upper file) →
    SameSide anchor lower upper files

theorem follows_boundary (follows : Follows anchor files) :
    Follows anchor (addBoundaryInputs levelFiles files) := by
  intro lower upper ordered apart
  obtain ⟨left, right⟩ := follows lower upper ordered fun file mem =>
    apart file (addBoundaryInputs_subset mem)
  constructor
  · intro before
    exact addBoundaryInputs_left ordered apart (left before)
  · intro after
    exact addBoundaryInputs_right (right after)

theorem spans_ordered {range : KeyRange Key} (spans : Spans range files) :
    range.smallest.userKey ≤ range.largest.userKey := by
  obtain ⟨file, mem, starts⟩ := spans.starts
  rw [← starts]
  exact userKey_mono (file.ordered.trans (spans.covers file mem).2)

/-- The files collected for the range of some files follow what those follow. -/
theorem closedInputs_follows {version : Version Key} {range : KeyRange Key}
    (spans : Spans range files) (ordered : lower ≤ upper)
    (apart : ∀ file ∈ version.closedInputs level range, Apart lower upper file)
    (sides : SameSide anchor lower upper files) :
    SameSide anchor lower upper (version.closedInputs level range) := by
  have collectedApart : ∀ file ∈ version.getOverlappingInputs level (some range.smallest)
      (some range.largest), Apart lower upper file := fun file mem =>
    apart file (addBoundaryInputs_subset mem)
  obtain ⟨left, right⟩ :=
    getOverlappingInputs_sides version level range (spans_ordered spans) ordered collectedApart
  constructor
  · intro before
    obtain ⟨last, lastMember, lastEnds⟩ := spans.ends
    apply addBoundaryInputs_left ordered apart
    apply left
    rw [← lastEnds]
    exact sides.1 before last lastMember
  · intro after
    obtain ⟨first, firstMember, firstStarts⟩ := spans.starts
    apply addBoundaryInputs_right
    apply right
    rw [← firstStarts]
    exact sides.2 after first firstMember

/-- The inputs are connected: an interval that meets none of them lies on one side of
all. -/
def Connected (compaction : Compaction Key) : Prop :=
  ∃ anchor ∈ compaction.inputs0, Follows anchor (compaction.inputs0 ++ compaction.inputs1)

theorem connected_side (connected : Connected compaction) (ordered : lower ≤ upper)
    (apart : ∀ file ∈ compaction.inputs0 ++ compaction.inputs1, Apart lower upper file) :
    (∀ file ∈ compaction.inputs0 ++ compaction.inputs1, file.largest.userKey < lower) ∨
      ∀ file ∈ compaction.inputs0 ++ compaction.inputs1, upper < file.smallest.userKey := by
  obtain ⟨anchor, mem, follows⟩ := connected
  obtain ⟨left, right⟩ := follows lower upper ordered apart
  rcases apart anchor (mem_append_left _ mem) with before | after
  · exact .inl (left before)
  · exact .inr (right after)

theorem setupOtherInputs_connected (ascend : LevelsAscend version)
    (cut : Cut level (version.files level) inputs) (mem : anchor ∈ inputs)
    (follows : Follows anchor inputs)
    (found : setupOtherInputs options version level inputs = some compaction) :
    Connected compaction := by
  obtain ⟨rfl, _, _, range, _, ranged, whole, outcome⟩ := setupOtherInputs_cases found
  have deep : compaction.level + 1 ≠ 0 := by omega
  have spans := getRange_spans ranged
  have spansAll := getRange_spans whole
  have firstFollows : Follows anchor
      (addBoundaryInputs (version.files compaction.level) inputs) := follows_boundary follows
  have bothFollow : Follows anchor (addBoundaryInputs (version.files compaction.level) inputs ++
      version.closedInputs (compaction.level + 1) range) := by
    intro lower upper ordered apart
    have first := firstFollows lower upper ordered fun file inside =>
      apart file (mem_append_left _ inside)
    exact sameSide_append first (closedInputs_follows spans ordered
      (fun file inside => apart file (mem_append_right _ inside)) first)
  rcases outcome with ⟨first, second⟩ | ⟨first, _, grown, second⟩
  · refine ⟨anchor, ?_, ?_⟩
    · rw [first]
      exact addBoundaryInputs_subset mem
    · rw [first, second]
      exact bothFollow
  · have kept0 : ∀ file ∈ addBoundaryInputs (version.files compaction.level) inputs,
        file ∈ compaction.inputs0 := by
      intro file inside
      have closed := addBoundaryInputs_closed (ascend _) cut
      have own := mem_append_left (version.closedInputs (compaction.level + 1) range) inside
      rw [first]
      apply closedInputs_complete spansAll (closed.subset file inside)
      exact ⟨⟨file, own, smallest_le_largest_userKey file⟩,
        file, own, smallest_le_largest_userKey file⟩
    have newSpans := getRange_spans grown
    have kept1 : ∀ file ∈ version.closedInputs (compaction.level + 1) range,
        file ∈ compaction.inputs1 := by
      intro file inside
      obtain ⟨begin, beginMember, starts⟩ := spans.starts
      obtain ⟨last, lastMember, ends⟩ := spans.ends
      rw [second]
      apply closedInputs_mono deep (ascend _ deep) _ _ inside
      · rw [← starts]
        exact (newSpans.covers begin (kept0 begin beginMember)).1
      · rw [← ends]
        exact (newSpans.covers last (kept0 last lastMember)).2
    refine ⟨anchor, kept0 anchor (addBoundaryInputs_subset mem), ?_⟩
    intro lower upper ordered apart
    have old := bothFollow lower upper ordered fun file inside =>
      apart file ((mem_append.mp inside).elim
        (fun early => mem_append_left _ (kept0 file early))
        fun late => mem_append_right _ (kept1 file late))
    have grown0 := closedInputs_follows spansAll ordered
      (fun file inside => apart file (mem_append_left _ (first ▸ inside))) old
    rw [← first] at grown0
    have grown1 := closedInputs_follows newSpans ordered
      (fun file inside => apart file (mem_append_right _ (second ▸ inside))) grown0
    rw [← second] at grown1
    exact sameSide_append grown0 grown1

variable {compactPointer : Nat → Option (InternalKey Key)} {trigger : Trigger Key}

/-- An automatic compaction starts with a file of its level. -/
theorem pickCompaction_file
    (found : pickCompaction options version compactPointer trigger = some compaction) :
    ∃ level, ∃ file ∈ version.files level, level + 1 < kNumLevels ∧
      setupOtherInputs options version level
        (if level = 0 then
          version.getOverlappingInputs 0 (some file.smallest) (some file.largest)
        else [file]) = some compaction := by
  unfold pickCompaction at found
  obtain ⟨⟨level, file⟩, picked, found⟩ := bind_eq_some_iff.mp found
  simp only [ite_none_right_eq_some] at found
  refine ⟨level, file, ?_, found⟩
  cases trigger with
  | size size =>
    obtain ⟨_, chose, same⟩ := map_eq_some_iff.mp picked
    obtain ⟨rfl, rfl⟩ := Prod.mk.inj same
    rw [pickFile, or_eq_some_iff] at chose
    rcases chose with first | ⟨_, wrapped⟩
    · exact mem_of_find?_eq_some first
    · exact mem_of_head? wrapped
  | seek sought target =>
    simp only [ite_none_right_eq_some, some.injEq, Prod.mk.injEq] at picked
    obtain ⟨mem, rfl, rfl⟩ := picked
    exact mem

section

variable (ascend : LevelsAscend version)
  (found : pickCompaction options version compactPointer trigger = some compaction)
include ascend found

/-- What starts an automatic compaction: one file, or in level 0 the files gathered
from it. -/
theorem pickCompaction_start :
    ∃ level file inputs, file ∈ inputs ∧ Follows file inputs ∧ level + 1 < kNumLevels ∧
      Cut level (version.files level) inputs ∧
      setupOtherInputs options version level inputs = some compaction := by
  obtain ⟨level, file, mem, deepest, found⟩ := pickCompaction_file found
  refine ⟨level, file, _, ?_, ?_, deepest, ?_, found⟩
  · split
    · rename_i zero
      subst zero
      apply getOverlappingInputs_complete mem
      constructor
      · rintro _ ⟨⟩
        exact smallest_le_largest_userKey file
      · rintro _ ⟨⟩
        exact smallest_le_largest_userKey file
    · exact mem_singleton_self file
  · intro _ _ ordered apart
    split at apart
    · rename_i zero
      simp only [if_pos zero]
      exact getOverlappingInputs_sides version 0 ⟨file.smallest, file.largest⟩
        (smallest_le_largest_userKey file) ordered apart
    · rename_i deep
      simp only [if_neg deep, SameSide, mem_singleton, forall_eq]
      exact ⟨id, id⟩
  · split
    · rename_i zero
      subst zero
      exact getOverlappingInputs_cut _ _ (ascend 0)
    · rename_i deep
      exact singleton_cut deep mem

theorem pickCompaction_selected : Selected version compaction ∧ Connected compaction := by
  obtain ⟨_, _, _, mem, follows, deepest, cut, setup⟩ := pickCompaction_start ascend found
  constructor
  · exact setupOtherInputs_selected setup ascend deepest cut
  · exact setupOtherInputs_connected ascend cut mem follows setup

end

/-- What holds of the inputs of a compaction whatever the version looks like. -/
structure Drawn (version : Version Key) (compaction : Compaction Key) : Prop where
  pickedFrom : compaction.inputVersion = version
  pointer : ∃ key, compaction.edit = VersionEdit.empty.setCompactPointer compaction.level key
  deepest : compaction.level + 1 < kNumLevels
  subset0 : ∀ file ∈ compaction.inputs0, file ∈ version.files compaction.level
  subset1 : ∀ file ∈ compaction.inputs1, file ∈ version.files (compaction.level + 1)

theorem addBoundaryInputs_within (within : ∀ file ∈ files, file ∈ levelFiles)
    (mem : file ∈ addBoundaryInputs levelFiles files) : file ∈ levelFiles := by
  by_cases empty : files = []
  · rw [empty, addBoundaryInputs_nil] at mem
    cases mem
  · refine (addBoundaryInputs_induction (motive := fun files =>
      ∀ file ∈ files, file ∈ levelFiles) ?_ empty within).1 file mem
    intro files _ _ known continues other inside
    cases mem_append.mp inside with
    | inl old => exact known other old
    | inr new => exact mem_singleton.mp new ▸ continues.member

theorem setupOtherInputs_drawn (deepest : level + 1 < kNumLevels)
    (within : ∀ file ∈ inputs, file ∈ version.files level)
    (found : setupOtherInputs options version level inputs = some compaction) :
    Drawn version compaction := by
  have closed : ∀ at_ range, ∀ file ∈ version.closedInputs at_ range, file ∈ version.files at_ := by
    intro at_ range file mem
    exact addBoundaryInputs_within
      (fun _ inside => getOverlappingInputs_subset inside) mem
  have pointer : ∃ key,
      compaction.edit = VersionEdit.empty.setCompactPointer compaction.level key := by
    rw [setupOtherInputs] at found
    obtain ⟨_, _, found⟩ := bind_eq_some_iff.mp found
    obtain ⟨_, _, found⟩ := bind_eq_some_iff.mp found
    obtain ⟨_, _, rfl⟩ := map_eq_some_iff.mp found
    exact ⟨_, rfl⟩
  obtain ⟨rfl, pickedFrom, _, range, all, _, _, outcome⟩ := setupOtherInputs_cases found
  refine ⟨pickedFrom, pointer, deepest, ?_, ?_⟩
  · intro file mem
    cases outcome with
    | inl plain => exact addBoundaryInputs_within within (plain.1 ▸ mem)
    | inr grown => exact closed _ all file (grown.1 ▸ mem)
  · intro file mem
    cases outcome with
    | inl plain => exact closed _ range file (plain.2 ▸ mem)
    | inr grown =>
      obtain ⟨_, newRange, _, second⟩ := grown
      exact closed _ newRange file (second ▸ mem)

theorem pickCompaction_drawn
    (found : pickCompaction options version compactPointer trigger = some compaction) :
    Drawn version compaction := by
  obtain ⟨_, _, mem, deepest, setup⟩ := pickCompaction_file found
  apply setupOtherInputs_drawn deepest _ setup
  intro _ inside
  split at inside
  · rename_i zero
    exact zero ▸ getOverlappingInputs_subset inside
  · exact mem_singleton.mp inside ▸ mem

section

variable {begin finish : Option (InternalKey Key)}
  (found : compactRange options version level begin finish = some compaction)
include found

theorem compactRange_selected (ascend : LevelsAscend version) : Selected version compaction := by
  rw [compactRange] at found
  simp only [ite_none_left_eq_some, not_or, not_le] at found
  obtain ⟨⟨_, deepest⟩, setup⟩ := found
  have cut := getOverlappingInputs_cut begin finish (ascend level)
  apply setupOtherInputs_selected setup ascend deepest _
  split
  · rename_i below
    exact prefix_cut (by omega) cut (limitInputs_isPrefix)
  · exact cut

theorem compactRange_drawn : Drawn version compaction := by
  rw [compactRange] at found
  simp only [ite_none_left_eq_some, not_or, not_le] at found
  obtain ⟨⟨_, deepest⟩, setup⟩ := found
  apply setupOtherInputs_drawn deepest _ setup
  intro _ mem
  apply getOverlappingInputs_subset
  split at mem
  · exact (limitInputs_isPrefix).subset mem
  · exact mem

end

end CodeReading.Leveldb
