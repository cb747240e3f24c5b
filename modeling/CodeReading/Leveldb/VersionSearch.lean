import CodeReading.Leveldb.Version

/-!
# What the searches of a version find

Each search is given its meaning once, for the files of a level that ascend: the
binary search arrives at the first file that does not end before the key, the overlap
test says whether some file meets the range, and a collected level is the filter of
its files by a range. In level 0 that range is the widened one: it contains every
file collected, and it was widened only through files that were collected.
-/

namespace CodeReading.Leveldb

open List UserRange Bool
open InternalKey (userKey)

variable {Key Value : Type} [LinearOrder Key]

/-- A level whose files are sorted and disjoint in the order of internal keys. -/
def Ascending (files : List (FileMetaData Key)) : Prop :=
  files.Pairwise fun left right => left.largest < right.smallest

/-- The user keys of the file all lie on one side of the range. -/
def Apart (lower upper : Key) (file : FileMetaData Key) : Prop :=
  file.largest.userKey < lower ∨ upper < file.smallest.userKey

variable {files : List (FileMetaData Key)}

theorem ascending_largest (ascending : Ascending files) :
    files.Pairwise fun left right => left.largest < right.largest :=
  ascending.imp fun {_ right} less => less.trans_le right.ordered

/-- Two files of an ascending level are the same or one comes before the other. -/
theorem pairwise_trichotomy {α : Type} {before : α → α → Prop} {values : List α}
    (pairwise : values.Pairwise before) {left right : α} (leftMember : left ∈ values)
    (rightMember : right ∈ values) : left = right ∨ before left right ∨ before right left := by
  let related (left right : α) : Prop := left = right ∨ before left right ∨ before right left
  have symmetric : Std.Symm related := ⟨fun _ _ known => known.imp Eq.symm Or.symm⟩
  have all : values.Pairwise related := pairwise.imp fun less => .inr (.inl less)
  exact all.forall_of_forall (fun _ _ => .inl rfl) leftMember rightMember

section

variable (ascending : Ascending files)
include ascending

theorem ascending_trichotomy {left right : FileMetaData Key} (leftMember : left ∈ files)
    (rightMember : right ∈ files) :
    left = right ∨ left.largest < right.smallest ∨ right.largest < left.smallest :=
  pairwise_trichotomy ascending leftMember rightMember

/-- The binary search closes in on the first file that does not end before the key. -/
theorem findFileLoop_first {first left right : Nat}
    (isFirst : (files.findIdx fun file => decide (key ≤ file.largest)) = first)
    (low : left ≤ first) (high : first ≤ right) (within : right ≤ files.length) :
    findFileLoop files key left right = first := by
  have increasing := pairwise_iff_getElem.mp (ascending_largest ascending)
  fun_induction findFileLoop files key left right with
  | case1 left right more mid below ih =>
    have inside : mid < files.length := by omega
    have ends : files[mid].largest < key := by simpa [getElem?_eq_getElem inside] using below
    refine ih (isFirst ▸ lt_findIdx_of_not inside fun index upTo => ?_) high within
    rcases upTo.lt_or_eq with earlier | rfl
    · simpa using (increasing index mid _ inside earlier).trans ends
    · simpa using ends
  | case2 left right more mid reaches ih =>
    have inside : mid < files.length := by omega
    refine ih low (not_lt.mp fun later => reaches ?_) (by omega)
    subst isFirst
    simpa [getElem?_eq_getElem inside] using not_of_lt_findIdx later
  | case3 left right done => omega

/-- `FindFile` on an ascending level is the linear scan. -/
theorem findFile_scan (key : InternalKey Key) :
    findFile files key = files.findIdx fun file => decide (key ≤ file.largest) :=
  findFileLoop_first ascending rfl (Nat.zero_le _) findIdx_le_length le_rfl

/-- The first file that reaches the range decides: where it starts after the range, all later ones
do. -/
theorem find_any_beforeFile (largestUserKey : Option Key) (reaches : FileMetaData Key → Bool) :
    ((files.find? reaches).any fun file => !beforeFile largestUserKey file) =
      files.any fun file => reaches file && !beforeFile largestUserKey file := by
  induction files with
  | nil => rfl
  | cons file rest ih =>
    obtain ⟨follows, later⟩ := pairwise_cons.mp ascending
    cases reached : reaches file with
    | false => simpa [reached] using ih later
    | true =>
      cases before : beforeFile largestUserKey file with
      | false => simp [reached, before]
      | true =>
        have passed : ∀ other ∈ rest, beforeFile largestUserKey other = true := by
          intro other mem
          have ordered := userKey_mono (file.ordered.trans (follows other mem).le)
          cases largestUserKey with
          | none => cases before
          | some bound => exact decide_eq_true ((of_decide_eq_true before).trans_le ordered)
        simp_all

theorem someFileOverlapsRange_scan
    (bounded : ∀ file ∈ files, file.largest.sequence ≤ kMaxSequenceNumber)
    (smallestUserKey largestUserKey : Option Key) :
    someFileOverlapsRange true files smallestUserKey largestUserKey =
      someFileOverlapsRange false files smallestUserKey largestUserKey := by
  have first := find_any_beforeFile ascending largestUserKey
  cases smallestUserKey with
  | none =>
    have all := first fun _ => true
    cases files with
    | nil => rfl
    | cons file rest => simpa [someFileOverlapsRange, afterFile] using all
  | some bound =>
    simp only [someFileOverlapsRange, if_true, false_eq_true, if_false, findFile_scan ascending,
      ← find?_eq_getElem?_findIdx, first]
    rw [Bool.eq_iff_iff, any_eq_true, any_eq_true]
    refine exists_congr fun file => and_congr_right fun mem => ?_
    have reaches := lookupKey_le bound kMaxSequenceNumber file.largest
    simp [reaches, bounded file mem, afterFile, le_iff_lt_or_eq]

/-- On an ascending level both searches do what a scan of all files does. -/
theorem disjoint_search_scans
    (bounded : ∀ file ∈ files, file.largest.sequence ≤ kMaxSequenceNumber) :
    (∀ key, findFile files key = files.findIdx fun file => decide (key ≤ file.largest)) ∧
      ∀ smallestUserKey largestUserKey,
        someFileOverlapsRange true files smallestUserKey largestUserKey =
          someFileOverlapsRange false files smallestUserKey largestUserKey :=
  ⟨findFile_scan ascending, someFileOverlapsRange_scan ascending bounded⟩

end

/-- Two files that share the user key `5`. -/
def sharing : List (FileMetaData Nat) :=
  [⟨1, 9, ⟨1, 9, .value⟩, ⟨5, 8, .value⟩, by decide⟩,
    ⟨2, 9, ⟨5, 3, .value⟩, ⟨7, 2, .value⟩, by decide⟩]

theorem disjoint_search_scans_sharing :
    someFileOverlapsRange true sharing (some 5) (some 5) =
      someFileOverlapsRange false sharing (some 5) (some 5) :=
  (@disjoint_search_scans Nat _ sharing (by unfold Ascending; decide) (by decide)).2 _ _

/-- A level without overlap is apart from the range, file by file. -/
theorem overlapInLevel_apart {version : Version Key} {lower upper : Key}
    (ascending : 0 < level → Ascending (version.files level))
    (bounded : ∀ file ∈ version.files level, file.largest.sequence ≤ kMaxSequenceNumber)
    (clear : version.overlapInLevel level (some lower) (some upper) = false) :
    ∀ file ∈ version.files level, Apart lower upper file := by
  intro file mem
  rw [Version.overlapInLevel] at clear
  have scanned : someFileOverlapsRange false (version.files level) (some lower) (some upper) =
      false := by
    by_cases deep : 0 < level
    · rw [decide_eq_true deep, someFileOverlapsRange_scan (ascending deep) bounded] at clear
      exact clear
    · rwa [decide_eq_false deep] at clear
  have missed := any_eq_false.mp scanned file mem
  rw [Apart, or_iff_not_imp_left, not_lt]
  simpa [afterFile, beforeFile] using missed

/-- An interval of user keys meets a range. -/
def UserRange.Meets (range : UserRange Key) (lower upper : Key) : Prop :=
  (∀ bound ∈ range.lower, bound ≤ upper) ∧ ∀ bound ∈ range.upper, lower ≤ bound

section

variable (range : UserRange Key) (file : FileMetaData Key)

theorem overlaps_iff :
    range.overlaps file = true ↔ range.Meets file.smallest.userKey file.largest.userKey := by
  obtain ⟨lower, upper⟩ := range
  cases lower <;> cases upper <;>
    simp [overlaps, UserRange.Meets, afterFile, beforeFile]

/-- The file lies within the range. -/
def UserRange.Covers : Prop :=
  (∀ bound ∈ range.lower, bound ≤ file.smallest.userKey) ∧
    ∀ bound ∈ range.upper, file.largest.userKey ≤ bound

theorem covers_iff :
    (range.startsBefore file = false ∧ range.endsAfter file = false) ↔ range.Covers file := by
  obtain ⟨lower, upper⟩ := range
  cases lower <;> cases upper <;>
    simp [UserRange.Covers, startsBefore, endsAfter]

end

/-- Outside level 0 the scan is a filter. -/
theorem overlapLoop_filter (files : List (FileMetaData Key)) (index : Nat)
    (range : UserRange Key) (inputs : List (FileMetaData Key)) :
    overlapLoop false files index range inputs =
      inputs ++ (files.drop index).filter range.overlaps := by
  generalize flag : false = levelZero
  fun_induction overlapLoop levelZero files index range inputs with
  | case1 index range inputs past =>
    rw [drop_eq_nil_of_le (getElem?_eq_none_iff.mp past)]
    simp
  | case2 index range inputs file found before ih =>
    obtain ⟨bound, rfl⟩ := List.getElem?_eq_some_iff.mp found
    rw [ih, drop_eq_getElem_cons bound, filter_cons]
    simp [overlaps, before]
  | case3 index range inputs file found _ after ih =>
    obtain ⟨bound, rfl⟩ := List.getElem?_eq_some_iff.mp found
    rw [ih, drop_eq_getElem_cons bound, filter_cons]
    simp [overlaps, after]
  | case4 index range inputs file found _ _ starts => simp [← flag] at starts
  | case5 index range inputs file found _ _ _ ends => simp [← flag] at ends
  | case6 index range inputs file found before after _ _ ih =>
    obtain ⟨bound, rfl⟩ := List.getElem?_eq_some_iff.mp found
    rw [ih, drop_eq_getElem_cons bound, filter_cons]
    simp [overlaps, before, after]

/-- What a scan of level 0 collects: all files that meet a final range, which contains
them. It meets everything the given range meets, and an interval that meets it but none
of the files already met the given one. -/
structure Gathered (files : List (FileMetaData Key)) (range final : UserRange Key)
    (result : List (FileMetaData Key)) : Prop where
  filtered : result = files.filter final.overlaps
  covered : ∀ file ∈ result, final.Covers file
  widened : ∀ lower upper, range.Meets lower upper → final.Meets lower upper
  linked : ∀ lower upper, lower ≤ upper → final.Meets lower upper →
    (∀ file ∈ result, Apart lower upper file) → range.Meets lower upper

/-- A file that meets the range may widen it without losing what was gathered. -/
theorem gathered_widen {range wider final : UserRange Key}
    (mem : file ∈ files) (overlapping : range.Meets file.smallest.userKey file.largest.userKey)
    (gathered : Gathered files wider final result)
    (wide : ∀ lower upper, range.Meets lower upper → wider.Meets lower upper)
    (through : ∀ lower upper, lower ≤ upper → wider.Meets lower upper → Apart lower upper file →
      range.Meets lower upper) : Gathered files range final result := by
  have collected : file ∈ result := by
    rw [gathered.filtered, mem_filter, overlaps_iff]
    exact ⟨mem, gathered.widened _ _ (wide _ _ overlapping)⟩
  constructor
  · exact gathered.filtered
  · exact gathered.covered
  · intro lower upper met
    exact gathered.widened lower upper (wide lower upper met)
  · intro lower upper ordered met apart
    exact through lower upper ordered (gathered.linked lower upper ordered met apart)
      (apart file collected)

theorem overlapLoop_gathers (files : List (FileMetaData Key)) (index : Nat)
    (range : UserRange Key) (inputs : List (FileMetaData Key))
    (collected : inputs = (files.take index).filter range.overlaps)
    (covered : ∀ file ∈ inputs, range.Covers file) :
    ∃ final, Gathered files range final (overlapLoop true files index range inputs) := by
  generalize flag : true = levelZero
  fun_induction overlapLoop levelZero files index range inputs with
  | case1 index range inputs past =>
    rw [take_of_length_le (getElem?_eq_none_iff.mp past)] at collected
    exact ⟨range, collected, covered, fun _ _ met => met, fun _ _ _ met _ => met⟩
  | case2 index range inputs file found before ih =>
    refine ih ?_ covered
    rw [collected, take_add_one, found, filter_append]
    simp [overlaps, before]
  | case3 index range inputs file found _ after ih =>
    refine ih ?_ covered
    rw [collected, take_add_one, found, filter_append]
    simp [overlaps, after]
  | case4 index range inputs file found before after starts ih =>
    obtain ⟨final, gathered⟩ := ih (by simp) (by simp)
    have mem := mem_of_getElem? found
    have overlapping := (overlaps_iff range file).mp (by simp [overlaps, before, after])
    obtain ⟨lowest, highest⟩ := range
    cases lowest with
    | none => simp [startsBefore] at starts
    | some bound =>
    have starting : file.smallest.userKey < bound := by simp_all [startsBefore]
    refine ⟨final, gathered_widen mem overlapping gathered ?_ ?_⟩
    · intro lower upper met
      refine ⟨?_, met.2⟩
      rintro _ ⟨⟩
      exact le_of_lt (lt_of_lt_of_le starting (met.1 bound rfl))
    · intro lower upper ordered met apart
      have reaches := met.1 file.smallest.userKey rfl
      rcases apart with before | after
      · refine ⟨?_, met.2⟩
        rintro _ ⟨⟩
        exact (overlapping.1 bound rfl).trans (before.le.trans ordered)
      · exact absurd after (not_lt.mpr reaches)
  | case5 index range inputs file found before after _ ends ih =>
    obtain ⟨final, gathered⟩ := ih (by simp) (by simp)
    have mem := mem_of_getElem? found
    have overlapping := (overlaps_iff range file).mp (by simp [overlaps, before, after])
    obtain ⟨lowest, highest⟩ := range
    cases highest with
    | none => simp [endsAfter] at ends
    | some bound =>
    have ending : bound < file.largest.userKey := by simp_all [endsAfter]
    refine ⟨final, gathered_widen mem overlapping gathered ?_ ?_⟩
    · intro lower upper met
      refine ⟨met.1, ?_⟩
      rintro _ ⟨⟩
      exact (met.2 bound rfl).trans ending.le
    · intro lower upper ordered met apart
      have reaches := met.2 file.largest.userKey rfl
      rcases apart with before | after
      · exact absurd before (not_lt.mpr reaches)
      · refine ⟨met.1, ?_⟩
        rintro _ ⟨⟩
        exact ordered.trans (after.le.trans (overlapping.2 bound rfl))
  | case6 index range inputs file found before after starts ends ih =>
    refine ih ?_ ?_
    · rw [collected, take_add_one, found, filter_append]
      simp [overlaps, before, after]
    · intro other mem
      rcases mem_append.mp mem with earlier | last
      · exact covered other earlier
      · obtain rfl := mem_singleton.mp last
        rw [← covers_iff]
        simpa [← flag] using And.intro starts ends

theorem getOverlappingInputs_filter (version : Version Key) (deep : level ≠ 0)
    (begin finish : Option (InternalKey Key)) :
    version.getOverlappingInputs level begin finish =
      (version.files level).filter (overlaps
        ⟨begin.map userKey, finish.map userKey⟩) := by
  rw [Version.getOverlappingInputs, decide_eq_false deep, overlapLoop_filter]
  rfl

theorem getOverlappingInputs_gathers (version : Version Key)
    (begin finish : Option (InternalKey Key)) :
    ∃ final, Gathered (version.files 0)
      ⟨begin.map userKey, finish.map userKey⟩ final
      (version.getOverlappingInputs 0 begin finish) := by
  apply overlapLoop_gathers
  · rfl
  · intro file mem
    cases mem

section

variable {version : Version Key} {begin finish : Option (InternalKey Key)}

theorem getOverlappingInputs_subset (mem : file ∈ version.getOverlappingInputs level begin finish) :
    file ∈ version.files level := by
  by_cases deep : level = 0
  · subst deep
    obtain ⟨_, gathered⟩ := getOverlappingInputs_gathers version begin finish
    rw [gathered.filtered] at mem
    exact (mem_filter.mp mem).1
  · rw [getOverlappingInputs_filter version deep] at mem
    exact (mem_filter.mp mem).1

theorem getOverlappingInputs_complete (mem : file ∈ version.files level)
    (meets : UserRange.Meets ⟨begin.map userKey, finish.map userKey⟩
      file.smallest.userKey file.largest.userKey) :
    file ∈ version.getOverlappingInputs level begin finish := by
  by_cases deep : level = 0
  · subst deep
    obtain ⟨_, gathered⟩ := getOverlappingInputs_gathers version begin finish
    rw [gathered.filtered, mem_filter, overlaps_iff]
    exact ⟨mem, gathered.widened _ _ meets⟩
  · rw [getOverlappingInputs_filter version deep, mem_filter, overlaps_iff]
    exact ⟨mem, meets⟩

end

section

variable (options : Options) (version : Version Key) (lower upper : Key)
include options version lower upper

theorem pickLevelLoop_clear
    (clear : ∀ below ≤ level, version.overlapInLevel below (some lower) (some upper) = false)
    (within : below ≤ pickLevelLoop options version lower upper level) :
    version.overlapInLevel below (some lower) (some upper) = false := by
  fun_induction pickLevelLoop options version lower upper level with
  | case1 _ _ _ | case2 _ _ _ _ | case4 _ _ => exact clear below within
  | case3 level _ next _ ih =>
    apply ih _ within
    intro lowerLevel _
    rcases Nat.lt_or_ge level lowerLevel with above | beneath
    · obtain rfl : lowerLevel = level + 1 := by omega
      exact eq_false_iff.mpr next
    · exact clear lowerLevel beneath

/-- A level above 0 is picked only when no level down to it meets the range. -/
theorem pickLevel_clear (raised : 0 < version.pickLevelForMemTableOutput options lower upper)
    (within : level ≤ version.pickLevelForMemTableOutput options lower upper) :
    version.overlapInLevel level (some lower) (some upper) = false := by
  rw [Version.pickLevelForMemTableOutput] at raised within
  split at raised
  · exact absurd raised (lt_irrefl 0)
  · rename_i clear
    rw [if_neg clear] at within
    apply pickLevelLoop_clear options version lower upper _ within
    intro below _
    obtain rfl : below = 0 := by omega
    exact eq_false_iff.mpr clear

theorem pickLevelLoop_le (level : Nat) (bound : level ≤ kMaxMemCompactLevel) :
    pickLevelLoop options version lower upper level ≤ kMaxMemCompactLevel := by
  fun_induction pickLevelLoop options version lower upper level with
  | case1 | case2 | case4 => exact bound
  | case3 level less _ _ ih => exact ih less

theorem pickLevel_le :
    version.pickLevelForMemTableOutput options lower upper ≤ kMaxMemCompactLevel := by
  rw [Version.pickLevelForMemTableOutput]
  split
  · exact Nat.zero_le _
  · exact pickLevelLoop_le options version lower upper 0 (Nat.zero_le _)

end

end CodeReading.Leveldb
