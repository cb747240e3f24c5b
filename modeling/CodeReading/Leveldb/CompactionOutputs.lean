import CodeReading.Leveldb.CompactionDrops
import CodeReading.Leveldb.CompactionInputs

/-!
# What a compaction reads and writes

The tables that a version names are read back from a directory; `Sound` says that
each is there and holds exactly the keys that its metadata promise. The merged input of
a compaction is then the sorted collection of the items of its input files. Wherever
the loop cuts its outputs, together they hold the kept items in order, under numbers
that were not in use.
-/

namespace CodeReading.Leveldb

open List Work Option

variable {Key Value : Type} [LinearOrder Key]

/-- A table holds sorted items, from the smallest to the largest key of its file. -/
structure Holds (file : FileMetaData Key) (items : List (Item Key Value)) : Prop where
  sorted : Sorted items
  starts : ∃ first ∈ items.head?, first.key = file.smallest
  ends : ∃ last ∈ items.getLast?, last.key = file.largest

variable {item : Item Key Value} {items : List (Item Key Value)}

theorem sorted_head_le (sorted : Sorted items)
    (isFirst : first ∈ items.head?) (member : item ∈ items) : first.key ≤ item.key := by
  cases items with
  | nil => cases member
  | cons head rest =>
    obtain rfl : head = first := by simpa using isFirst
    rcases mem_cons.mp member with rfl | later
    · exact le_refl _
    · exact ((pairwise_cons.mp sorted).1 item later).le

theorem sorted_le_last (sorted : Sorted items)
    (isLast : last ∈ items.getLast?) (member : item ∈ items) : item.key ≤ last.key := by
  obtain ⟨_, rfl⟩ := getLast?_eq_some_iff.mp isLast
  rcases mem_append.mp member with early | only
  · exact ((pairwise_append.mp sorted).2.2 item early last (.head _)).le
  · rw [mem_singleton.mp only]

theorem holds_within (holds : Holds file items) (member : item ∈ items) :
    file.smallest ≤ item.key ∧ item.key ≤ file.largest := by
  obtain ⟨_, isFirst, starts⟩ := holds.starts
  obtain ⟨_, isLast, ends⟩ := holds.ends
  constructor
  · rw [← starts]
    exact sorted_head_le holds.sorted isFirst member
  · rw [← ends]
    exact sorted_le_last holds.sorted isLast member

theorem tableMetaData_holds (format : TableFormat Key Value) (number : Nat) (sorted : Sorted items)
    (nonempty : items ≠ []) :
    ∃ file, tableMetaData format number items = some file ∧ file.number = number ∧
      Holds file items := by
  obtain ⟨first, isFirst⟩ : ∃ first, items.head? = some first :=
    isSome_iff_exists.mp (isSome_head?.mpr nonempty)
  obtain ⟨last, isLast⟩ : ∃ last, items.getLast? = some last :=
    ⟨_, getLast?_eq_some_getLast nonempty⟩
  have ordered : first.key ≤ last.key := sorted_head_le sorted isFirst (mem_of_getLast? isLast)
  refine ⟨⟨number, format.fileSize items, first.key, last.key, ordered⟩, ?_, rfl, sorted, ?_, ?_⟩
  · rw [tableMetaData, isFirst, isLast]
    simp [dif_pos ordered]
  · exact ⟨first, isFirst, rfl⟩
  · exact ⟨last, isLast, rfl⟩

section

variable (tables : Nat → Option (List (Item Key Value)))

/-- The items of a file, if its table is there. -/
def contents (file : FileMetaData Key) : List (Item Key Value) :=
  (tables file.number).getD []

/-- Every file of the version has its table, under a number of its own. -/
structure Sound (version : Version Key) : Prop where
  stored : ∀ level, ∀ file ∈ version.files level,
    ∃ items, tables file.number = some items ∧ Holds file items
  distinct : ∀ level, DistinctNumbers (version.files level)
  separate : ∀ level other, level ≠ other → ∀ file ∈ version.files level,
    ∀ elsewhere ∈ version.files other, file.number ≠ elsewhere.number

/-- Items of one user key get older with the level, and in level 0 with the number of
the file. -/
structure Recent (version : Version Key) : Prop where
  levels : ∀ upper lower, upper < lower → ∀ file ∈ version.files upper,
    ∀ deeper ∈ version.files lower, ∀ newer ∈ contents tables file,
      ∀ older ∈ contents tables deeper, newer.key.userKey = older.key.userKey →
        older.key.sequence < newer.key.sequence
  zero : ∀ file ∈ version.files 0, ∀ other ∈ version.files 0, other.number < file.number →
    ∀ newer ∈ contents tables file, ∀ older ∈ contents tables other,
      newer.key.userKey = older.key.userKey → older.key.sequence < newer.key.sequence

end

section

variable {tables : Nat → Option (List (Item Key Value))} {version : Version Key}

/-- Two files of the version share no internal key. -/
def KeysApart (tables : Nat → Option (List (Item Key Value))) (version : Version Key) : Prop :=
  ∀ upper lower, ∀ file ∈ version.files upper, ∀ other ∈ version.files lower, file ≠ other →
    ∀ left ∈ contents tables file, ∀ right ∈ contents tables other, left.key ≠ right.key

section

variable (sound : Sound tables version)
include sound

theorem sound_holds (member : file ∈ version.files level) : Holds file (contents tables file) := by
  obtain ⟨_, stored, holds⟩ := sound.stored level file member
  rwa [contents, stored, getD_some]

theorem sound_nodup (level : Nat) : (version.files level).Nodup :=
  (sound.distinct level).imp fun differ same => differ (congrArg _ same)

theorem sound_number (member : file ∈ version.files level) (inside : other ∈ version.files level)
    (same : file.number = other.number) : file = other :=
  distinctNumbers_eq (sound.distinct level) member inside same

theorem recent_keysApart (ascend : LevelsAscend version) (recent : Recent tables version) :
    KeysApart tables version := by
  intro upper lower file member other inside differ left leftMember right rightMember same
  have user : left.key.userKey = right.key.userKey := by rw [same]
  have sequence : left.key.sequence = right.key.sequence := by rw [same]
  rcases Nat.lt_trichotomy upper lower with less | rfl | greater
  · exact absurd (recent.levels upper lower less file member other inside left leftMember right
      rightMember user) (by omega)
  · by_cases zero : upper = 0
    · subst zero
      rcases Nat.lt_trichotomy file.number other.number with less | equal | greater
      · exact absurd (recent.zero other inside file member less right rightMember left leftMember
          user.symm) (by omega)
      · exact differ (sound_number sound member inside equal)
      · exact absurd (recent.zero file member other inside greater left leftMember right
          rightMember user) (by omega)
    · have leftWithin := holds_within (sound_holds sound member) leftMember
      have rightWithin := holds_within (sound_holds sound inside) rightMember
      rcases ascending_trichotomy (ascend upper zero) member inside with equal | less | greater
      · exact differ equal
      · exact absurd (leftWithin.2.trans_lt (less.trans_le rightWithin.1)) (by simp [same])
      · exact absurd (rightWithin.2.trans_lt (greater.trans_le leftWithin.1)) (by simp [same])
  · exact absurd (recent.levels lower upper greater other inside file member right rightMember
      left leftMember user.symm) (by omega)

end

variable {files : List (FileMetaData Key)}

theorem mapM_contents (stored : ∀ file ∈ files, ∃ items, tables file.number = some items) :
    (files.mapM fun file => tables file.number) = some (files.map (contents tables)) := by
  induction files with
  | nil => rfl
  | cons file rest ih =>
    obtain ⟨items, found⟩ := stored file (.head _)
    have later := ih fun other member => stored other (.tail _ member)
    rw [mapM_cons, found, later]
    simp [contents, found]

theorem mergeItems_merge (left right : List (Item Key Value)) :
    mergeItems left right =
      left.merge right fun first second => decide (first.key ≤ second.key) := by
  fun_induction mergeItems left right with
  | case1 right => rw [nil_merge]
  | case2 left nonempty => rw [merge_right]
  | case3 first left second right le ih => rw [cons_merge_cons, if_pos (decide_eq_true le), ih]
  | case4 first left second right greater ih =>
    rw [cons_merge_cons, if_neg (by simpa using greater), ih]

theorem mergeItems_perm (left right : List (Item Key Value)) :
    (mergeItems left right).Perm (left ++ right) := by
  rw [mergeItems_merge]
  exact merge_perm_append _

/-- Items in weakly increasing order of their keys. -/
def WeaklySorted (items : List (Item Key Value)) : Prop :=
  items.Pairwise fun left right => left.key ≤ right.key

theorem mergeItems_sorted {left right : List (Item Key Value)} (leftSorted : WeaklySorted left)
    (rightSorted : WeaklySorted right) : WeaklySorted (mergeItems left right) := by
  have merged : (left.merge right fun first second => decide (first.key ≤ second.key)).Pairwise
      fun first second => decide (first.key ≤ second.key) = true := pairwise_merge
    (fun _ _ _ one two => decide_eq_true ((of_decide_eq_true one).trans (of_decide_eq_true two)))
    (fun first second => by simpa using le_total first.key second.key) left right
    (leftSorted.imp decide_eq_true) (rightSorted.imp decide_eq_true)
  rw [mergeItems_merge]
  exact merged.imp of_decide_eq_true

theorem foldr_merge_perm (lists : List (List (Item Key Value))) :
    (lists.foldr mergeItems []).Perm lists.flatten := by
  induction lists with
  | nil => exact .refl _
  | cons head rest ih =>
    rw [foldr_cons, flatten_cons]
    exact (mergeItems_perm head _).trans (ih.append_left head)

theorem foldr_merge_sorted {lists : List (List (Item Key Value))}
    (sorted : ∀ items ∈ lists, WeaklySorted items) : WeaklySorted (lists.foldr mergeItems []) := by
  induction lists with
  | nil => exact .nil
  | cons head rest ih =>
    apply mergeItems_sorted (sorted head (.head _))
    exact ih fun items member => sorted items (.tail _ member)

/-- The tables of ascending files, read one after the other, are sorted. -/
theorem concatenated_sorted (ascending : Ascending files)
    (holds : ∀ file ∈ files, Holds file (contents tables file)) :
    Sorted (files.map (contents tables)).flatten := by
  induction files with
  | nil => exact .nil
  | cons file rest ih =>
    obtain ⟨before, restAscending⟩ := pairwise_cons.mp ascending
    have own := holds file (.head _)
    rw [map_cons, flatten_cons]
    refine pairwise_append.mpr ⟨own.sorted, ?_, ?_⟩
    · exact ih restAscending fun other member => holds other (.tail _ member)
    · intro _ leftMember _ rightMember
      obtain ⟨_, isItems, rightInside⟩ := mem_flatten.mp rightMember
      obtain ⟨other, member, rfl⟩ := mem_map.mp isItems
      have leftWithin := holds_within own leftMember
      have rightWithin := holds_within (holds other (.tail _ member)) rightInside
      exact leftWithin.2.trans_lt ((before other member).trans_le rightWithin.1)

section

variable (tables : Nat → Option (List (Item Key Value))) (compaction : Compaction Key)

/-- The child iterators of a compaction. -/
def inputChildren : List (List (Item Key Value)) :=
  (if compaction.level = 0 then compaction.inputs0.map (contents tables)
    else [(compaction.inputs0.map (contents tables)).flatten]) ++
    [(compaction.inputs1.map (contents tables)).flatten]

/-- The merged input of a compaction. -/
structure Merged (input : List (Item Key Value)) : Prop where
  made : makeInputIterator tables compaction = some input
  sorted : Sorted input
  mem : ∀ item, item ∈ input ↔
    ∃ file ∈ compaction.inputs0 ++ compaction.inputs1, item ∈ contents tables file

end

/-- Strictness comes from the files sharing no key. -/
theorem sorted_of_weakly (weakly : WeaklySorted items)
    (perm : items.Perm (files.map (contents tables)).flatten) (nodup : files.Nodup)
    (own : ∀ file ∈ files, Sorted (contents tables file))
    (apart : ∀ file ∈ files, ∀ other ∈ files, file ≠ other → ∀ left ∈ contents tables file, ∀ right
      ∈ contents tables other, left.key ≠ right.key) : Sorted items := by
  have differ : ((files.map (contents tables)).flatten).Pairwise
      fun left right => left.key ≠ right.key := by
    rw [pairwise_flatten]
    constructor
    · intro items member
      obtain ⟨file, inside, rfl⟩ := mem_map.mp member
      exact (own file inside).imp fun less => less.ne
    · rw [pairwise_map]
      refine List.Pairwise.imp_of_mem ?_ nodup
      intro file other member inside distinct left leftMember right rightMember
      exact apart file member other inside distinct left leftMember right rightMember
  have distinct := perm.symm.pairwise differ fun different => different.symm
  exact (weakly.and distinct).imp fun both => lt_of_le_of_ne both.1 both.2

variable {compaction : Compaction Key}

theorem inputChildren_sorted (sound : Sound tables version) (selected : Selected version compaction) :
    ∀ items ∈ inputChildren tables compaction, WeaklySorted items := by
  intro items member
  rcases mem_append.mp member with first | second
  · split at first
    · obtain ⟨file, inside, rfl⟩ := mem_map.mp first
      have holds := sound_holds sound (selected.closed0.subset file inside)
      exact holds.sorted.imp fun less => less.le
    · rename_i deep
      rw [mem_singleton.mp first]
      have sorted := concatenated_sorted (selected.closed0.ascending deep) fun file inside =>
        sound_holds sound (selected.closed0.subset file inside)
      exact sorted.imp fun less => less.le
  · rw [mem_singleton.mp second]
    have sorted := concatenated_sorted (selected.closed1.ascending (Nat.succ_ne_zero _))
      fun file inside => sound_holds sound (selected.closed1.subset file inside)
    exact sorted.imp fun less => less.le

theorem inputChildren_perm (compaction : Compaction Key) :
    ((inputChildren tables compaction).foldr mergeItems []).Perm
      ((compaction.inputs0 ++ compaction.inputs1).map (contents tables)).flatten := by
  refine (foldr_merge_perm _).trans ?_
  rw [inputChildren]
  split <;> simp

/-- When all tables are there, the merged children are what the iterator yields. -/
theorem makeInputIterator_made
    (stored0 : ∀ file ∈ compaction.inputs0, ∃ items, tables file.number = some items)
    (stored1 : ∀ file ∈ compaction.inputs1, ∃ items, tables file.number = some items) :
    makeInputIterator tables compaction =
      some ((inputChildren tables compaction).foldr mergeItems []) := by
  rw [makeInputIterator, mapM_contents stored0, bind_some, mapM_contents stored1,
    map_some, inputChildren]

theorem inputChildren_mem (compaction : Compaction Key) (item : Item Key Value) :
    item ∈ (inputChildren tables compaction).foldr mergeItems [] ↔
      ∃ file ∈ compaction.inputs0 ++ compaction.inputs1, item ∈ contents tables file := by
  rw [(inputChildren_perm compaction).mem_iff, mem_flatten]
  constructor
  · rintro ⟨_, isItems, member⟩
    obtain ⟨file, inside, rfl⟩ := mem_map.mp isItems
    exact ⟨file, inside, member⟩
  · rintro ⟨file, inside, member⟩
    exact ⟨_, mem_map_of_mem inside, member⟩

theorem makeInputIterator_merged (sound : Sound tables version)
    (keysApart : KeysApart tables version) (selected : Selected version compaction) :
    Merged tables compaction ((inputChildren tables compaction).foldr mergeItems []) := by
  have stored0 := selected.closed0.subset
  have stored1 := selected.closed1.subset
  have located : ∀ file ∈ compaction.inputs0 ++ compaction.inputs1,
      ∃ level, file ∈ version.files level := fun file member =>
    (mem_append.mp member).elim (fun first => ⟨_, stored0 file first⟩)
      fun second => ⟨_, stored1 file second⟩
  have table : ∀ level, ∀ file ∈ version.files level, ∃ items, tables file.number = some items :=
    fun level file member => (sound.stored level file member).imp fun items both => both.1
  constructor
  · exact makeInputIterator_made (fun file member => table _ file (stored0 file member))
      fun file member => table _ file (stored1 file member)
  · apply sorted_of_weakly (foldr_merge_sorted (inputChildren_sorted sound selected))
      (inputChildren_perm compaction)
    · refine nodup_append.mpr ⟨selected.closed0.nodup (sound_nodup sound _),
        selected.closed1.nodup (sound_nodup sound _), ?_⟩
      intro file first other second same
      exact sound.separate _ _ (Nat.succ_ne_self compaction.level).symm file (stored0 file first)
        other (stored1 other second) (congrArg _ same)
    · intro file member
      obtain ⟨level, inside⟩ := located file member
      exact (sound_holds sound inside).sorted
    · intro file member other inside differ
      obtain ⟨upper, fileIn⟩ := located file member
      obtain ⟨lower, otherIn⟩ := located other inside
      exact keysApart upper lower file fileIn other otherIn differ
  · exact inputChildren_mem compaction

end

section

variable {options : Options} {format : TableFormat Key Value}

section

variable (work : Work Key Value)

/-- All items written so far, in order. -/
def Work.written : List (Item Key Value) :=
  work.allOutputs.flatMap Output.items

@[simp] theorem finishOutput_allOutputs : work.finishOutput.allOutputs = work.allOutputs := by
  simp [finishOutput, allOutputs]

@[simp] theorem closeBigOutput_allOutputs :
    (work.closeBigOutput options format).allOutputs = work.allOutputs := by
  rw [closeBigOutput]
  split
  · exact finishOutput_allOutputs work
  · rfl

theorem addItem_written (item : Item Key Value) :
    (work.addItem item).written = work.written ++ [item] := by
  rw [addItem]
  split
  · rename_i output isOpen
    simp [written, allOutputs, isOpen]
  · rename_i closed
    simp [written, allOutputs, closed]

end

/-- The work as it is when the drop rules are consulted. -/
def Work.prepared (options : Options) (work : Work Key Value) (key : InternalKey Key) :
    Work Key Value :=
  if (work.shouldStopBefore options key).1 then (work.shouldStopBefore options key).2.finishOutput
  else (work.shouldStopBefore options key).2

section

variable (work : Work Key Value)

theorem turn_eq (item : Item Key Value) :
    work.turn options format compaction smallestSnapshot item =
      if (dropTurn compaction smallestSnapshot work.drops item.key).1 then
        { work.prepared options item.key with
          drops := (dropTurn compaction smallestSnapshot work.drops item.key).2 }
      else
        (addItem { work.prepared options item.key with
          drops := (dropTurn compaction smallestSnapshot work.drops item.key).2 } item).closeBigOutput
            options format := by
  have same : (work.prepared options item.key).drops = work.drops := by
    rw [prepared]
    split <;> rfl
  rw [turn, ← same]
  rfl

theorem prepared_allOutputs (key : InternalKey Key) :
    (work.prepared options key).allOutputs = work.allOutputs := by
  rw [prepared]
  split
  · rw [finishOutput_allOutputs]
    rfl
  · rfl

theorem turn_drops (item : Item Key Value) :
    (work.turn options format compaction smallestSnapshot item).drops =
      (dropTurn compaction smallestSnapshot work.drops item.key).2 := by
  rw [turn_eq]
  split
  · rfl
  · rw [closeBigOutput, addItem]
    split <;> split <;> rfl

theorem turn_written (item : Item Key Value) :
    (work.turn options format compaction smallestSnapshot item).written =
      work.written ++
        if (dropTurn compaction smallestSnapshot work.drops item.key).1 then [] else [item] := by
  have prepared : ∀ drops, written { work.prepared options item.key with drops := drops } =
      work.written := fun drops =>
    congrArg (flatMap Output.items) (prepared_allOutputs work item.key)
  rw [turn_eq]
  split
  · rw [prepared, append_nil]
  · rw [written, closeBigOutput_allOutputs, ← written, addItem_written, prepared]

theorem foldl_written (input : List (Item Key Value)) :
    (input.foldl (turn options format compaction smallestSnapshot) work).written =
      work.written ++ kept compaction smallestSnapshot work.drops input := by
  induction input generalizing work with
  | nil => simp [kept]
  | cons item rest ih => rw [foldl_cons, ih, turn_written, turn_drops, kept, append_assoc]

end

/-- The outputs have numbers of their own, taken from the counter, and none is empty. -/
structure Allotted (first : Nat) (work : Work Key Value) : Prop where
  increasing : work.allOutputs.Pairwise fun left right => left.number < right.number
  taken : ∀ output ∈ work.allOutputs, first ≤ output.number ∧ output.number < work.nextFileNumber
  nonempty : ∀ output ∈ work.allOutputs, output.items ≠ []
  counter : first ≤ work.nextFileNumber

theorem allotted_start (compaction : Compaction Key) (first : Nat) :
    Allotted first (start compaction first : Work Key Value) := by
  constructor
  · exact .nil
  · intro output member
    cases member
  · intro output member
    cases member
  · exact le_refl _

variable {work : Work Key Value}

theorem prepared_counter (work : Work Key Value) (key : InternalKey Key) :
    (work.prepared options key).nextFileNumber = work.nextFileNumber := by
  rw [prepared]
  split <;> rfl

/-- A turn takes at most the next number, and it takes it from the counter. -/
theorem addItem_numbers (work : Work Key Value) (item : Item Key Value) :
    work.nextFileNumber ≤ (work.addItem item).nextFileNumber ∧
      ∀ output ∈ (work.addItem item).allOutputs,
        (∃ old ∈ work.allOutputs, old.number = output.number) ∨
          work.nextFileNumber ≤ output.number := by
  cases isOpen : work.builder with
  | some current =>
    refine ⟨?_, ?_⟩
    · simp [addItem, isOpen]
    · intro output member
      simp only [addItem, isOpen, allOutputs, toList_some, mem_append, mem_singleton] at member
      left
      cases member with
      | inl old => exact ⟨output, mem_append_left _ old, rfl⟩
      | inr last => exact ⟨current, by simp [allOutputs, isOpen], by rw [last]⟩
  | none =>
    refine ⟨?_, ?_⟩
    · simp [addItem, isOpen]
    · intro output member
      simp only [addItem, isOpen, allOutputs, toList_some, mem_append, mem_singleton] at member
      cases member with
      | inl old => exact .inl ⟨output, mem_append_left _ old, rfl⟩
      | inr last => exact .inr (by rw [last])

theorem turn_numbers (work : Work Key Value) (item : Item Key Value) :
    work.nextFileNumber ≤
        (work.turn options format compaction smallestSnapshot item).nextFileNumber ∧
      ∀ output ∈ (work.turn options format compaction smallestSnapshot item).allOutputs,
        (∃ old ∈ work.allOutputs, old.number = output.number) ∨
          work.nextFileNumber ≤ output.number := by
  have counter : (work.prepared options item.key).nextFileNumber = work.nextFileNumber :=
    prepared_counter work item.key
  have outputs : (work.prepared options item.key).allOutputs = work.allOutputs :=
    prepared_allOutputs work item.key
  rw [turn_eq]
  split
  · refine ⟨counter.ge, ?_⟩
    intro output member
    exact .inl ⟨output, outputs ▸ member, rfl⟩
  · obtain ⟨grown, numbers⟩ := addItem_numbers { work.prepared options item.key with
      drops := (dropTurn compaction smallestSnapshot work.drops item.key).2 } item
    refine ⟨?_, ?_⟩
    · rw [closeBigOutput]
      split <;> exact counter ▸ grown
    · rw [closeBigOutput_allOutputs]
      intro output member
      cases numbers output member with
      | inl known =>
        obtain ⟨old, inside, same⟩ := known
        exact .inl ⟨old, outputs ▸ inside, same⟩
      | inr new => exact .inr (counter ▸ new)

section

variable (allotted : Allotted first work)
include allotted

theorem allotted_congr (outputs : other.allOutputs = work.allOutputs)
    (counter : work.nextFileNumber ≤ other.nextFileNumber) : Allotted first other := by
  constructor
  · rw [outputs]
    exact allotted.increasing
  · rw [outputs]
    intro output member
    have taken := allotted.taken output member
    omega
  · rw [outputs]
    exact allotted.nonempty
  · exact allotted.counter.trans counter

theorem addItem_allotted (item : Item Key Value) : Allotted first (work.addItem item) := by
  cases isOpen : work.builder with
  | some output =>
    have all : work.allOutputs = work.outputs ++ [output] := by simp [allOutputs, isOpen]
    have next : (work.addItem item).allOutputs =
        work.outputs ++ [⟨output.number, output.items ++ [item]⟩] := by
      simp [addItem, isOpen, allOutputs]
    have counter : (work.addItem item).nextFileNumber = work.nextFileNumber := by
      simp [addItem, isOpen]
    obtain ⟨increasing, taken, nonempty, bound⟩ := allotted
    rw [all] at increasing taken nonempty
    have last := taken output (mem_append_right _ (.head _))
    constructor
    · rw [next]
      have parts := pairwise_append.mp increasing
      refine pairwise_append.mpr ⟨parts.1, pairwise_singleton _ _, ?_⟩
      intro left member right only
      rw [mem_singleton.mp only]
      exact parts.2.2 left member output (.head _)
    · rw [next, counter]
      intro other member
      rcases mem_append.mp member with old | only
      · exact taken other (mem_append_left _ old)
      · rw [mem_singleton.mp only]
        exact last
    · rw [next]
      intro other member
      rcases mem_append.mp member with old | only
      · exact nonempty other (mem_append_left _ old)
      · rw [mem_singleton.mp only]
        simp
    · rw [counter]
      exact bound
  | none =>
    have all : work.allOutputs = work.outputs := by simp [allOutputs, isOpen]
    have next : (work.addItem item).allOutputs = work.outputs ++ [⟨work.nextFileNumber, [item]⟩] := by
      simp [addItem, isOpen, allOutputs]
    have counter : (work.addItem item).nextFileNumber = work.nextFileNumber + 1 := by
      simp [addItem, isOpen]
    obtain ⟨increasing, taken, nonempty, bound⟩ := allotted
    rw [all] at increasing taken nonempty
    constructor
    · rw [next]
      refine pairwise_append.mpr ⟨increasing, pairwise_singleton _ _, ?_⟩
      intro left member right only
      rw [mem_singleton.mp only]
      exact (taken left member).2
    · rw [next, counter]
      intro other member
      rcases mem_append.mp member with old | only
      · have earlier := taken other old
        omega
      · rw [mem_singleton.mp only]
        simp only
        omega
    · rw [next]
      intro other member
      rcases mem_append.mp member with old | only
      · exact nonempty other old
      · rw [mem_singleton.mp only]
        simp
    · rw [counter]
      omega

theorem turn_allotted (item : Item Key Value) :
    Allotted first (work.turn options format compaction smallestSnapshot item) := by
  have prepared : ∀ drops,
      Allotted first { work.prepared options item.key with drops := drops } := fun drops =>
    allotted_congr allotted (prepared_allOutputs work item.key) (by
      rw [prepared]
      split <;> exact le_refl _)
  rw [turn_eq]
  split
  · exact prepared _
  · refine allotted_congr (addItem_allotted (prepared _) item) (closeBigOutput_allOutputs _) ?_
    rw [closeBigOutput]
    split <;> exact le_refl _

theorem foldl_allotted (input : List (Item Key Value)) :
    Allotted first (input.foldl (turn options format compaction smallestSnapshot) work) := by
  induction input generalizing work with
  | nil => exact allotted
  | cons item rest ih => exact ih (turn_allotted allotted item)

end

section

variable (options : Options) (format : TableFormat Key Value) (compaction : Compaction Key)
  (smallestSnapshot nextFileNumber : Nat) (input : List (Item Key Value))

theorem doCompactionWork_outputs :
    (doCompactionWork options format compaction smallestSnapshot nextFileNumber input).outputs =
      (input.foldl (turn options format compaction smallestSnapshot)
        (start compaction nextFileNumber)).allOutputs :=
  rfl

theorem doCompactionWork_written :
    (doCompactionWork options format compaction smallestSnapshot nextFileNumber
        input).outputs.flatMap Output.items =
      kept compaction smallestSnapshot
        ⟨none, kMaxSequenceNumber, compaction.inputVersion.files⟩ input := by
  rw [doCompactionWork_outputs]
  exact foldl_written (start compaction nextFileNumber) input

end

variable {outputs : List (Output Key Value)}

theorem outputs_file (format : TableFormat Key Value)
    (sorted : ∀ output ∈ outputs, Sorted output.items)
    (nonempty : ∀ output ∈ outputs, output.items ≠ []) (member : output ∈ outputs)
    (made : tableMetaData format output.number output.items = some file) :
    file.number = output.number ∧ Holds file output.items := by
  obtain ⟨_, madeToo, number, holds⟩ :=
    tableMetaData_holds format output.number (sorted output member) (nonempty output member)
  obtain rfl := some.inj (made.symm.trans madeToo)
  exact ⟨number, holds⟩

theorem outputs_distinct (format : TableFormat Key Value)
    (sorted : ∀ output ∈ outputs, Sorted output.items)
    (nonempty : ∀ output ∈ outputs, output.items ≠ [])
    (increasing : outputs.Pairwise fun left right => left.number < right.number) : DistinctNumbers
      (outputs.filterMap fun output => tableMetaData format output.number output.items) := by
  rw [DistinctNumbers, pairwise_filterMap]
  refine List.Pairwise.imp_of_mem ?_ increasing
  intro left right leftMember rightMember less _ made _ madeToo
  rw [(outputs_file format sorted nonempty leftMember made).1,
    (outputs_file format sorted nonempty rightMember madeToo).1]
  exact less.ne

/-- The files of the outputs, each with the output it describes. -/
structure Described (format : TableFormat Key Value) (outputs : List (Output Key Value))
    (files : List (FileMetaData Key)) : Prop where
  ascending : Ascending files
  distinct : DistinctNumbers files
  file : ∀ file ∈ files, ∃ output ∈ outputs, file.number = output.number ∧ Holds file output.items
  output : ∀ output ∈ outputs, ∃ file ∈ files, file.number = output.number ∧
    Holds file output.items

theorem outputs_described (format : TableFormat Key Value)
    (sorted : Sorted (outputs.flatMap Output.items))
    (increasing : outputs.Pairwise fun left right => left.number < right.number)
    (nonempty : ∀ output ∈ outputs, output.items ≠ []) : Described format outputs
      (outputs.filterMap fun output => tableMetaData format output.number output.items) := by
  obtain ⟨own, apart⟩ := pairwise_flatMap.mp sorted
  constructor
  · rw [Ascending, pairwise_filterMap]
    refine List.Pairwise.imp_of_mem ?_ apart
    intro left right leftMember rightMember before file made _ madeToo
    obtain ⟨last, isLast, ends⟩ := (outputs_file format own nonempty leftMember made).2.ends
    obtain ⟨first, isFirst, starts⟩ := (outputs_file format own nonempty rightMember madeToo).2.starts
    rw [← ends, ← starts]
    exact before last (mem_of_getLast? isLast) first (mem_of_head? isFirst)
  · exact outputs_distinct format own nonempty increasing
  · intro file member
    obtain ⟨output, inside, made⟩ := mem_filterMap.mp member
    exact ⟨output, inside, outputs_file format own nonempty inside made⟩
  · intro output member
    obtain ⟨file, made, both⟩ :=
      tableMetaData_holds format output.number (own output member) (nonempty output member)
    exact ⟨file, mem_filterMap.mpr ⟨output, member, made⟩, both⟩

/-- The directory with the outputs of a compaction written to it. -/
def writeTables (tables : Nat → Option (List (Item Key Value)))
    (outputs : List (Output Key Value)) : Nat → Option (List (Item Key Value)) :=
  outputs.foldl (fun tables output => Function.update tables output.number (some output.items))
    tables

omit [LinearOrder Key] in
theorem writeTables_other (tables : Nat → Option (List (Item Key Value))) {number : Nat}
    (untouched : ∀ output ∈ outputs, output.number ≠ number) :
    writeTables tables outputs number = tables number := by
  induction outputs generalizing tables with
  | nil => rfl
  | cons head rest ih =>
    have later := ih (Function.update tables head.number (some head.items))
      fun output member => untouched output (.tail _ member)
    rw [writeTables, List.foldl_cons, ← writeTables, later,
      Function.update_of_ne (untouched head (.head _)).symm]

omit [LinearOrder Key] in
theorem writeTables_output (tables : Nat → Option (List (Item Key Value)))
    (increasing : outputs.Pairwise fun left right => left.number < right.number)
    (member : output ∈ outputs) :
    writeTables tables outputs output.number = some output.items := by
  induction outputs generalizing tables with
  | nil => cases member
  | cons head rest ih =>
    obtain ⟨less, later⟩ := List.pairwise_cons.mp increasing
    rw [writeTables, List.foldl_cons, ← writeTables]
    rcases List.mem_cons.mp member with rfl | inside
    · rw [writeTables_other _ fun other inside => (less other inside).ne', Function.update_self]
    · exact ih _ later inside

end

end CodeReading.Leveldb
