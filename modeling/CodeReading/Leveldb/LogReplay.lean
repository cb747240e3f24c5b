import CodeReading.Leveldb.Database
import CodeReading.Leveldb.Descriptor
import CodeReading.Leveldb.Sources

/-!
# Replaying logs into tables

The records of the logs continue the sequence numbers one after the other. A memtable
holds the updates of its log. Recovery cuts the records of all logs into memtables as
their sizes suggest and writes each to a table of level 0; together these tables hold
exactly the updates of the records, later tables the later ones.
-/

namespace CodeReading.Leveldb

open List

variable {Key Value : Type}

/-- Records that continue the sequence numbers from one to another. -/
def Numbered : Nat → List (Batch Key Value) → Nat → Prop
  | start, [], top => start = top
  | start, batch :: rest, top =>
      batch.sequence = start + 1 ∧ Numbered (start + batch.updates.length) rest top

variable {start : Nat}

theorem numbered_append :
    Numbered start (left ++ right) top ↔
      ∃ middle, Numbered start left middle ∧ Numbered middle right top := by
  induction left generalizing start with
  | nil => simp [Numbered]
  | cons batch rest ih =>
    simp only [cons_append, Numbered, ih]
    constructor
    · rintro ⟨next, middle, first, second⟩
      exact ⟨middle, ⟨next, first⟩, second⟩
    · rintro ⟨middle, ⟨next, first⟩, second⟩
      exact ⟨next, middle, first, second⟩

theorem numbered_singleton (next : batch.sequence = start + 1) :
    Numbered start [batch] (start + batch.updates.length) := ⟨next, rfl⟩

theorem numbered_le (numbered : Numbered start records top) : start ≤ top := by
  induction records generalizing start with
  | nil => exact numbered.le
  | cons batch rest ih =>
    have later := ih numbered.2
    omega

section

variable [Inhabited Value]

def Batch.items (batch : Batch Key Value) : List (Item Key Value) :=
  (number batch.sequence batch.updates).map Entry.item

open Batch

theorem batch_bounds {batch : Batch Key Value} (member : item ∈ batch.items) :
    batch.sequence ≤ item.key.sequence ∧
      item.key.sequence < batch.sequence + batch.updates.length := by
  obtain ⟨_, inside, rfl⟩ := mem_map.mp member
  rw [item_sequence]
  exact number_bounds inside

variable {records : List (Batch Key Value)}

theorem numbered_bounds (numbered : Numbered start records top)
    (member : item ∈ records.flatMap items) :
    start < item.key.sequence ∧ item.key.sequence ≤ top := by
  induction records generalizing start with
  | nil => cases member
  | cons batch rest ih =>
    obtain ⟨_, later⟩ := numbered
    rw [flatMap_cons, mem_append] at member
    cases member with
    | inl own =>
      have bounds := batch_bounds own
      have room := numbered_le later
      omega
    | inr behind =>
      have bounds := ih later behind
      omega

omit [Inhabited Value] in
theorem number_increasing (sequence : Nat) (updates : List (Update Key Value)) :
    (number sequence updates).Pairwise fun left right => left.sequence < right.sequence := by
  induction updates generalizing sequence with
  | nil => exact List.Pairwise.nil
  | cons update rest ih =>
    refine List.pairwise_cons.mpr ⟨?_, ih (sequence + 1)⟩
    intro _ member
    exact (number_bounds member).1

/-- The sequence numbers of records grow from update to update. -/
theorem numbered_increasing (numbered : Numbered start records top) :
    (records.flatMap items).Pairwise fun left right => left.key.sequence < right.key.sequence := by
  induction records generalizing start with
  | nil => exact .nil
  | cons batch rest ih =>
    obtain ⟨_, later⟩ := numbered
    refine pairwise_append.mpr ⟨?_, ih later, ?_⟩
    · refine pairwise_map.mpr ((number_increasing _ _).imp ?_)
      intro left right less
      simpa using less
    · intro left own right behind
      have ownBounds := batch_bounds own
      have laterBounds := numbered_bounds later behind
      omega

/-- So each of them belongs to one update. -/
theorem numbered_unique (numbered : Numbered start records top)
    (leftMember : left ∈ records.flatMap items) (rightMember : right ∈ records.flatMap items)
    (same : left.key.sequence = right.key.sequence) : left = right := by
  rcases pairwise_trichotomy (numbered_increasing numbered) leftMember rightMember with
    equal | less | greater
  · exact equal
  · exact absurd same less.ne
  · exact absurd same greater.ne'

variable [LinearOrder Key]

section

variable (records : List (Batch Key Value))

/-- The memtable that inserting the records gives. -/
def rebuild : MemTable Key Value :=
  records.foldl (fun mem batch => insertInto batch.sequence batch.updates mem) []

theorem rebuild_append (batch : Batch Key Value) :
    rebuild (records ++ [batch]) = insertInto batch.sequence batch.updates (rebuild records) := by
  rw [rebuild, foldl_append]
  rfl

theorem rebuild_perm : (rebuild records).Perm (records.flatMap items) := by
  induction records using reverseRecOn with
  | nil => exact .refl _
  | append_singleton rest batch ih =>
    rw [rebuild_append, flatMap_append, flatMap_singleton]
    exact (insertInto_perm _ _ _).trans (ih.append_right _)

end

theorem rebuild_sorted (numbered : Numbered start records top) : Sorted (rebuild records) := by
  induction records using reverseRecOn generalizing top with
  | nil => exact .nil
  | append_singleton rest batch ih =>
    obtain ⟨_, before, _, _⟩ := numbered_append.mp numbered
    rw [rebuild_append]
    apply insertInto_sorted (ih before)
    intro _ member
    have bounds := numbered_bounds before ((rebuild_perm rest).mem_iff.mp member)
    omega

theorem rebuild_mem (records : List (Batch Key Value)) (item : Item Key Value) :
    item ∈ rebuild records ↔ item ∈ records.flatMap items :=
  (rebuild_perm records).mem_iff

end

section

variable [LinearOrder Key] [Inhabited Value]

/-- The tables that recovery has made so far. -/
def Recovered.files (state : Recovered Key Value) : List (FileMetaData Key) :=
  state.edit.newFiles.map Prod.snd

open Recovered

/-- The directory as recovery has left it. -/
def Recovered.table (state : Recovered Key Value) (number : Nat) :
    Option (List (Item Key Value)) :=
  state.tables.lookup number

/-- The state of a recovery that wrote records to tables. It began with a directory and
a counter, and with the sequence number before that of the first record. -/
structure Replayed (before : Nat → Option (List (Item Key Value))) (first start : Nat)
    (records : List (Batch Key Value)) (top : Nat) (state : Recovered Key Value) : Prop where
  numbered : Numbered start records top
  shape : state.edit =
    { (VersionEdit.empty : VersionEdit Key) with
      newFiles := state.files.map fun file => (0, file) }
  counter : first ≤ state.nextFileNumber
  increasing : state.files.Pairwise fun left right => left.number < right.number
  taken : ∀ file ∈ state.files, first ≤ file.number ∧ file.number < state.nextFileNumber
  kept : ∀ number < first, state.table number = before number
  stored : ∀ file ∈ state.files, ∃ items, state.table file.number = some items ∧ Holds file items
  chronological : state.files.Pairwise fun earlier later =>
    ∀ old ∈ contents state.table earlier, ∀ recent ∈ contents state.table later,
      old.key.sequence < recent.key.sequence
  items : ∀ item, item ∈ state.files.flatMap (contents state.table) ↔
    item ∈ records.flatMap Batch.items

variable {before : Nat → Option (List (Item Key Value))}
  {first start top middle : Nat} {records pending : List (Batch Key Value)}
  {state : Recovered Key Value}

theorem replayed_start (tables : Directory (List (Item Key Value))) (first start : Nat) :
    Replayed (fun number => tables.lookup number) first start ([] : List (Batch Key Value)) start
      ⟨first, tables, VersionEdit.empty, 0⟩ := by
  constructor
  · rfl
  · rfl
  · exact le_refl first
  · exact .nil
  · intro file member
    cases member
  · intro number _
    rfl
  · intro file member
    cases member
  · exact .nil
  · intro _
    rfl

theorem replayed_congr
    (replayed : Replayed before first start records top state) (sameEdit : other.edit = state.edit)
    (sameTables : ∀ number < state.nextFileNumber, other.table number = state.table number)
    (counter : state.nextFileNumber ≤ other.nextFileNumber) :
    Replayed before first start records top other := by
  have sameFiles : other.files = state.files := by rw [files, sameEdit]; rfl
  have same : ∀ file ∈ state.files, contents other.table file = contents state.table file := by
    intro file member
    rw [contents, contents, sameTables _ (replayed.taken file member).2]
  constructor
  · exact replayed.numbered
  · rw [sameEdit, sameFiles]
    exact replayed.shape
  · exact replayed.counter.trans counter
  · rw [sameFiles]
    exact replayed.increasing
  · rw [sameFiles]
    intro file member
    have taken := replayed.taken file member
    omega
  · intro number small
    rw [sameTables number (small.trans_le replayed.counter)]
    exact replayed.kept number small
  · rw [sameFiles]
    intro file member
    rw [sameTables _ (replayed.taken file member).2]
    exact replayed.stored file member
  · rw [sameFiles]
    refine List.Pairwise.imp_of_mem ?_ replayed.chronological
    intro earlier later earlierMember laterMember _
    rwa [same earlier earlierMember, same later laterMember]
  · rw [sameFiles]
    intro item
    rw [← replayed.items item]
    simp only [mem_flatMap]
    constructor
    · rintro ⟨file, member, inside⟩
      exact ⟨file, member, same file member ▸ inside⟩
    · rintro ⟨file, member, inside⟩
      exact ⟨file, member, (same file member).symm ▸ inside⟩

section

variable (config : Config Key Value) (replayed : Replayed before first start records middle state)
  (numbered : Numbered middle pending top)
include config replayed numbered

theorem writeLevel0Table_empty (empty : rebuild pending = []) :
    Replayed before first start (records ++ pending) top
      (state.writeLevel0Table config (rebuild pending)) := by
  rw [empty]
  have unchanged : Replayed before first start records middle
      (state.writeLevel0Table config ([] : MemTable Key Value)) := by
    apply replayed_congr replayed
    · rfl
    · intro _ small
      exact AList.lookup_erase_ne small.ne
    · exact Nat.le_succ _
  have none : pending.flatMap Batch.items = [] := by
    have perm := rebuild_perm pending
    rw [empty] at perm
    exact perm.nil_eq.symm
  refine { unchanged with numbered := ?_, items := ?_ }
  · exact numbered_append.mpr ⟨middle, replayed.numbered, numbered⟩
  · intro _
    rw [unchanged.items, flatMap_append, none, append_nil]

theorem writeLevel0Table_filled (nonempty : rebuild pending ≠ []) :
    Replayed before first start (records ++ pending) top
      (state.writeLevel0Table config (rebuild pending)) := by
  obtain ⟨file, made, number, holds⟩ := tableMetaData_holds config.format state.nextFileNumber
    (rebuild_sorted numbered) nonempty
  obtain ⟨next, named⟩ : ∃ next, { state with
    nextFileNumber := state.nextFileNumber + 1
    tables := state.tables.insert state.nextFileNumber (rebuild pending)
    edit := state.edit.addFile 0 file } = next := ⟨_, rfl⟩
  have written : state.writeLevel0Table config (rebuild pending) = next := by
    simp [← named, writeLevel0Table, buildTable, made]
  rw [written]
  have nextFiles : next.files = state.files ++ [file] := by
    simp [← named, files, VersionEdit.addFile]
  have nextCounter : next.nextFileNumber = state.nextFileNumber + 1 := by rw [← named]
  have unchanged : ∀ other < state.nextFileNumber, next.table other = state.table other := by
    intro other small
    rw [← named]
    exact AList.lookup_insert_ne small.ne
  have own : next.table file.number = some (rebuild pending) := by
    rw [← named, number]
    exact AList.lookup_insert _
  have ownContents : contents next.table file = rebuild pending := by rw [contents, own]; rfl
  have oldContents : ∀ old ∈ state.files, contents next.table old = contents state.table old := by
    intro old member
    rw [contents, contents, unchanged _ (replayed.taken old member).2]
  constructor
  · exact numbered_append.mpr ⟨middle, replayed.numbered, numbered⟩
  · rw [nextFiles, ← named, map_append]
    simp only [VersionEdit.addFile]
    rw [replayed.shape]
    simp [files]
  · rw [nextCounter]
    exact replayed.counter.trans (Nat.le_succ _)
  · rw [nextFiles]
    refine pairwise_append.mpr ⟨replayed.increasing, pairwise_singleton _ _, ?_⟩
    intro old member only isOnly
    rw [mem_singleton.mp isOnly, number]
    exact (replayed.taken old member).2
  · rw [nextFiles, nextCounter]
    intro other member
    cases mem_append.mp member with
    | inl old =>
      have taken := replayed.taken other old
      omega
    | inr only =>
      have counter := replayed.counter
      rw [mem_singleton.mp only, number]
      omega
  · intro other small
    rw [unchanged other (small.trans_le replayed.counter)]
    exact replayed.kept other small
  · rw [nextFiles]
    intro other member
    cases mem_append.mp member with
    | inl old =>
      rw [unchanged _ (replayed.taken other old).2]
      exact replayed.stored other old
    | inr only =>
      rw [mem_singleton.mp only]
      exact ⟨_, own, holds⟩
  · rw [nextFiles]
    refine pairwise_append.mpr ⟨?_, pairwise_singleton _ _, ?_⟩
    · refine List.Pairwise.imp_of_mem ?_ replayed.chronological
      intro earlier later earlierMember laterMember _
      rwa [oldContents earlier earlierMember, oldContents later laterMember]
    · intro earlier member only isOnly old oldMember _ recentMember
      rw [mem_singleton.mp isOnly, ownContents, rebuild_mem] at recentMember
      rw [oldContents earlier member] at oldMember
      have oldItem := (replayed.items old).mp (mem_flatMap.mpr ⟨earlier, member, oldMember⟩)
      have oldBounds := numbered_bounds replayed.numbered oldItem
      have recentBounds := numbered_bounds numbered recentMember
      omega
  · intro item
    have oldItems : item ∈ state.files.flatMap (contents next.table) ↔
        item ∈ state.files.flatMap (contents state.table) := by
      simp only [mem_flatMap]
      exact exists_congr fun old => and_congr_right fun member => by rw [oldContents old member]
    rw [nextFiles, flatMap_append, mem_append, oldItems, replayed.items,
      flatMap_singleton, ownContents, rebuild_mem, flatMap_append, mem_append]

theorem writeLevel0Table_replayed : Replayed before first start (records ++ pending) top
      (state.writeLevel0Table config (rebuild pending)) := by
  by_cases empty : rebuild pending = []
  · exact writeLevel0Table_empty config replayed numbered empty
  · exact writeLevel0Table_filled config replayed numbered empty

end

/-- The greatest sequence number that recovery reports for records up to a top. -/
def highest (records : List (Batch Key Value)) (top : Nat) : Nat := if records = [] then 0 else top

/-- The state of a recovery in the middle of a log: some records are in tables, the
others in the memtable. -/
structure Filling (before : Nat → Option (List (Item Key Value))) (first start : Nat)
    (records : List (Batch Key Value)) (top : Nat)
    (progress : Option (MemTable Key Value) × Recovered Key Value) : Prop where
  split : ∃ written middle pending, records = written ++ pending ∧
    Replayed before first start written middle progress.2 ∧ Numbered middle pending top ∧
    progress.1.getD [] = rebuild pending ∧ (progress.1 = none → pending = [])
  highest : progress.2.maxSequence = highest records top

theorem filling_of_replayed (replayed : Replayed before first start records top state)
    (reached : state.maxSequence = highest records top) :
    Filling before first start records top (none, state) := by
  constructor
  · exact ⟨records, top, [], by simp, replayed, rfl, rfl, fun _ => rfl⟩
  · exact reached

section

variable (config : Config Key Value)
include config

theorem recoverBatch_filling (filling : Filling before first start records top progress)
    (next : batch.sequence = top + 1) :
    Filling before first start (records ++ [batch]) (top + batch.updates.length)
      (recoverBatch config progress batch) := by
  obtain ⟨⟨written, middle, pending, rfl, replayed, numbered, mem, _⟩, reached⟩ := filling
  have inserted : insertInto batch.sequence batch.updates (progress.1.getD []) =
      rebuild (pending ++ [batch]) := by
    rw [mem, rebuild_append]
  have longer : Numbered middle (pending ++ [batch]) (top + batch.updates.length) :=
    numbered_append.mpr ⟨top, numbered, numbered_singleton next⟩
  have bound : progress.2.maxSequence ≤ top := by
    rw [reached, highest]
    split
    · omega
    · exact le_refl _
  have raised : (if progress.2.maxSequence < batch.sequence + batch.updates.length - 1 then
      batch.sequence + batch.updates.length - 1 else progress.2.maxSequence) =
        top + batch.updates.length := by
    split <;> omega
  have moved : Replayed before first start written middle
      { progress.2 with maxSequence := top + batch.updates.length } :=
    replayed_congr replayed rfl (fun _ _ => rfl) le_rfl
  have final : highest (written ++ pending ++ [batch]) (top + batch.updates.length) =
      top + batch.updates.length := by simp [highest]
  simp only [recoverBatch, inserted, raised]
  split
  · apply filling_of_replayed
    · rw [append_assoc]
      exact writeLevel0Table_replayed config moved longer
    · rw [final]
      rfl
  · constructor
    · exact ⟨written, middle, pending ++ [batch], by simp, moved, longer, rfl, nofun⟩
    · exact final.symm

theorem foldl_filling (filling : Filling before first start records top progress)
    (numbered : Numbered top more final) :
    Filling before first start (records ++ more) final
      (more.foldl (recoverBatch config) progress) := by
  induction more generalizing records top progress with
  | nil =>
    obtain rfl : top = final := numbered
    rwa [append_nil]
  | cons batch rest ih =>
    have later := ih (recoverBatch_filling config filling numbered.1) numbered.2
    rwa [append_assoc, singleton_append] at later

variable {logs : Directory (List (Batch Key Value))}

theorem foldl_counter (progress : Option (MemTable Key Value) × Recovered Key Value)
    (records : List (Batch Key Value)) :
    progress.2.nextFileNumber ≤ (records.foldl (recoverBatch config) progress).2.nextFileNumber := by
  induction records generalizing progress with
  | nil => exact le_refl _
  | cons batch rest ih =>
    refine le_trans ?_ (ih (recoverBatch config progress batch))
    simp only [recoverBatch]
    split
    · exact Nat.le_succ _
    · exact le_refl _

theorem recoverLogFile_counter (logs : Directory (List (Batch Key Value)))
    (state : Recovered Key Value) (number : Nat) :
    state.nextFileNumber ≤ (recoverLogFile config logs state number).nextFileNumber ∧
      number < (recoverLogFile config logs state number).nextFileNumber := by
  have grown := foldl_counter config (none, state) ((logs.lookup number).getD [])
  rw [recoverLogFile]
  generalize ((logs.lookup number).getD []).foldl (recoverBatch config) (none, state) = looped at *
  obtain ⟨open_, looped⟩ := looped
  cases open_ with
  | none =>
    have marked := markFileNumberUsed_past looped.nextFileNumber number
    exact ⟨grown.trans marked.1, marked.2⟩
  | some table =>
    have marked := markFileNumberUsed_past (looped.nextFileNumber + 1) number
    exact ⟨(grown.trans (Nat.le_succ _)).trans marked.1, marked.2⟩

section

variable (replayed : Replayed before first start records top state)
  (reached : state.maxSequence = highest records top)
include replayed reached

theorem recoverLogFile_replayed {number : Nat}
    (numbered : Numbered top ((logs.lookup number).getD []) final) :
    Replayed before first start (records ++ (logs.lookup number).getD []) final
        (recoverLogFile config logs state number) ∧
      (recoverLogFile config logs state number).maxSequence =
        highest (records ++ (logs.lookup number).getD []) final := by
  obtain ⟨⟨written, middle, pending, all, replayedToo, numberedToo, mem, flushed⟩, reachedToo⟩ :=
    foldl_filling config (filling_of_replayed replayed reached) numbered
  have marked : ∀ other : Recovered Key Value,
      Replayed before first start (written ++ pending) final other →
      Replayed before first start (written ++ pending) final
        { other with nextFileNumber := markFileNumberUsed other.nextFileNumber number } := by
    intro other done
    apply replayed_congr done
    · rfl
    · exact fun _ _ => rfl
    · exact (markFileNumberUsed_past _ _).1
  rw [all] at reachedToo ⊢
  rw [recoverLogFile]
  generalize ((logs.lookup number).getD []).foldl (recoverBatch config) (none, state) = looped at *
  obtain ⟨open_, looped⟩ := looped
  cases open_ with
  | none =>
    obtain rfl := flushed rfl
    obtain rfl : middle = final := numberedToo
    rw [append_nil] at marked reachedToo ⊢
    exact ⟨marked looped replayedToo, reachedToo⟩
  | some table =>
    obtain rfl : table = rebuild pending := mem
    exact ⟨marked _ (writeLevel0Table_replayed config replayedToo numberedToo), reachedToo⟩

theorem foldl_recoverLogFile {numbers : List Nat}
    (numbered : Numbered top (numbers.flatMap fun number => (logs.lookup number).getD []) final) :
    Replayed before first start
        (records ++ numbers.flatMap fun number => (logs.lookup number).getD []) final
        (numbers.foldl (recoverLogFile config logs) state) ∧
      (numbers.foldl (recoverLogFile config logs) state).maxSequence =
        highest (records ++ numbers.flatMap fun number => (logs.lookup number).getD []) final ∧
      state.nextFileNumber ≤ (numbers.foldl (recoverLogFile config logs) state).nextFileNumber ∧
      ∀ number ∈ numbers,
        number < (numbers.foldl (recoverLogFile config logs) state).nextFileNumber := by
  induction numbers generalizing records top state with
  | nil =>
    obtain rfl : top = final := numbered
    rw [flatMap_nil, append_nil]
    refine ⟨replayed, reached, le_rfl, ?_⟩
    intro number member
    cases member
  | cons number rest ih =>
    rw [flatMap_cons] at numbered ⊢
    obtain ⟨_, own, later⟩ := numbered_append.mp numbered
    obtain ⟨replayedOwn, reachedOwn⟩ := recoverLogFile_replayed config replayed reached own
    obtain ⟨replayedAll, reachedAll, grown, past⟩ := ih replayedOwn reachedOwn later
    obtain ⟨ownGrown, ownPast⟩ := recoverLogFile_counter config logs state number
    rw [append_assoc] at replayedAll reachedAll
    refine ⟨replayedAll, reachedAll, ownGrown.trans grown, ?_⟩
    intro other member
    cases mem_cons.mp member with
    | inl same => exact same ▸ ownPast.trans_le grown
    | inr behind => exact past other behind

end

end

/-- The records that recovery replays. -/
def pendingRecords (versions : VersionSet Key) (logs : Directory (List (Batch Key Value))) :
    List (Batch Key Value) :=
  (logsToRecover versions logs).flatMap fun number => (logs.lookup number).getD []

/-- All records that are to be replayed end up in tables. -/
theorem recoverLogs_replayed (config : Config Key Value)
    (numbered : Numbered start (pendingRecords versions disk.logs) top) :
    Replayed disk.table versions.nextFileNumber start (pendingRecords versions disk.logs) top
        (recoverLogs config disk versions) ∧
      (recoverLogs config disk versions).maxSequence =
        highest (pendingRecords versions disk.logs) top ∧
      versions.nextFileNumber ≤ (recoverLogs config disk versions).nextFileNumber ∧
      ∀ number ∈ logsToRecover versions disk.logs,
        number < (recoverLogs config disk versions).nextFileNumber := by
  have all := foldl_recoverLogFile config
    (replayed_start disk.tables versions.nextFileNumber start) (by simp [highest]) numbered
  rwa [nil_append] at all

end

end CodeReading.Leveldb
