import CodeReading.Leveldb.FileManager
import CodeReading.Leveldb.ValidSteps

/-!
# What the threads keep

What `RemoveObsoleteFiles` has listed stays obsolete until it is removed. The version list
only gets shorter meanwhile, nothing stops being pending, and the number of the log does not
change, since only the background thread does these things. A log is retired by the edit
that installs the table made from it.
-/

namespace CodeReading.Leveldb

open List AList Nat

variable {Key Value : Type}

namespace FileManager

section

variable [Inhabited Value]

/-- The records of a log are among the items, except for those of failed writes. -/
def Covered (logs : Directory (List (Batch Key Value))) (failedWrites : List (Batch Key Value))
    (number : Nat) (items : List (Item Key Value)) : Prop :=
  ∀ batch ∈ (logs.lookup number).getD [], batch ∉ failedWrites →
    ∀ item ∈ batch.items, item ∈ items

variable {logs : Directory (List (Batch Key Value))} {failedWrites : List (Batch Key Value)}
  {number : Nat}

theorem covered_mono (covered : Covered logs failedWrites number items)
    (included : ∀ item ∈ items, item ∈ more) :
    Covered logs failedWrites number more := fun batch member succeeded item inside =>
  included item (covered batch member succeeded item inside)

theorem covered_none (absent : logs.lookup number = none) :
    Covered logs failedWrites number items := by
  intro _ member
  rw [absent] at member
  exact absurd member not_mem_nil

theorem covered_insert (different : number ≠ other)
    (covered : Covered logs failedWrites number items) (records : List (Batch Key Value)) :
    Covered (logs.insert other records) failedWrites number items := by
  intro batch member
  rw [lookup_insert_ne different] at member
  exact covered batch member

theorem covered_erase (covered : Covered logs failedWrites number items) (other : Nat) :
    Covered (logs.erase other) failedWrites number items := by
  by_cases same : number = other
  · apply covered_none
    rw [same, lookup_erase]
  · intro batch member
    rw [lookup_erase_ne same] at member
    exact covered batch member

/-- A record is appended to a log. It is covered, or its write fails. -/
theorem covered_append (covered : Covered logs failedWrites number items)
    (grown : ∀ item ∈ items, item ∈ more) (failed : ∀ old ∈ failedWrites, old ∈ moreFailed)
    (new : batch ∉ moreFailed → ∀ item ∈ batch.items, item ∈ more) :
    Covered (logs.insert number ((logs.lookup number).getD [] ++ [batch])) moreFailed number
      more := by
  intro other member succeeded
  rw [lookup_insert, Option.getD_some] at member
  cases mem_append.mp member with
  | inl old =>
    intro item inside
    exact grown item (covered other old (fun before => succeeded (failed other before)) item inside)
  | inr last =>
    rw [mem_singleton.mp last] at succeeded ⊢
    exact new succeeded

end

variable [LinearOrder Key]

section

/-- The items of a memtable are in order. Equal keys are possible here. -/
def Ordered (mem : MemTable Key Value) : Prop :=
  mem.Pairwise fun left right => left.key ≤ right.key

/-- The names of versions are given out in order, and one of them is that of the current
version. -/
structure Named (nodes : List (Node (Version Key))) (nextId currentId : Nat)
    (current : Version Key) : Prop where
  fresh : ∀ node ∈ nodes, node.id < nextId
  current : ∀ node ∈ nodes, node.id = currentId → node.payload = current

variable [Inhabited Value]

section

variable (manager : FileManager Key Value)

/-- What holds wherever the background thread is. A compaction has numbers of its own for its
outputs and leaves the log number alone. The logs up to that number are in tables, those up to
the log in use are in the immutable memtable, and the log in use is in the memtable. -/
structure Kept : Prop where
  counted : Node.Counted manager.nodes manager.holders
  named : Named manager.nodes manager.nextId manager.currentId manager.db.versions.current
  pending : ∀ running ∈ manager.db.running, ∀ output ∈ running.work.allOutputs,
    output.number ∈ manager.pendingOutputs
  allotted : ∀ running ∈ manager.db.running,
    Allotted 0 { running.work with nextFileNumber := manager.db.versions.nextFileNumber }
  pointer : ∀ running ∈ manager.db.running, ∃ key,
    running.compaction.edit = VersionEdit.empty.setCompactPointer running.compaction.level key
  mem : Ordered manager.db.mem
  imm : Ordered (manager.db.imm.getD [])
  order : manager.db.versions.logNumber ≤ manager.db.logfileNumber
  next : manager.db.logfileNumber < manager.db.versions.nextFileNumber
  noLater : ∀ number, manager.db.logfileNumber < number →
    manager.db.disk.logs.lookup number = none
  retired : ∀ number < manager.db.versions.logNumber,
    Covered manager.db.disk.logs manager.failedWrites number manager.installed
  waiting : ∀ number, manager.db.versions.logNumber ≤ number →
    number < manager.db.logfileNumber →
      Covered manager.db.disk.logs manager.failedWrites number (manager.db.imm.getD [])
  active : Covered manager.db.disk.logs manager.failedWrites manager.db.logfileNumber
    manager.db.mem

/-- The logs that the last edit retired are in tables of the current version. -/
def Retired : Prop :=
  ∀ number, manager.formerLogNumber ≤ number → number < manager.db.versions.logNumber →
    Covered manager.db.disk.logs manager.failedWrites number
      (manager.db.versions.current.items manager.db.disk.tables)

/-- What holds at the place where the background thread is. -/
def AtPosition : Prop :=
  match manager.position with
  | .idle => manager.db.running = none
  | .merging => True
  | .building number _ =>
      ∀ running ∈ manager.db.running, ∀ output ∈ running.work.allOutputs, output.number ≠ number
  | .logging edit .flush =>
      edit.logNumber = some manager.db.logfileNumber ∧
        ∃ imm, manager.db.imm = some imm ∧ ∀ item ∈ imm, item ∈
          (manager.db.versions.current.applyEdit edit).items manager.db.disk.tables
  | .logging edit .compaction | .logging edit .move =>
      edit.logNumber = some manager.db.versions.logNumber
  | .deleting files => (∀ file ∈ files, manager.keeps file = false) ∧ manager.Retired

/-- What every step keeps. Only a compaction holds its inputs. -/
structure Managed : Prop extends Kept manager where
  inputs : manager.inputId.isSome → manager.db.running.isSome ∨
    ∃ edit, manager.position = .logging edit .move
  atPosition : manager.AtPosition

end

end

section

variable {version : Version Key}

theorem applyEdit_adds
    (noneDeleted : edit.deletedAt level = []) (distinct : DistinctNumbers (edit.addedAt level))
    (added : file ∈ edit.addedAt level) : file ∈ (version.applyEdit edit).files level := by
  have builder : Builder.empty.apply edit level = (⟨[], []⟩ : LevelState Key).apply []
      (edit.addedAt level) := by
    rw [Builder.apply, noneDeleted]
    rfl
  rw [Version.applyEdit, Builder.saveTo]
  simp only
  rw [saveLevel_mem, builder]
  constructor
  · apply Or.inr
    rw [apply_added _ _ _ distinct (fun _ _ _ member => absurd member not_mem_nil)]
    exact Or.inr added
  · intro deleted
    rw [apply_deleted] at deleted
    obtain ⟨nowhere, _⟩ := deleted
    cases nowhere with
    | inl before => cases before
    | inr now => cases now

theorem items_mem {number : Nat} (member : number ∈ version.numbers)
    (stored : tables.lookup number = some items) (inside : item ∈ items) :
    item ∈ version.items tables :=
  mem_flatMap.mpr ⟨number, member, by rw [stored]; exact inside⟩

/-- A table that the version does not have is not missed in it. -/
theorem items_erase {number : Nat} (foreign : number ∉ version.numbers)
    (tables : Directory (List (Item Key Value))) :
    version.items (tables.erase number) = version.items tables := by
  rw [Version.items, Version.items]
  apply flatMap_congr
  intro other member
  have different : other ≠ number := fun same => foreign (same ▸ member)
  rw [lookup_erase_ne different]

theorem insertInto_ordered [Inhabited Value] (ordered : Ordered mem) (sequence : Nat)
    (updates : List (Update Key Value)) : Ordered (insertInto sequence updates mem) := by
  rw [insertInto]
  generalize (number sequence updates).map Entry.item = items
  induction items generalizing mem with
  | nil => exact ordered
  | cons item items ih => exact ih (add_ordered item ordered)

theorem insertInto_mem {sequence : Nat} [Inhabited Value] :
    item ∈ insertInto sequence updates mem ↔
      item ∈ mem ∨ item ∈ (⟨sequence, updates⟩ : Batch Key Value).items := by
  rw [(insertInto_perm sequence updates mem).mem_iff, mem_append]
  rfl

theorem buildTable_ordered (config : Config Key Value) (tables : Directory (List (Item Key Value)))
    (number : Nat) (ordered : Ordered mem) (member : item ∈ mem) : ∃ file, file.number = number ∧
      buildTable config tables number mem = (some file, tables.insert number mem) := by
  cases mem with
  | nil => cases member
  | cons first rest =>
    obtain ⟨last, isLast⟩ : ∃ last, (first :: rest).getLast? = some last :=
      ⟨_, getLast?_eq_some_getLast (cons_ne_nil _ _)⟩
    have bounded : first.key ≤ last.key := by
      have lastMember := mem_of_getLast? isLast
      cases mem_cons.mp lastMember with
      | inl same => exact le_of_eq (congrArg Item.key same.symm)
      | inr later => exact (pairwise_cons.mp ordered).1 last later
    refine ⟨⟨number, config.format.fileSize (first :: rest), first.key, last.key, bounded⟩, rfl, ?_⟩
    rw [buildTable, tableMetaData, isLast]
    simp [dif_pos bounded]

end

section

variable {manager : FileManager Key Value} {number : Nat}

theorem current_live (counted : Node.Counted manager.nodes manager.holders)
    (named : Named manager.nodes manager.nextId manager.currentId manager.db.versions.current)
    (member : number ∈ manager.db.versions.current.numbers) : number ∈ manager.addLiveFiles := by
  obtain ⟨node, inside, isCurrent⟩ := counted.listed manager.currentId (.head _)
  refine mem_flatMap.mpr ⟨node, inside, ?_⟩
  rw [named.current node inside isCurrent]
  exact member

/-- What is not kept stays so as long as nothing becomes live. -/
theorem keeps_congr {other : FileManager Key Value}
    (logNumber : other.db.versions.logNumber = manager.db.versions.logNumber)
    (prevLogNumber : other.db.versions.prevLogNumber = manager.db.versions.prevLogNumber)
    (manifest : other.manifestFileNumber = manager.manifestFileNumber)
    (pending : other.pendingOutputs = manager.pendingOutputs)
    (live : ∀ number ∈ other.addLiveFiles, number ∈ manager.addLiveFiles)
    (unwanted : manager.keeps file = false) : other.keeps file = false := by
  have obsolete : ∀ number ∉ manager.pendingOutputs ++ manager.addLiveFiles,
      number ∉ other.pendingOutputs ++ other.addLiveFiles := by
    intro number absent present
    apply absent
    rw [mem_append] at present ⊢
    rw [pending] at present
    exact present.imp_right (live number)
  cases file with
  | log number =>
    simp only [keeps, VersionSet.needsLog] at unwanted ⊢
    rw [logNumber, prevLogNumber]
    exact unwanted
  | descriptor number =>
    simp only [keeps] at unwanted ⊢
    rw [manifest]
    exact unwanted
  | table number | temp number =>
    simp only [keeps, decide_eq_false_iff_not] at unwanted ⊢
    exact obsolete number unwanted
  | other => cases unwanted

theorem keeps_log (unwanted : manager.keeps (.log number) = false) :
    number < manager.db.versions.logNumber := by
  simp only [keeps, VersionSet.needsLog, Bool.or_eq_false_iff, decide_eq_false_iff_not] at unwanted
  omega

variable {nodes : List (Node (Version Key))}

theorem copies_live (copies : Node.Copies manager.nodes nodes)
    (member : number ∈ nodes.flatMap fun node => node.payload.numbers) :
    number ∈ manager.addLiveFiles := by
  obtain ⟨node, inside, inPayload⟩ := mem_flatMap.mp member
  obtain ⟨old, oldInside, _, samePayload⟩ := copies node inside
  exact mem_flatMap.mpr ⟨old, oldInside, samePayload ▸ inPayload⟩

section

variable {nextId currentId : Nat} {current : Version Key}

section

variable (named : Named nodes nextId currentId current)
include named

theorem copies_named (copies : Node.Copies nodes others) :
    Named others nextId currentId current := by
  constructor
  · intro node member
    obtain ⟨old, inside, sameId, _⟩ := copies node member
    exact sameId ▸ named.fresh old inside
  · intro node member isCurrent
    obtain ⟨old, inside, sameId, samePayload⟩ := copies node member
    exact samePayload ▸ named.current old inside (sameId.trans isCurrent)

theorem append_named (version : Version Key) :
    Named (nodes ++ [⟨nextId, version, 1⟩]) (nextId + 1) nextId version := by
  constructor
  · intro node member
    cases mem_append.mp member with
    | inl old => exact lt_succ_of_lt (named.fresh node old)
    | inr new =>
      rw [mem_singleton.mp new]
      exact lt_succ_self _
  · intro node member isNew
    cases mem_append.mp member with
    | inl old => exact absurd isNew (Nat.ne_of_lt (named.fresh node old))
    | inr new => rw [mem_singleton.mp new]

end

end

end

section

variable [Inhabited Value] {manager : FileManager Key Value}

/-- The other threads leave alone what the background thread works on. -/
structure Undisturbed (manager other : FileManager Key Value) : Prop where
  position : other.position = manager.position := by rfl
  running : other.db.running = manager.db.running := by rfl
  current : other.db.versions.current = manager.db.versions.current := by rfl
  logNumber : other.db.versions.logNumber = manager.db.versions.logNumber := by rfl
  prevLogNumber : other.db.versions.prevLogNumber = manager.db.versions.prevLogNumber := by rfl
  former : other.formerLogNumber = manager.formerLogNumber := by rfl
  tables : other.db.disk.tables = manager.db.disk.tables := by rfl
  manifest : other.manifestFileNumber = manager.manifestFileNumber := by rfl
  pending : other.pendingOutputs = manager.pendingOutputs := by rfl
  waiting : manager.db.imm.isSome → other.db.logfileNumber = manager.db.logfileNumber ∧
    other.db.imm = manager.db.imm
  live : ∀ number ∈ other.addLiveFiles, number ∈ manager.addLiveFiles
  covered : ∀ number < manager.db.versions.logNumber, ∀ items,
    Covered manager.db.disk.logs manager.failedWrites number items →
      Covered other.db.disk.logs other.failedWrites number items

theorem atPosition_congr {other : FileManager Key Value} (holds : manager.AtPosition)
    (same : Undisturbed manager other) : other.AtPosition := by
  rw [AtPosition] at holds ⊢
  rw [same.position]
  cases isPosition : manager.position with
  | idle =>
    rw [isPosition] at holds
    exact same.running.trans holds
  | merging => trivial
  | building number base =>
    rw [isPosition] at holds
    simp only at holds ⊢
    rw [same.running]
    exact holds
  | logging edit purpose =>
    rw [isPosition] at holds
    cases purpose with
    | flush =>
      obtain ⟨retires, imm, isImm, stored⟩ := holds
      obtain ⟨sameLogfile, sameImm⟩ := same.waiting (by rw [isImm]; rfl)
      refine ⟨by rw [sameLogfile]; exact retires, imm, sameImm.trans isImm, ?_⟩
      rw [same.current, same.tables]
      exact stored
    | compaction | move =>
      simp only at holds ⊢
      rw [same.logNumber]
      exact holds
  | deleting files =>
    rw [isPosition] at holds
    constructor
    · intro file member
      exact keeps_congr same.logNumber same.prevLogNumber same.manifest same.pending same.live
        (holds.1 file member)
    · intro number late early
      rw [same.former] at late
      rw [same.logNumber] at early
      rw [same.current, same.tables]
      exact same.covered number early _ (holds.2 number late early)

section

variable (managed : Managed manager)
include managed

theorem bgError_managed (bgError : Bool) : Managed { manager with bgError := bgError } :=
  { managed with }

/-- A record goes to the log, and its items to the memtable unless the write fails. -/
theorem record_managed (batch : Batch Key Value) {failedWrites : List (Batch Key Value)}
    (ordered : Ordered mem) (grown : ∀ item ∈ manager.db.mem, item ∈ mem)
    (failed : ∀ old ∈ manager.failedWrites, old ∈ failedWrites)
    (new : batch ∉ failedWrites → ∀ item ∈ batch.items, item ∈ mem) : Managed { manager with
      db := { manager.db with
        disk := { manager.db.disk with
          logs := manager.db.disk.logs.insert manager.db.logfileNumber
            ((manager.db.disk.logs.lookup manager.db.logfileNumber).getD [] ++ [batch]) }
        versions := { manager.db.versions with lastSequence := lastSequence }
        mem := mem }
      failedWrites := failedWrites } := by
  have other : ∀ number < manager.db.logfileNumber, ∀ items,
      Covered manager.db.disk.logs manager.failedWrites number items →
        Covered (manager.db.disk.logs.insert manager.db.logfileNumber
          ((manager.db.disk.logs.lookup manager.db.logfileNumber).getD [] ++ [batch])) failedWrites
          number items := by
    intro number early items covered
    apply covered_insert (Nat.ne_of_lt early)
    intro record member succeeded
    exact covered record member fun before => succeeded (failed record before)
  exact
    { managed with
      mem := ordered
      noLater := by
        intro number later
        rw [lookup_insert_ne (ne_of_gt later)]
        exact managed.noLater number later
      retired := fun number early =>
        other number (early.trans_le managed.order) _ (managed.retired number early)
      waiting := fun number late early => other number early _ (managed.waiting number late early)
      active := covered_append managed.active grown failed new
      atPosition :=
        atPosition_congr managed.atPosition
          { waiting := fun _ => ⟨rfl, rfl⟩
            live := fun _ member => member
            covered := fun number early => other number (early.trans_le managed.order) } }

theorem failWrite_managed (updates : List (Update Key Value)) (left : Bool) :
    Managed (manager.failWrite updates left) := by
  cases left with
  | false => exact { managed with }
  | true =>
    refine record_managed managed _ managed.mem (fun _ member => member)
      (fun _ old => mem_append_left _ old) ?_
    intro succeeded
    exact absurd (mem_append_right _ (mem_singleton_self _)) succeeded

theorem write_managed (updates : List (Update Key Value)) (outcome : WriteOutcome) :
    Managed (manager.write updates outcome) := by
  cases outcome with
  | ok =>
    refine record_managed managed _ (insertInto_ordered managed.mem _ _) ?_
      (fun _ old => old) ?_
    · intro item member
      exact insertInto_mem.mpr (Or.inl member)
    · intro _ item member
      exact insertInto_mem.mpr (Or.inr member)
  | failed left => exact failWrite_managed managed updates left
  | syncFailed => exact bgError_managed (failWrite_managed managed updates true) true

/-- The memtable becomes immutable, and its log is no longer the one in use. -/
theorem newLog_managed (without : manager.db.imm = none) :
    Managed { manager with db := manager.db.switchMemTable } := by
  have next := managed.next
  have order := managed.order
  have before : ∀ number < manager.db.versions.nextFileNumber, ∀ items,
      Covered manager.db.disk.logs manager.failedWrites number items →
        Covered manager.db.switchMemTable.disk.logs manager.failedWrites number items :=
    fun number early _ covered => covered_insert (Nat.ne_of_lt early) covered _
  exact
    { managed with
      allotted := fun running isRunning =>
        allotted_congr (managed.allotted running isRunning) rfl (le_succ _)
      mem := List.Pairwise.nil
      imm := managed.mem
      order := order.trans next.le
      next := lt_succ_self _
      noLater := fun number later =>
        (lookup_insert_ne (ne_of_gt later)).trans
          (managed.noLater number (next.trans later))
      retired := fun number early =>
        before number (early.trans_le (order.trans next.le)) _ (managed.retired number early)
      waiting := by
        intro number late early
        apply before number early
        obtain older | rfl | newer := lt_trichotomy number manager.db.logfileNumber
        · apply covered_mono (managed.waiting number late older)
          intro _ member
          rw [without] at member
          exact absurd member not_mem_nil
        · exact managed.active
        · exact covered_none (managed.noLater number newer)
      active := by
        intro _ member
        rw [Db.switchMemTable, lookup_insert] at member
        exact absurd member not_mem_nil
      atPosition :=
        atPosition_congr managed.atPosition
          { waiting := fun waits => by rw [without] at waits; cases waits
            live := fun _ member => member
            covered := fun number early => before number (early.trans_le (order.trans next.le)) } }

theorem switchMemTable_managed (without : manager.db.imm = none) (outcome : SwitchOutcome) :
    Managed (manager.switchMemTable outcome) := by
  cases outcome with
  | ok => exact newLog_managed managed without
  | createFailed => exact managed
  | closeFailed => exact bgError_managed (newLog_managed managed without) true

theorem refVersion_managed : Managed { manager with
      nodes := Node.ref manager.currentId manager.nodes
      readers := manager.currentId :: manager.readers } :=
  { managed with
    counted := Node.counted_perm (Node.ref_counted managed.counted (.head _))
      (List.Perm.refl _)
    named := copies_named managed.named Node.ref_copies
    atPosition :=
      atPosition_congr managed.atPosition
        { waiting := fun _ => ⟨rfl, rfl⟩
          live := fun _ member => copies_live Node.ref_copies member
          covered := fun _ _ _ covered => covered } }

theorem unrefVersion_managed {id : Nat} (holds : id ∈ manager.readers) : Managed { manager with
      nodes := Node.unref id manager.nodes
      readers := manager.readers.erase id } :=
  { managed with
    counted := by
      apply Node.release_counted managed.counted
      have readers := perm_cons_erase holds
      exact (((readers.append_right _).append_right _).cons _).trans (List.Perm.swap _ _ _)
    named := copies_named managed.named Node.unref_copies
    atPosition :=
      atPosition_congr managed.atPosition
        { waiting := fun _ => ⟨rfl, rfl⟩
          live := fun _ member => copies_live Node.unref_copies member
          covered := fun _ _ _ covered => covered } }

end

end

end FileManager

end CodeReading.Leveldb
