import CodeReading.Leveldb.ManagedFiles

/-!
# The background thread

What the background thread does between two places where it gives up the mutex. A flush takes
a number and a reference to the current version, and gives both back. A compaction holds the
version that it reads, and the numbers of its outputs stay pending until it is over. Each of
them may end with an edit, and after that files are removed.
-/

namespace CodeReading.Leveldb

open Option List Node VersionSet

namespace FileManager

variable {Key Value : Type} [LinearOrder Key] [Inhabited Value] {manager : FileManager Key Value}

section

omit [Inhabited Value] in
theorem resume_base : manager.resume.base = none := by
  rw [resume]
  split
  · rfl
  · rfl

theorem position_kept (kept : Kept manager) (position : Position Key)
    (same : position.base = manager.position.base) : Kept { manager with position := position } :=
  { kept with
    counted := by
      have counted := kept.counted
      rw [holders, ← same] at counted
      exact counted }

section

variable (kept : Kept manager) (base : manager.position.base = none)
  (inputs : manager.inputId.isSome → manager.db.running.isSome)
include kept base inputs

/-- The background thread goes on where it was, or has nothing more to do. -/
theorem resume_managed : Managed { manager with position := manager.resume } :=
  { position_kept kept manager.resume (resume_base.trans base.symm) with
    inputs := fun holds => Or.inl (inputs holds)
    atPosition := by
      rw [AtPosition, resume]
      simp only
      by_cases isRunning : manager.db.running.isSome
      · rw [if_pos isRunning]
        trivial
      · rw [if_neg isRunning]
        exact not_isSome_iff_eq_none.mp isRunning }

theorem deleteNext_managed (retired : manager.Retired)
    (unwanted : ∀ file ∈ files, manager.keeps file = false) :
    Managed (manager.deleteNext files) := by
  rw [deleteNext]
  split
  · exact resume_managed kept base inputs
  · exact
      { position_kept kept (.deleting files) base.symm with
        inputs := fun holds => Or.inl (inputs holds)
        atPosition := ⟨unwanted, retired⟩ }

theorem removeObsoleteFiles_managed (retired : manager.Retired) (children : List FileName) :
    Managed (manager.removeObsoleteFiles children) := by
  rw [removeObsoleteFiles]
  split
  · exact resume_managed kept base inputs
  · apply deleteNext_managed kept base inputs retired
    intro _ mem
    exact Bool.not_eq_true' _ ▸ (mem_filter.mp mem).2

end

end

section

theorem startFlush_managed (managed : Managed manager) (base : manager.position.base = none)
    (settled : ∀ edit, manager.position ≠ .logging edit .move) : Managed manager.startFlush :=
  { managed with
    counted := by
      have counted := ref_counted managed.counted (.head _)
      rw [holders, base] at counted
      apply counted_perm counted
      rw [toList_none, append_nil]
      exact (perm_append_singleton _ _).symm.cons _
    named := copies_named managed.named ref_copies
    pending := fun running isRunning output mem =>
      mem_append_left _ (managed.pending running isRunning output mem)
    allotted := fun running isRunning =>
      allotted_congr (managed.allotted running isRunning) rfl (Nat.le_succ _)
    next := Nat.lt_succ_of_lt managed.next
    inputs := by
      intro holds
      cases managed.inputs holds with
      | inl isRunning => exact Or.inl isRunning
      | inr moving =>
        obtain ⟨edit, isMoving⟩ := moving
        exact absurd isMoving (settled edit)
    atPosition := fun running isRunning output mem =>
      Nat.ne_of_lt ((managed.allotted running isRunning).taken output mem).2 }

theorem released_kept (managed : Managed manager) {number base : Nat}
    (building : manager.position = .building number base)
    (tables : Directory (List (Item Key Value))) (bgError : Bool) (position : Position Key)
    (elsewhere : position.base = none) :
    Kept { manager with
      nodes := Node.unref base manager.nodes
      pendingOutputs := manager.pendingOutputs.filter fun other => decide (other ≠ number)
      db := { manager.db with disk := { manager.db.disk with tables := tables } }
      bgError := bgError
      position := position } :=
  { managed with
    counted := by
      apply release_counted managed.counted
      rw [holders, building, holders, elsewhere]
      simp only [Position.base, toList_none, toList_some, append_nil]
      exact ((perm_append_singleton _ _).cons _).trans (List.Perm.swap _ _ _)
    named := copies_named managed.named unref_copies
    pending := by
      intro running isRunning output mem
      have others := managed.atPosition
      rw [AtPosition, building] at others
      exact mem_filter.mpr ⟨managed.pending running isRunning output mem,
        decide_eq_true (others running isRunning output mem)⟩ }

omit [Inhabited Value] in
/-- The table of a flush is in the version that its edit makes. -/
theorem flushEdit_items (config : Config Key Value) (versions : VersionSet Key)
    (tables : Directory (List (Item Key Value))) (logfileNumber number : Nat)
    (ordered : Ordered imm) (mem : item ∈ imm) :
    item ∈ (versions.current.applyEdit (versions.complete (flushEdit config.options versions.current
      logfileNumber (buildTable config tables number imm).1))).items
        (buildTable config tables number imm).2 := by
  obtain ⟨file, rfl, built⟩ := buildTable_ordered config tables number ordered mem
  rw [built]
  simp only
  let edit := versions.complete
    (flushEdit config.options versions.current logfileNumber (some file))
  let level := flushLevel config.options versions.current (some file)
  have added : edit.addedAt level = [file] :=
    (addedAt_target (flushEdit_newFiles config.options versions.current logfileNumber (some file))
      _).trans (if_pos rfl)
  have placed : file ∈ (versions.current.applyEdit edit).files level := by
    apply applyEdit_adds
    · exact flushEdit_deletedAt config.options versions.current logfileNumber (some file) _
    · rw [added]
      exact List.pairwise_singleton _ _
    · rw [added]
      exact List.mem_singleton_self _
  have shallow : level < kNumLevels := (pickLevel_le _ _ _ _).trans_lt (by decide)
  exact items_mem (numbers_mem shallow placed) (AList.lookup_insert _) mem

/-- Outside a move the inputs are those of a running compaction. -/
theorem inputs_running (managed : Managed manager)
    (still : ∀ edit, manager.position ≠ .logging edit .move) :
    manager.inputId.isSome → manager.db.running.isSome := by
  intro holds
  refine (managed.inputs holds).resolve_right ?_
  rintro ⟨edit, isMoving⟩
  exact still edit isMoving

theorem endBuild_managed (config : Config Key Value) (managed : Managed manager)
    {number base : Nat} (building : manager.position = .building number base)
    (isImm : manager.db.imm = some imm) (built : Bool)
    (left : Option (List (Item Key Value))) :
    Managed (manager.endBuild config number base imm built left) := by
  have inputs := inputs_running managed (by rw [building]; exact fun _ => nofun)
  have ordered : Ordered imm := by
    have ordered := managed.imm
    rw [isImm] at ordered
    exact ordered
  cases built with
  | true =>
    exact
      { released_kept managed building (buildTable config manager.db.disk.tables number imm).2
          manager.bgError _ rfl with
        inputs := fun holds => Or.inl (inputs holds)
        atPosition := ⟨rfl, imm, isImm, fun _ mem =>
          flushEdit_items config manager.db.versions _ _ _ ordered mem⟩ }
  | false => exact resume_managed (released_kept managed building _ true .idle rfl) rfl inputs

end

section

theorem cleanupCompaction_kept (kept : Kept manager) (base : manager.position.base = none) :
    Kept manager.cleanupCompaction := by
  have counted := kept.counted
  rw [holders, base] at counted
  have released : Node.Counted manager.cleanupCompaction.nodes
      manager.cleanupCompaction.holders := by
    rw [cleanupCompaction, holders]
    simp only
    cases isInput : manager.inputId with
    | none =>
      rw [isInput] at counted
      exact counted
    | some id =>
      rw [isInput] at counted
      apply release_counted counted
      simp only [Position.base, toList_none, toList_some, append_nil]
      exact ((perm_append_singleton _ _).cons _).trans (List.Perm.swap _ _ _)
  have names : Named manager.cleanupCompaction.nodes manager.nextId manager.currentId
      manager.db.versions.current := by
    rw [cleanupCompaction]
    simp only
    cases manager.inputId with
    | none => exact kept.named
    | some id => exact copies_named kept.named unref_copies
  exact
    { kept with
      counted := released
      named := names
      pending := fun _ isRunning => nomatch isRunning
      allotted := fun _ isRunning => nomatch isRunning
      pointer := fun _ isRunning => nomatch isRunning }

theorem cleanupCompaction_managed (kept : Kept manager) (base : manager.position.base = none) :
    Managed manager.cleanupCompaction :=
  { cleanupCompaction_kept kept base with
    inputs := fun holds => nomatch holds
    atPosition := rfl }

/-- A compaction that is picked holds the current version. -/
theorem picked_kept (managed : Managed manager) (idle : manager.position = .idle)
    (compaction : Compaction Key) {position : Position Key} (elsewhere : position.base = none) :
    Kept { manager with
      db := manager.db.pointed compaction
      nodes := Node.ref manager.currentId manager.nodes
      inputId := some manager.currentId
      position := position } := by
  have without : manager.db.running = none := by
    have holds := managed.atPosition
    rw [AtPosition, idle] at holds
    exact holds
  have noInput : manager.inputId = none := by
    by_contra holds
    cases managed.inputs (ne_none_iff_isSome.mp holds) with
    | inl isRunning =>
      rw [without] at isRunning
      cases isRunning
    | inr moving =>
      obtain ⟨_, isMoving⟩ := moving
      rw [idle] at isMoving
      cases isMoving
  exact
    { managed with
      counted := by
        have counted := ref_counted managed.counted (.head _)
        rw [holders, idle, noInput] at counted
        apply counted_perm counted
        rw [holders, elsewhere]
        simp only [Position.base, toList_none, toList_some, append_nil]
        exact (perm_append_singleton _ _).symm.cons _
      named := copies_named managed.named ref_copies }

section

variable (config : Config Key Value) (managed : Managed manager)
include config managed

variable {next : FileManager Key Value}

theorem startCompaction_managed (idle : manager.position = .idle) {request : Request Key}
    (started : manager.startCompaction config request fault = some next) : Managed next := by
  rw [startCompaction] at started
  split at started
  · cases started
    exact managed
  · rename_i compaction found
    obtain ⟨key, pointer⟩ := (request_drawn found).pointer
    split at started
    · cases started
      have silent : (moveEdit compaction).logNumber = none := by
        rw [moveEdit]
        split
        · simp only [VersionEdit.addFile, VersionEdit.removeFile, pointer]
          rfl
        · rw [pointer]
          rfl
      exact
        { picked_kept managed idle compaction rfl with
          inputs := fun _ => Or.inr ⟨_, rfl⟩
          atPosition := by
            rw [AtPosition, startLogging]
            simp only [complete, silent]
            rfl }
    · obtain ⟨_, _, rfl⟩ := map_eq_some_iff.mp started
      exact
        { picked_kept managed idle compaction rfl with
          pending := by
            rintro _ ⟨⟩ _ mem
            cases mem
          allotted := by
            rintro _ ⟨⟩
            exact allotted_congr (allotted_start compaction 0) rfl (Nat.zero_le _)
          pointer := by
            rintro _ ⟨⟩
            exact ⟨key, pointer⟩
          inputs := fun _ => Or.inl rfl
          atPosition := trivial }

variable {running : Running Key Value}

section

variable (merging : manager.position = .merging) (isRunning : manager.db.running = some running)
include merging isRunning

/-- The outputs of a turn are pending. -/
theorem turn_managed
    (turned : manager.turn config running item rest = some next) : Managed next := by
  rw [turn] at turned
  obtain ⟨db, worked, rfl⟩ := map_eq_some_iff.mp turned
  rw [Db.turn] at worked
  obtain ⟨_, made⟩ := ite_none_right_eq_some.mp worked
  cases made
  let work := running.turn config manager.db.versions.nextFileNumber item
  have after : Allotted 0 work := turn_allotted (managed.allotted running isRunning) item
  obtain ⟨grown, numbers⟩ : manager.db.versions.nextFileNumber ≤ work.nextFileNumber ∧
      ∀ output ∈ work.allOutputs,
        (∃ old ∈ running.work.allOutputs, old.number = output.number) ∨
          manager.db.versions.nextFileNumber ≤ output.number :=
    turn_numbers { running.work with nextFileNumber := manager.db.versions.nextFileNumber } item
  exact
    { managed with
      pending := by
        rintro _ ⟨⟩ output mem
        rw [mem_append]
        cases numbers output mem with
        | inl known =>
          obtain ⟨old, oldMember, same⟩ := known
          exact Or.inl (same ▸ managed.pending running isRunning old oldMember)
        | inr new =>
          have below := (after.taken output mem).2
          exact Or.inr (mem_range'_1.mpr ⟨new, below.trans_eq (Nat.add_sub_cancel' grown).symm⟩)
      allotted := by
        rintro _ ⟨⟩
        exact after
      pointer := by
        rintro _ ⟨⟩
        exact managed.pointer running isRunning
      next := managed.next.trans_le grown
      inputs := fun _ => Or.inl rfl
      atPosition := by
        rw [AtPosition]
        simp only
        rw [merging]
        trivial }

theorem endCompaction_managed : Managed (manager.startLogging
      (installEdit config.format running.compaction running.work.finishOutput) .compaction) := by
  obtain ⟨_, pointer⟩ := managed.pointer running isRunning
  obtain ⟨_, silent, _⟩ := installEdit_fields pointer config.format running.work.finishOutput
  exact
    { position_kept managed.toKept (.logging _ .compaction) (by rw [merging]; rfl) with
      inputs := fun _ => Or.inl (by rw [startLogging, isRunning]; rfl)
      atPosition := by
        rw [AtPosition, startLogging]
        simp only [complete, silent]
        rfl }

end

end

end

section

variable {edit : VersionEdit Key}

/-- An edit is installed. The logs that it retires have to be in tables of its version. -/
theorem endLogging_kept (kept : Kept manager) {logNumber : Nat}
    (sets : edit.logNumber = some logNumber) (later : manager.db.versions.logNumber ≤ logNumber)
    (bounded : logNumber ≤ manager.db.logfileNumber)
    (retires : ∀ number, manager.db.versions.logNumber ≤ number → number < logNumber → Covered
      manager.db.disk.logs manager.failedWrites number ((manager.db.versions.current.applyEdit
      edit).items manager.db.disk.tables)) :
    Kept (manager.endLogging edit true) ∧ (manager.endLogging edit true).Retired := by
  have logNumber_eq : (manager.db.versions.apply edit).logNumber = logNumber := by
    rw [apply, sets]
    rfl
  have released := release_counted kept.counted (List.Perm.refl _)
  have names : Named (unref manager.currentId manager.nodes) manager.nextId manager.currentId
      manager.db.versions.current := copies_named kept.named unref_copies
  constructor
  · exact
      { kept with
        counted := append_counted released
          (fun node mem => Nat.ne_of_lt (names.fresh node mem)) _
        named := append_named names _
        order := logNumber_eq.trans_le bounded
        retired := by
          intro number early
          rw [endLogging] at early ⊢
          simp only [if_true] at early ⊢
          rw [logNumber_eq] at early
          by_cases old : number < manager.db.versions.logNumber
          · exact covered_mono (kept.retired number old) fun item mem => mem_append_left _ mem
          · exact covered_mono (retires number (by omega) early) fun item mem =>
              mem_append_right _ mem
        waiting := fun number late early =>
          kept.waiting number (later.trans (logNumber_eq.symm.trans_le late)) early }
  · intro number late early
    exact retires number late (early.trans_eq logNumber_eq)

/-- Without an immutable memtable no log waits. -/
theorem withoutImm_kept (kept : Kept manager)
    (caughtUp : manager.db.versions.logNumber = manager.db.logfileNumber) :
    Kept { manager with db := { manager.db with imm := none } } :=
  { kept with
    imm := List.Pairwise.nil
    waiting := fun _ late early => absurd (caughtUp.symm.trans_le late) (Nat.not_le.mpr early) }

theorem endLogging_managed (managed : Managed manager)
    (logging : manager.position = .logging edit purpose) (written : Bool)
    (children : List FileName) :
    Managed ((manager.endLogging edit written).afterLogging written children purpose) := by
  have base : manager.position.base = none := by rw [logging]; rfl
  have holds := managed.atPosition
  rw [AtPosition, logging] at holds
  cases purpose with
  | flush =>
    have inputs := inputs_running managed (by rw [logging]; rintro _ ⟨⟩)
    cases written with
    | true =>
      obtain ⟨sets, _, isImm, stored⟩ := holds
      obtain ⟨kept, retired⟩ := endLogging_kept managed.toKept sets managed.order (le_refl _) (by
        intro number late early
        apply covered_mono (managed.waiting number late early)
        rw [isImm]
        exact stored)
      have caughtUp : (manager.endLogging edit true).db.versions.logNumber =
          manager.db.logfileNumber := by
        simp [endLogging, apply, sets]
      exact removeObsoleteFiles_managed (withoutImm_kept kept caughtUp) base inputs retired children
    | false => exact resume_managed (bgError_managed managed true).toKept base inputs
  | compaction =>
    cases written with
    | true =>
      obtain ⟨kept, retired⟩ := endLogging_kept managed.toKept holds (le_refl _) managed.order
        fun number late early => absurd late (by omega)
      exact removeObsoleteFiles_managed (cleanupCompaction_kept kept base) rfl
        (fun isInput => absurd isInput Bool.false_ne_true) retired children
    | false =>
      exact resume_managed (cleanupCompaction_kept (bgError_managed managed true).toKept base) rfl
        fun isInput => absurd isInput Bool.false_ne_true
  | move =>
    cases written with
    | true =>
      obtain ⟨kept, _⟩ := endLogging_kept managed.toKept holds (le_refl _) managed.order
        fun number late early => absurd late (by omega)
      exact cleanupCompaction_managed kept base
    | false => exact cleanupCompaction_managed (bgError_managed managed true).toKept base

end

section

theorem removeFile_kept (kept : Kept manager) (file : FileName) :
    Kept (manager.removeFile file) := by
  cases file with
  | log number =>
    exact
      { kept with
        noLater := by
          intro other later
          by_cases same : other = number
          · rw [same]
            exact AList.lookup_erase _ _
          · exact (AList.lookup_erase_ne same).trans (kept.noLater other later)
        retired := fun other early => covered_erase (kept.retired other early) number
        waiting := fun other late early => covered_erase (kept.waiting other late early) number
        active := covered_erase kept.active number }
  | table number => exact { kept with }
  | descriptor _ | temp _ | other => exact kept

variable {file : FileName}

/-- The tables of the current version stay, whatever is removed. -/
theorem removeFile_retired (kept : Kept manager) (unwanted : manager.keeps file = false)
    (retired : manager.Retired) : (manager.removeFile file).Retired := by
  cases file with
  | log number => exact fun other late early => covered_erase (retired other late early) number
  | table number =>
    have foreign : number ∉ manager.db.versions.current.numbers := by
      intro mem
      simp only [keeps, decide_eq_false_iff_not, mem_append, not_or] at unwanted
      exact unwanted.2 (current_live kept.counted kept.named mem)
    intro other late early
    apply covered_mono (retired other late early)
    intro _ mem
    rw [removeFile]
    simp only
    rw [items_erase foreign]
    exact mem
  | descriptor _ | temp _ | other => exact retired

theorem removeFile_managed (managed : Managed manager)
    (deleting : manager.position = .deleting (file :: rest)) (removed : Bool) :
    Managed ((if removed then manager.removeFile file else manager).deleteNext rest) := by
  have base : manager.position.base = none := by rw [deleting]; rfl
  have holds := managed.atPosition
  rw [AtPosition, deleting] at holds
  obtain ⟨unwanted, retired⟩ := holds
  have inputs := inputs_running managed (by rw [deleting]; rintro _ ⟨⟩)
  cases removed with
  | true =>
    have fileRemoved := removeFile_kept managed.toKept file
    have stillRetired := removeFile_retired managed.toKept (unwanted file (.head _)) retired
    rw [if_pos rfl]
    cases file
    all_goals
      exact deleteNext_managed fileRemoved base inputs stillRetired fun later mem =>
        unwanted later (.tail _ mem)
  | false =>
    exact deleteNext_managed managed.toKept base inputs retired fun later mem =>
      unwanted later (.tail _ mem)

end

section

theorem step_managed {next : FileManager Key Value} (config : Config Key Value)
    (taken : manager.step config action = some next)
    (managed : Managed manager) : Managed next := by
  cases action with
  | write updates outcome =>
    obtain ⟨_, made⟩ := ite_none_left_eq_some.mp taken
    cases made
    exact write_managed managed updates outcome
  | switchMemTable outcome =>
    obtain ⟨allowed, made⟩ := ite_none_left_eq_some.mp taken
    cases made
    simp only [Bool.or_eq_true, not_or, Bool.not_eq_true, isSome_eq_false_iff,
      isNone_iff_eq_none] at allowed
    exact switchMemTable_managed managed allowed.2 outcome
  | refVersion =>
    cases taken
    exact refVersion_managed managed
  | unrefVersion id =>
    obtain ⟨holds, made⟩ := ite_none_right_eq_some.mp taken
    cases made
    exact unrefVersion_managed managed holds
  | getSnapshot =>
    obtain rfl := some.inj taken
    exact { managed with }
  | releaseSnapshot sequence =>
    cases taken
    exact { managed with }
  | startFlush =>
    rw [step] at taken
    split at taken
    · rename_i idle _
      obtain ⟨_, made⟩ := ite_none_left_eq_some.mp taken
      cases made
      exact startFlush_managed managed (by rw [idle]; rfl) (by rw [idle]; rintro _ ⟨⟩)
    · rename_i merging _
      cases taken
      exact startFlush_managed managed (by rw [merging]; rfl) (by rw [merging]; rintro _ ⟨⟩)
    · cases taken
  | endBuild built left =>
    rw [step] at taken
    split at taken
    · rename_i building isImm
      cases taken
      exact endBuild_managed config managed building isImm built left
    · cases taken
  | startCompaction request fault =>
    rw [step] at taken
    split at taken
    · rename_i idle
      obtain ⟨_, started⟩ := ite_none_left_eq_some.mp taken
      exact startCompaction_managed config managed idle started
    · cases taken
  | turn =>
    rw [step] at taken
    split at taken
    · rename_i merging isRunning
      split at taken
      · exact turn_managed config managed merging isRunning taken
      · cases taken
    · cases taken
  | failCompaction =>
    rw [step] at taken
    split at taken
    · rename_i merging
      cases taken
      exact bgError_managed
        (cleanupCompaction_managed managed.toKept (by rw [merging]; rfl)) true
    · cases taken
  | endCompaction =>
    rw [step] at taken
    split at taken
    · rename_i merging isRunning
      obtain ⟨_, made⟩ := ite_none_right_eq_some.mp taken
      cases made
      exact endCompaction_managed config managed merging isRunning
    · cases taken
  | endLogging written children =>
    rw [step] at taken
    split at taken
    · rename_i logging
      cases taken
      exact endLogging_managed managed logging written children
    · cases taken
  | removeFile removed =>
    rw [step] at taken
    split at taken
    · rename_i deleting
      cases taken
      exact removeFile_managed managed deleting removed
    · cases taken

end

end FileManager

end CodeReading.Leveldb
