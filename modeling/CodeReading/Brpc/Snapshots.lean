import CodeReading.Brpc.DoublyBufferedData

/-!
# Snapshots are stable

A reader takes the mutex of its wrapper, which is in the list, before it loads the
index. After a modifier has stored the index, whoever still reads the other
instance was in the list then; the sweep waits for each of them, and the list does
not change while it is swept. So nobody reads the instance that the modifier
applies its function to.

The threads that may still read the replaced instance are kept as `unswept`: all
registered ones when the index is stored, fewer with each wrapper that is passed.
-/

namespace CodeReading.Brpc.DoublyBuffered

open Threads List Option Function

variable {T : Type}

theorem replay_append (start : T) (earlier : List (Modification T)) (last : Modification T) :
    replay start (earlier ++ [last]) =
      (last.run (replay start earlier) (replay start earlier)).1 := by
  simp [replay]

theorem mem_removeWrapper (distinct : other ≠ wrapper)
    (mem : other ∈ wrappers) : other ∈ removeWrapper wrappers wrapper := by
  unfold removeWrapper
  split
  · rename_i position last found isLast
    obtain ⟨_, isWrapper, -⟩ := findIdx?_eq_some_iff_getElem.mp found
    obtain ⟨index, bound, isOther⟩ := getElem_of_mem mem
    have atLast : wrappers[wrappers.length - 1]? = some last := by
      rw [← getLast?_eq_getElem?, isLast]
    have apart : index ≠ position := by
      rintro rfl
      exact distinct (isOther.symm.trans (of_decide_eq_true isWrapper))
    have length : (wrappers.set position last).dropLast.length = wrappers.length - 1 := by simp
    -- The last wrapper moves to the free position; the others stay where they are.
    by_cases final : index = wrappers.length - 1
    · have same : last = other := by
        rw [← final, getElem?_eq_getElem bound, isOther] at atLast
        exact (some.inj atLast).symm
      have short : position < (wrappers.set position last).dropLast.length := by omega
      have here : (wrappers.set position last).dropLast[position] = other := by
        rw [getElem_dropLast, getElem_set_self, same]
      exact here ▸ getElem_mem short
    · have short : index < (wrappers.set position last).dropLast.length := by omega
      have here : (wrappers.set position last).dropLast[index] = other := by
        rw [getElem_dropLast, getElem_set_ne apart.symm, isOther]
      exact here ▸ getElem_mem short
  · exact mem

namespace Local

/-- The wrapper of the thread is in the list. -/
def Registered : Local T → Prop
  | .idle registered => registered = true
  | .beginning _ => True
  | .loading _ => True
  | .reading _ _ _ => True
  | .modifying registered _ _ => registered = true
  | .removing => True
  | .erasing => True
  | _ => False

/-- The thread holds the mutex of its own wrapper. -/
def Reads : Local T → Prop
  | .loading _ => True
  | .reading _ _ _ => True
  | _ => False

/-- The thread holds `_wrappers_mutex`. -/
def Lists : Local T → Prop
  | .pushing _ => True
  | .erasing => True
  | .modifying _ _ (.sweeping _ _ _) => True
  | .modifying _ _ (.passing _ _ _) => True
  | _ => False

/-- The thread holds `_modify_mutex`. -/
def Modifies : Local T → Prop
  | .modifying _ _ .locking => False
  | .modifying _ _ _ => True
  | _ => False

/-- A modification is being applied to the instance. -/
def Applies (which : Bool) : Local T → Prop
  | .modifying _ _ (.first background) => background = which
  | .modifying _ _ (.second background _) => background = which
  | _ => False

end Local

section

variable (start : T) (shared : Shared T)

/-- Both instances hold all published modifications, and nobody reads an old one. -/
structure Calm : Prop where
  back : shared.data (!shared.index) = replay start shared.history.applied
  returned : shared.history.returned = shared.history.applied
  swept : shared.history.unswept = []

/-- The first application is done and not published. -/
structure Turned (modification : Modification T) (background : Bool) (ret : Nat) : Prop where
  isBack : background = !shared.index
  back : shared.data background = replay start (shared.history.applied ++ [modification])
  ret : ret = (modification.run (replay start shared.history.applied)
    (replay start shared.history.applied)).2
  returned : shared.history.returned = shared.history.applied
  swept : shared.history.unswept = []

/-- The modification is published, and the second application is still to come. -/
structure Flipped (modification : Modification T) (background : Bool) (ret : Nat) : Prop where
  isBack : background = !shared.index
  applied : shared.history.applied = shared.history.returned ++ [modification]
  back : shared.data background = replay start shared.history.returned
  ret : ret = (modification.run (replay start shared.history.returned)
    (replay start shared.history.returned)).2

/-- The wrappers in front of the position have been passed. -/
def Swept (position : Nat) : Prop :=
  ∀ earlier wrapper, earlier < position → shared.wrappers[earlier]? = some wrapper →
    wrapper ∉ shared.history.unswept

/-- What a `ScopedPtr` points to. -/
structure Reading (thread : Nat) (which : Bool) (seen : List (Modification T)) (count : Nat) :
    Prop where
  seen : seen <+: shared.history.applied.take count
  counted : count ≤ shared.history.applied.length
  value : shared.data which = replay start (shared.history.applied.take count)
  old : which ≠ shared.index → thread ∈ shared.history.unswept

def ModifyStage (thread : Nat) (modification : Modification T) : Modifying → Prop
  | .locking => True
  | .loading => Calm start shared
  | .first background => background = !shared.index ∧ Calm start shared
  | .flipping background ret => Turned start shared modification background ret
  | .sweepLocking background ret => Flipped start shared modification background ret
  | .sweeping background ret position =>
      Flipped start shared modification background ret ∧ Swept shared position
  | .passing background ret position =>
      Flipped start shared modification background ret ∧ Swept shared position ∧
        ∀ wrapper, shared.wrappers[position]? = some wrapper → shared.mutex wrapper = some thread
  | .second background ret =>
      Flipped start shared modification background ret ∧ shared.history.unswept = []

def Stage (thread : Nat) : Local T → Prop
  | .adding seen => seen <+: shared.history.returned
  | .pushing seen => seen <+: shared.history.returned
  | .beginning seen => seen <+: shared.history.returned
  | .loading seen => seen <+: shared.history.returned
  | .reading which seen count => Reading start shared thread which seen count
  | .modifying _ modification at_ => ModifyStage start shared thread modification at_
  | _ => True

structure Common : Prop where
  front : shared.data shared.index = replay start shared.history.applied
  behind : shared.history.returned <+: shared.history.applied
  calm : shared.modifyMutex = none → Calm start shared
  checked : shared.checkFailed = false

structure Own (thread : Nat) (own : Local T) : Prop where
  registered : own.Registered → thread ∈ shared.wrappers
  reads : own.Reads → shared.mutex thread = some thread
  lists : own.Lists → shared.wrappersMutex = some thread
  modifies : own.Modifies → shared.modifyMutex = some thread
  stage : Stage start shared thread own

end

def outline (start : T) : Outline (Shared T) (Local T) where
  common := Common start
  own := fun thread shared own => Own start shared thread own
  apart := fun _ _ => True

/-- Nothing that only the holder of `_modify_mutex` writes is changed. -/
structure SameCore (before after : Shared T) : Prop where
  data : after.data = before.data := by rfl
  index : after.index = before.index := by rfl
  applied : after.history.applied = before.history.applied := by rfl
  returned : after.history.returned = before.history.returned := by rfl
  unswept : after.history.unswept = before.history.unswept := by rfl

/-- What an action of one thread does to the others. -/
structure Effect (start : T) (thread : Nat) (before after : Shared T) : Prop where
  registered : ∀ other, other ≠ thread → other ∈ before.wrappers → other ∈ after.wrappers
  lists : ∀ other, other ≠ thread → before.wrappersMutex = some other →
    after.wrappersMutex = some other ∧ after.wrappers = before.wrappers
  mutex : ∀ wrapper other, other ≠ thread → before.mutex wrapper = some other →
    after.mutex wrapper = some other
  modifies : ∀ other, other ≠ thread → before.modifyMutex = some other →
    after.modifyMutex = some other ∧ SameCore before after
  returned : before.history.returned <+: after.history.returned
  reads : ∀ other which seen count, other ≠ thread → other ∈ before.wrappers →
    before.mutex other = some other → Reading start before other which seen count →
    Reading start after other which seen count

section

variable {before after : Shared T}

section

variable (same : SameCore before after)
include same

theorem calm_same (calm : Calm start before) : Calm start after :=
  ⟨by rw [same.data, same.index, same.applied]; exact calm.back,
    by rw [same.returned, same.applied]; exact calm.returned,
    by rw [same.unswept]; exact calm.swept⟩

theorem turned_same (turned : Turned start before modification background ret) :
    Turned start after modification background ret :=
  ⟨by rw [same.index]; exact turned.isBack,
    by rw [same.data, same.applied]; exact turned.back,
    by rw [same.applied]; exact turned.ret,
    by rw [same.returned, same.applied]; exact turned.returned,
    by rw [same.unswept]; exact turned.swept⟩

theorem flipped_same (flipped : Flipped start before modification background ret) :
    Flipped start after modification background ret :=
  ⟨by rw [same.index]; exact flipped.isBack,
    by rw [same.applied, same.returned]; exact flipped.applied,
    by rw [same.data, same.returned]; exact flipped.back,
    by rw [same.returned]; exact flipped.ret⟩

theorem reading_same {count : Nat} (reading : Reading start before thread which seen count) :
    Reading start after thread which seen count :=
  ⟨by rw [same.applied]; exact reading.seen,
    by rw [same.applied]; exact reading.counted,
    by rw [same.data, same.applied]; exact reading.value,
    by rw [same.index, same.unswept]; exact reading.old⟩

theorem swept_same (list : after.wrappers = before.wrappers)
    (swept : Swept before position) : Swept after position := by
  unfold Swept
  rw [list, same.unswept]
  exact swept

end

/-- A modifier that is not disturbed keeps its stage. -/
theorem modifyStage_effect (distinct : other ≠ thread)
    (own : Own start before other (.modifying registered modification at_))
    (effect : Effect start thread before after) :
    ModifyStage start after other modification at_ := by
  have stage := own.stage
  have core := fun modifies => (effect.modifies other distinct (own.modifies modifies)).2
  have lists := fun lists => (effect.lists other distinct (own.lists lists)).2
  cases at_ with
  | locking => trivial
  | loading => exact calm_same (core trivial) stage
  | first background =>
    refine ⟨?_, calm_same (core trivial) stage.2⟩
    rw [(core trivial).index]
    exact stage.1
  | flipping background ret => exact turned_same (core trivial) stage
  | sweepLocking background ret => exact flipped_same (core trivial) stage
  | sweeping background ret position =>
    exact ⟨flipped_same (core trivial) stage.1, swept_same (core trivial) (lists trivial) stage.2⟩
  | passing background ret position =>
    refine ⟨flipped_same (core trivial) stage.1,
      swept_same (core trivial) (lists trivial) stage.2.1, ?_⟩
    intro wrapper isWrapper
    rw [lists trivial] at isWrapper
    exact effect.mutex wrapper other distinct (stage.2.2 wrapper isWrapper)
  | second background ret =>
    refine ⟨flipped_same (core trivial) stage.1, ?_⟩
    rw [(core trivial).unswept]
    exact stage.2

theorem own_effect (distinct : other ≠ thread) (own : Own start before other theirs)
    (effect : Effect start thread before after) : Own start after other theirs := by
  refine ⟨fun registered => effect.registered other distinct (own.registered registered),
    fun reads => effect.mutex other other distinct (own.reads reads),
    fun lists => (effect.lists other distinct (own.lists lists)).1,
    fun modifies => (effect.modifies other distinct (own.modifies modifies)).1, ?_⟩
  have stage := own.stage
  cases theirs with
  | reading which seen count =>
    exact effect.reads other which seen count distinct (own.registered trivial)
      (own.reads trivial) stage
  | modifying registered modification at_ => exact modifyStage_effect distinct own effect
  | adding _ | pushing _ | beginning _ | loading _ => exact stage.trans effect.returned
  | idle _ | removing | erasing | exited => trivial

/-- An action outside the critical part of `Modify`. -/
theorem effect_same (same : SameCore before after)
    (registered : ∀ other ≠ thread, other ∈ before.wrappers → other ∈ after.wrappers)
    (lists : ∀ other ≠ thread, before.wrappersMutex = some other →
      after.wrappersMutex = some other ∧ after.wrappers = before.wrappers)
    (mutex : ∀ wrapper, ∀ other ≠ thread, before.mutex wrapper = some other →
      after.mutex wrapper = some other)
    (modifies : ∀ other ≠ thread, before.modifyMutex = some other →
      after.modifyMutex = some other) : Effect start thread before after :=
  ⟨registered, lists, mutex, fun other distinct held => ⟨modifies other distinct held, same⟩,
    same.returned ▸ prefix_rfl, fun _ _ _ _ _ _ _ reading => reading_same same reading⟩

theorem common_same (common : Common start before) (same : SameCore before after)
    (modify : after.modifyMutex = none → before.modifyMutex = none)
    (checked : after.checkFailed = before.checkFailed) : Common start after := by
  refine ⟨?_, ?_, fun free => calm_same same (common.calm (modify free)), ?_⟩
  · rw [same.data, same.index, same.applied]
    exact common.front
  · rw [same.returned, same.applied]
    exact common.behind
  · rw [checked]
    exact common.checked

end

section

variable {start : T} {thread : Nat} {shared : Shared T}

/-- An action that re-establishes what the acting thread has to. -/
structure Keeps (start : T) (thread : Nat) (before : Shared T) (result : Shared T × Local T) :
    Prop where
  common : Common start result.1
  own : Own start result.1 thread result.2
  effect : Effect start thread before result.1

theorem effect_refl : Effect start thread shared shared :=
  effect_same {} (fun _ _ mem => mem) (fun _ _ held => ⟨held, rfl⟩) (fun _ _ _ held => held)
    (fun _ _ held => held)

theorem lockWrappers_effect (free : shared.wrappersMutex = none) :
    Effect start thread shared { shared with wrappersMutex := some thread } := by
  refine effect_same {} (fun _ _ mem => mem) ?_ (fun _ _ _ held => held)
    (fun _ _ held => held)
  intro _ _ held
  rw [free] at held
  cases held

/-- The holder of `_wrappers_mutex` changes the list and releases the mutex. -/
theorem unlockWrappers_effect (held : shared.wrappersMutex = some thread)
    (registered : ∀ other ≠ thread, other ∈ shared.wrappers → other ∈ wrappers) :
    Effect start thread shared { shared with wrappers := wrappers, wrappersMutex := none } := by
  refine effect_same {} registered ?_ (fun _ _ _ held => held) (fun _ _ held => held)
  intro other distinct theirs
  rw [held] at theirs
  exact absurd (some.inj theirs).symm distinct

theorem lockMutex_effect (free : shared.mutex wrapper = none) :
    Effect start thread shared
      { shared with mutex := update shared.mutex wrapper (some thread) } := by
  refine effect_same {} (fun _ _ mem => mem) (fun _ _ held => ⟨held, rfl⟩) ?_
    (fun _ _ held => held)
  intro other _ _ held
  by_cases same : other = wrapper
  · rw [same, free] at held
    cases held
  · exact (update_of_ne same _ _).trans held

theorem unlockMutex_kept (held : shared.mutex wrapper = some thread) :
    ∀ other, ∀ holder ≠ thread, shared.mutex other = some holder →
      update shared.mutex wrapper none other = some holder := by
  intro other holder distinct theirs
  by_cases same : other = wrapper
  · rw [same, held] at theirs
    exact absurd (some.inj theirs).symm distinct
  · exact (update_of_ne same _ _).trans theirs

section

variable {seen : List (Modification T)} {count : Nat}

section

variable (reading : Reading start shared other which seen count)
  (swept : shared.history.unswept = [])
include reading swept

/-- Whoever reads an instance that is not the current one is still unswept. -/
theorem reading_current : which = shared.index := by
  by_contra old
  have mem := reading.old old
  rw [swept] at mem
  cases mem

/-- The modifier replaces the instance in the back; readers are at the front. -/
theorem apply_reads {after : Shared T} (front : after.data shared.index = shared.data shared.index)
    (index : after.index = shared.index)
    (applied : after.history.applied = shared.history.applied) :
    Reading start after other which seen count := by
  obtain rfl := reading_current reading swept
  refine ⟨?_, ?_, ?_, ?_⟩
  · rw [applied]
    exact reading.seen
  · rw [applied]
    exact reading.counted
  · rw [front, applied]
    exact reading.value
  · intro old
    exact absurd index.symm old

end

end

/-- The holder of `_modify_mutex` acts: no other modifier is affected. -/
theorem modify_only (held : shared.modifyMutex = some thread) {P : Nat → Prop} :
    ∀ other ≠ thread, shared.modifyMutex = some other → P other := by
  intro other distinct theirs
  rw [held] at theirs
  exact absurd (some.inj theirs).symm distinct

section

variable (common : Common start shared)
include common

theorem first_keeps
    (own : Own start shared thread (.modifying registered modification (.first background)))
    (taken : modifyStep thread shared registered modification (.first background) = some result) :
    Keeps start thread shared result := by
  obtain ⟨rfl, calm⟩ := own.stage
  have held := own.modifies trivial
  have both : modification.run (shared.data (!shared.index)) (shared.data (!!shared.index)) =
      modification.run (replay start shared.history.applied)
        (replay start shared.history.applied) := by
    rw [Bool.not_not, common.front, calm.back]
  have front : ∀ value, update shared.data (!shared.index) value shared.index =
      shared.data shared.index := fun value => update_of_ne (by simp) _ _
  simp only [modifyStep, both] at taken
  split at taken
  · -- Nothing changes: the function returned 0.
    rename_i zero
    cases taken
    have unchanged := modification.unchanged _ _ zero
    have still : Calm start { shared with
        data := update shared.data (!shared.index)
          (modification.run (replay start shared.history.applied)
            (replay start shared.history.applied)).1
        modifyMutex := none
        history := { shared.history with results := shared.history.results ++ [0] } } := by
      refine { calm with back := ?_ }
      simp only [update_self]
      exact unchanged
    refine ⟨⟨(front _).trans common.front, common.behind, fun _ => still, common.checked⟩,
      ⟨own.registered, fun none => none.elim, fun none => none.elim, fun none => none.elim,
        trivial⟩, ?_⟩
    refine ⟨fun _ _ mem => mem, fun _ _ theirs => ⟨theirs, rfl⟩, fun _ _ _ theirs => theirs,
      modify_only held, prefix_rfl, ?_⟩
    intro other which seen count _ _ _ reading
    exact apply_reads reading calm.swept (front _) rfl rfl
  · cases taken
    refine ⟨⟨(front _).trans common.front, common.behind, ?_, common.checked⟩,
      ⟨own.registered, fun none => none.elim, fun none => none.elim, fun _ => held, ?_⟩, ?_⟩
    · intro free
      rw [show shared.modifyMutex = none from free] at held
      cases held
    · refine ⟨rfl, ?_, rfl, calm.returned, calm.swept⟩
      simp [replay_append]
    · refine ⟨fun _ _ mem => mem, fun _ _ theirs => ⟨theirs, rfl⟩, fun _ _ _ theirs => theirs,
        modify_only held, prefix_rfl, ?_⟩
      intro other which seen count _ _ _ reading
      exact apply_reads reading calm.swept (front _) rfl rfl

theorem flipping_keeps
    (own : Own start shared thread (.modifying registered modification (.flipping background ret)))
    (taken : modifyStep thread shared registered modification (.flipping background ret) = some
      result) : Keeps start thread shared result := by
  obtain ⟨rfl, back, rfl, returned, _⟩ := own.stage
  have held := own.modifies trivial
  cases taken
  refine ⟨⟨back, ?_, ?_, common.checked⟩, ⟨own.registered, fun none => none.elim,
    fun none => none.elim, fun _ => held, ?_⟩, ?_⟩
  · exact common.behind.trans (prefix_append _ _)
  · intro free
    rw [show shared.modifyMutex = none from free] at held
    cases held
  · refine ⟨rfl, ?_, ?_, ?_⟩
    · simp [returned]
    · simp only [Bool.not_not, returned]
      exact common.front
    · simp [returned]
  · refine ⟨fun _ _ mem => mem, fun _ _ theirs => ⟨theirs, rfl⟩, fun _ _ _ theirs => theirs,
      modify_only held, prefix_rfl, ?_⟩
    -- Readers of the replaced instance were registered when they loaded the index.
    intro _ _ seen count _ mem _ reading
    have short : (shared.history.applied ++ [modification]).take count =
        shared.history.applied.take count := take_append_of_le_length reading.counted
    refine ⟨?_, ?_, ?_, fun _ => mem⟩
    · simp only [short]
      exact reading.seen
    · exact Nat.le_trans reading.counted (by simp)
    · simp only [short]
      exact reading.value

theorem second_keeps
    (own : Own start shared thread (.modifying registered modification (.second background ret)))
    (taken : modifyStep thread shared registered modification (.second background ret) = some
      result) : Keeps start thread shared result := by
  obtain ⟨⟨rfl, applied, back, rfl⟩, swept⟩ := own.stage
  have held := own.modifies trivial
  have both : modification.run (shared.data (!shared.index)) (shared.data (!!shared.index)) =
      modification.run (replay start shared.history.returned)
        (replay start shared.history.returned) := by
    rw [Bool.not_not, common.front, back, applied, replay_append]
    exact modification.consistent _
  simp only [modifyStep, both] at taken
  cases taken
  have front : ∀ value, update shared.data (!shared.index) value shared.index =
      shared.data shared.index := fun value => update_of_ne (by simp) _ _
  refine ⟨⟨(front _).trans common.front, ?_, ?_, ?_⟩, ⟨own.registered, fun none => none.elim,
    fun none => none.elim, fun none => none.elim, trivial⟩, ?_⟩
  · simp [applied]
  · intro _
    refine ⟨?_, applied.symm, swept⟩
    simp [applied, replay_append]
  · simp [common.checked]
  · refine ⟨fun _ _ mem => mem, fun _ _ theirs => ⟨theirs, rfl⟩, fun _ _ _ theirs => theirs,
      modify_only held, prefix_append _ _, ?_⟩
    intro other which seen count _ _ _ reading
    exact apply_reads reading swept (front _) rfl rfl

/-- At the end of the list nobody who is registered is unswept. -/
theorem sweeping_keeps
    (own : Own start shared thread (.modifying registered modification (.sweeping background ret
      position)))
    (taken : modifyStep thread shared registered modification (.sweeping background ret position) =
      some result) : Keeps start thread shared result := by
  obtain ⟨flipped, swept⟩ := own.stage
  have held := own.modifies trivial
  have list := own.lists trivial
  have busy : shared.modifyMutex ≠ none := by
    rw [held]
    exact some_ne_none _
  simp only [modifyStep] at taken
  split at taken
  · rename_i ended
    cases taken
    have length := getElem?_eq_none_iff.mp ended
    refine ⟨{ common with calm := fun free => absurd free busy },
      ⟨own.registered, fun none => none.elim, fun none => none.elim, fun _ => held,
        ⟨{ flipped with }, rfl⟩⟩, ?_⟩
    refine ⟨fun _ _ mem => mem, ?_, fun _ _ _ theirs => theirs, modify_only held, prefix_rfl, ?_⟩
    · intro other distinct theirs
      rw [list] at theirs
      exact absurd (some.inj theirs).symm distinct
    · intro other which seen count _ mem _ reading
      refine { reading with old := ?_ }
      intro old
      obtain ⟨place, inside, isOther⟩ := getElem_of_mem mem
      have passed := swept place other (by omega)
        (by rw [getElem?_eq_getElem inside, isOther])
      exact absurd (reading.old old) passed
  · rename_i wrapper isWrapper
    obtain ⟨free, isResult⟩ := ite_none_right_eq_some.mp taken
    cases isResult
    refine ⟨common_same common {} (fun free => absurd free busy) rfl,
      ⟨own.registered, fun none => none.elim, fun _ => list, fun _ => held, ?_⟩,
      lockMutex_effect free⟩
    refine ⟨flipped_same {} flipped, swept_same {} rfl swept, ?_⟩
    intro other isOther
    have same : wrapper = other := some.inj (isWrapper.symm.trans isOther)
    simp [same]

/-- The wrapper whose mutex the sweep holds has no reader. -/
theorem passing_keeps
    (own : Own start shared thread (.modifying registered modification (.passing background ret
      position)))
    (taken : modifyStep thread shared registered modification (.passing background ret position) =
      some result) : Keeps start thread shared result := by
  obtain ⟨flipped, swept, holds⟩ := own.stage
  have held := own.modifies trivial
  have list := own.lists trivial
  have busy : shared.modifyMutex ≠ none := by
    rw [held]
    exact some_ne_none _
  obtain ⟨wrapper, isWrapper, rfl⟩ := map_eq_some_iff.mp taken
  have mine := holds wrapper isWrapper
  refine ⟨{ common with calm := fun free => absurd free busy },
    ⟨own.registered, fun none => none.elim, fun _ => list, fun _ => held,
      ⟨{ flipped with }, ?_⟩⟩, ?_⟩
  · intro earlier other _ isOther mem
    obtain ⟨still, distinct⟩ := mem_filter.mp mem
    by_cases last : earlier = position
    · rw [last] at isOther
      have same : wrapper = other := some.inj (isWrapper.symm.trans isOther)
      simp [same] at distinct
    · exact swept earlier other (by omega) isOther still
  · refine ⟨fun _ _ mem => mem, fun _ _ theirs => ⟨theirs, rfl⟩, unlockMutex_kept mine,
      modify_only held, prefix_rfl, ?_⟩
    intro other which seen count distinct mem reads reading
    refine { reading with old := ?_ }
    intro old
    refine mem_filter.mpr ⟨reading.old old, ?_⟩
    have apart : other ≠ wrapper := by
      rintro rfl
      exact distinct (some.inj (reads.symm.trans mine))
    exact decide_eq_true apart

theorem modifyStep_keeps (own : Own start shared thread (.modifying registered modification at_))
    (taken : modifyStep thread shared registered modification at_ = some result) :
    Keeps start thread shared result := by
  cases at_ with
  | locking =>
    obtain ⟨free, isResult⟩ := ite_none_right_eq_some.mp taken
    cases isResult
    have calm := common.calm free
    refine ⟨{ common with calm := fun none => (nomatch none) },
      ⟨own.registered, fun none => none.elim, fun none => none.elim, fun _ => rfl,
        { calm with }⟩, ?_⟩
    refine effect_same {} (fun _ _ mem => mem) (fun _ _ theirs => ⟨theirs, rfl⟩)
      (fun _ _ _ theirs => theirs) ?_
    intro _ _ theirs
    rw [free] at theirs
    cases theirs
  | loading =>
    cases taken
    exact ⟨common, { own with modifies := fun _ => own.modifies trivial, stage := ⟨rfl,
      own.stage⟩ }, effect_refl⟩
  | first background => exact first_keeps common own taken
  | flipping background ret => exact flipping_keeps common own taken
  | sweepLocking background ret =>
    obtain ⟨free, isResult⟩ := ite_none_right_eq_some.mp taken
    cases isResult
    refine ⟨common_same common {} id rfl, ⟨own.registered, fun none => none.elim, fun _ => rfl,
      fun _ => own.modifies trivial, ⟨flipped_same {} own.stage, ?_⟩⟩, lockWrappers_effect free⟩
    intro _ _ before
    exact absurd before (by omega)
  | sweeping background ret position => exact sweeping_keeps common own taken
  | passing background ret position => exact passing_keeps common own taken
  | second background ret => exact second_keeps common own taken

theorem act_keeps (own : Own start shared thread before)
    (taken : act thread shared before event = some result) : Keeps start thread shared result := by
  match before, event with
  | .idle registered, .read =>
    cases taken
    cases registered with
    | true =>
      exact ⟨common, ⟨fun _ => own.registered rfl, own.reads, own.lists, own.modifies,
        prefix_rfl⟩, effect_refl⟩
    | false =>
      exact ⟨common, { own with registered := fun none => none.elim, stage := prefix_rfl },
        effect_refl⟩
  | .idle registered, .modify modification =>
    cases taken
    exact ⟨common, { own with stage := trivial }, effect_refl⟩
  | .idle registered, .exit =>
    cases taken
    cases registered with
    | true =>
      exact ⟨common, { own with registered := fun _ => own.registered rfl, stage := trivial },
        effect_refl⟩
    | false =>
      exact ⟨common, { own with registered := fun none => none.elim, stage := trivial },
        effect_refl⟩
  | .adding seen, .proceed =>
    obtain ⟨free, isResult⟩ := ite_none_right_eq_some.mp taken
    cases isResult
    exact ⟨common_same common {} id rfl, { own with lists := fun _ => rfl },
      lockWrappers_effect free⟩
  | .pushing seen, .proceed =>
    cases taken
    exact ⟨common_same common {} id rfl,
      ⟨fun _ => mem_append_right _ (mem_singleton.mpr rfl), own.reads,
        fun none => none.elim, own.modifies, own.stage⟩,
      unlockWrappers_effect (own.lists trivial) (fun _ _ mem => mem_append_left _ mem)⟩
  | .beginning seen, .proceed =>
    obtain ⟨free, isResult⟩ := ite_none_right_eq_some.mp taken
    cases isResult
    exact ⟨common_same common {} id rfl, { own with reads := fun _ => update_self .. },
      lockMutex_effect free⟩
  | .loading seen, .proceed =>
    cases taken
    refine ⟨common, { own with stage := ?_ }, effect_refl⟩
    have whole : shared.history.applied.take shared.history.applied.length =
        shared.history.applied := take_length
    refine ⟨?_, Nat.le_refl _, ?_, fun old => absurd rfl old⟩
    · rw [whole]
      exact own.stage.trans common.behind
    · rw [whole]
      exact common.front
  | .reading which seen count, .release =>
    cases taken
    refine ⟨common_same common {} id rfl, ⟨fun _ => own.registered trivial, fun none => none.elim,
      own.lists, own.modifies, trivial⟩, ?_⟩
    exact effect_same {} (fun _ _ mem => mem) (fun _ _ theirs => ⟨theirs, rfl⟩)
      (unlockMutex_kept (own.reads trivial)) (fun _ _ theirs => theirs)
  | .modifying registered modification at_, .proceed => exact modifyStep_keeps common own taken
  | .removing, .proceed =>
    obtain ⟨free, isResult⟩ := ite_none_right_eq_some.mp taken
    cases isResult
    exact ⟨common_same common {} id rfl, { own with lists := fun _ => rfl, stage := trivial },
      lockWrappers_effect free⟩
  | .erasing, .proceed =>
    cases taken
    exact ⟨common_same common {} id rfl, ⟨fun none => none.elim, own.reads, fun none => none.elim,
      own.modifies, trivial⟩, unlockWrappers_effect (own.lists trivial)
        (fun _ distinct mem => mem_removeWrapper distinct mem)⟩

end

end

theorem outline_sound (start : T) : (outline start).Sound act fun _ _ => True := by
  refine Outline.sound_of_moves (fun _ _ => trivial) ?_
  intro state thread event shared own holds _ taken
  have keeps := act_keeps holds.common (holds.own thread) taken
  exact ⟨keeps.common, keeps.own, fun other distinct =>
    own_effect distinct (holds.own other) keeps.effect⟩

theorem outline_start (start : T) : (outline start).Holds (State.start start) where
  common := ⟨rfl, prefix_rfl, fun _ => ⟨rfl, rfl, rfl⟩, rfl⟩
  own _ := ⟨fun none => (nomatch none), fun none => none.elim, fun none => none.elim,
    fun none => none.elim, trivial⟩
  apart _ _ _ := trivial

/-- While a `ScopedPtr` is alive no modification is being applied to its instance, which is what
a prefix of the published modifications makes of the initial value; the prefix was fixed when
the pointer was taken and has in it all modifications that had returned when the `Read` began. -/
theorem scopedPtr_stable (start : T) (events : List (Nat × Event T)) (final : State T)
    (ran : Machine.run step (State.start start) events = some final) (reader : Nat) (which : Bool)
    (seen : List (Modification T)) (count : Nat)
    (alive : final.locals reader = .reading which seen count) :
    (∀ thread, ¬ (final.locals thread).Applies which) ∧
      seen <+: final.shared.history.applied.take count ∧
      final.shared.data which = replay start (final.shared.history.applied.take count) ∧
      final.shared.checkFailed = false := by
  have holds := (outline_sound start).run events _ _ (outline_start start)
    (Machine.guarded_trivial _ _ _) ran
  have own : Own start final.shared reader (final.locals reader) := holds.own reader
  have common : Common start final.shared := holds.common
  rw [alive] at own
  have reading : Reading start final.shared reader which seen count := own.stage
  refine ⟨?_, reading.seen, reading.value, common.checked⟩
  intro thread applies
  have theirs : Own start final.shared thread (final.locals thread) := holds.own thread
  generalize final.locals thread = other at applies theirs
  match other with
  | .modifying _ _ (.first background) =>
    obtain ⟨isBack, calm⟩ := theirs.stage
    have current := reading_current reading calm.swept
    obtain rfl : background = which := applies
    simp [current] at isBack
  | .modifying _ _ (.second background ret) =>
    obtain ⟨flipped, swept⟩ := theirs.stage
    have current := reading_current reading swept
    obtain rfl : background = which := applies
    have isBack := flipped.isBack
    simp [current] at isBack

/-- Adds one and says so. -/
def increment : Modification Nat :=
  .ofFn (fun value => (value + 1, 1)) (fun _ zero => absurd zero Nat.one_ne_zero)

/-- A thread takes a pointer, and another one modifies until it waits for the first. -/
def readAndModify : List (Nat × Event Nat) :=
  [(1, .read), (1, .proceed), (1, .proceed), (1, .proceed), (1, .proceed), (2, .modify increment),
    (2, .proceed), (2, .proceed), (2, .proceed), (2, .proceed), (2, .proceed)]

theorem scopedPtr_stable_modify :
    ∃ final, Machine.run step (State.start 7) readAndModify = some final ∧
      final.locals 1 = .reading false [] 0 ∧ final.shared.history.applied.length = 1 ∧
      final.shared.data true = 8 ∧ (∀ thread, ¬ (final.locals thread).Applies false) ∧
      final.shared.data false = replay 7 (final.shared.history.applied.take 0) := by
  refine ⟨_, rfl, rfl, rfl, rfl, ?_⟩
  have stable := scopedPtr_stable 7 readAndModify _ rfl 1 false [] 0 rfl
  exact ⟨stable.1, stable.2.2.1⟩

end CodeReading.Brpc.DoublyBuffered
