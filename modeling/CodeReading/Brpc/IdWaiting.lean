import CodeReading.Brpc.IdLocking

/-!
# Who wakes a parked locker

A locker that finds the id locked marks the butex as contended before it parks, and
who unlocks a contended id wakes one of the parked lockers. The woken one marks the
butex again when it gets the lock or has to wait, so while lockers are parked the
butex is contended, or a wake-up is on its way: a thread is about to wake, or a woken
locker did not take the mutex yet.

Two things break the chain. A thread that got the lock in between, and so finds the
butex not contended, may mark the id as about to be destroyed; the woken locker then
returns without waking the next one. And a range that grows by one gives the butex of
a locked id the value that a contended one had before; a locker on its way into
`butex_wait` then parks although nobody is going to wake it. The results on waiting
exclude both.
-/

namespace CodeReading.Brpc.BthreadId

open Threads List Option Bool
open State (start)

/-- The id is marked as about to be destroyed when its butex shows the parked lockers, and no
range grows by one. -/
def Careful (state : State) (event : Nat × Event) : Prop :=
  Proper state event ∧
    match (state.locals event.1).stage, event.2 with
    | .ready _, .aboutToDestroy _ =>
        state.shared.butex = state.shared.contendedVer ∨ state.shared.parked = []
    | .ready _, .lock _ range | .waiting _ range, .proceed =>
        state.shared.butex = state.shared.firstVer →
          resetRange state.shared range ≠ state.shared.lockedVer + 1
    | _, _ => True

instance (state : State) (event : Nat × Event) : Decidable (Careful state event) := by
  unfold Careful
  split <;> infer_instance

section

variable (shared : Shared)

/-- The entry has a version of the living id. -/
def Shared.Wants (entry : Nat × Nat) : Prop :=
  shared.firstVer ≤ entry.2 ∧ entry.2 < shared.lockedVer

/-- The butex shows that there are parked lockers, or a wake-up is on its way. -/
def Shared.Served : Prop :=
  shared.parked ≠ [] → shared.butex = shared.lockedVer + 1 ∨ shared.history.wakers ≠ [] ∨
    shared.history.wakersAll ≠ [] ∨ ∃ entry ∈ shared.history.woken, shared.Wants entry

/-- Who is parked, and that all of them are woken when the id is not to be locked any more. -/
structure Parks : Prop where
  nodup : shared.parked.Nodup
  gone : ∀ thread, shared.history.phase = .free ∨ shared.history.phase = .closed thread →
    shared.parked = []
  closing : shared.history.phase ≠ .live → shared.parked ≠ [] → shared.history.wakersAll ≠ []
  wanted : shared.history.phase = .live → ∀ entry ∈ shared.parked, shared.Wants entry
  unlockable : shared.history.phase = .live → shared.butex = shared.lockedVer + 2 →
    shared.parked ≠ [] → shared.history.wakersAll ≠ []

structure Waits : Prop where
  parks : Parks shared
  served : shared.history.phase = .live → shared.Served

/-- What a thread expects of the butex is what an id that is gone had, or what the living id
has when it is contended, or had before its range grew. -/
def Shared.Expects (version expected : Nat) : Prop :=
  expected < shared.firstVer ∨
    (shared.firstVer ≤ version ∧ version < shared.lockedVer ∧ shared.firstVer < expected ∧
      expected ≠ shared.lockedVer ∧ expected ≤ shared.lockedVer + 1)

end

structure Stays (thread : Nat) (shared : Shared) (own : Local) : Prop where
  parking : ∀ version range expected, own.stage = .parking version range expected →
    shared.Expects version expected
  parked : ∀ version, (thread, version) ∈ shared.parked → ∃ range, own.stage = .waiting version range
  woken : ∀ version, (thread, version) ∈ shared.history.woken →
    (∃ range, own.stage = .waiting version range) ∧ (thread, version) ∉ shared.parked
  wakers : thread ∈ shared.history.wakers → own.stage = .waking
  wakersAll : thread ∈ shared.history.wakersAll → own.stage = .wakingAll ∨ own.stage = .closing

def waitOutline : Outline Shared Local where
  common := Waits
  own := Stays
  apart := fun _ _ => True

/-- What an action of one thread does to those who wait. -/
structure Disturbs (thread : Nat) (before after : Shared) : Prop where
  expects : ∀ version expected, before.Expects version expected → after.Expects version expected
  parked : ∀ other version, other ≠ thread → (other, version) ∈ after.parked →
    (other, version) ∈ before.parked
  woken : ∀ other version, other ≠ thread → (other, version) ∈ after.history.woken →
    (other, version) ∈ before.history.woken ∨
      ((other, version) ∈ before.parked ∧ (other, version) ∉ after.parked)
  wakers : ∀ other, other ≠ thread → other ∈ after.history.wakers → other ∈ before.history.wakers
  wakersAll : ∀ other, other ≠ thread → other ∈ after.history.wakersAll →
    other ∈ before.history.wakersAll

variable {thread : Nat}

theorem stays_disturbed {before after : Shared}
    (distinct : other ≠ thread) (stays : Stays other before theirs)
    (disturbs : Disturbs thread before after) : Stays other after theirs := by
  refine ⟨?_, ?_, ?_, ?_, ?_⟩
  · exact fun version range expected parking =>
      disturbs.expects version expected (stays.parking version range expected parking)
  · exact fun version parked => stays.parked version (disturbs.parked other version distinct parked)
  · intro version mem
    rcases disturbs.woken other version distinct mem with woken | ⟨parked, out⟩
    · obtain ⟨waiting, notParked⟩ := stays.woken version woken
      exact ⟨waiting, fun parked => notParked (disturbs.parked other version distinct parked)⟩
    · exact ⟨stays.parked version parked, out⟩
  · exact fun mem => stays.wakers (disturbs.wakers other distinct mem)
  · exact fun mem => stays.wakersAll (disturbs.wakersAll other distinct mem)

structure Rests (thread : Nat) (before : Shared) (result : Shared × Local) : Prop where
  common : Waits result.1
  own : Stays thread result.1 result.2
  disturbs : Disturbs thread before result.1

/-- The thread is in none of the lists. -/
structure Absent (thread : Nat) (shared : Shared) : Prop where
  parked : ∀ version, (thread, version) ∉ shared.parked
  woken : ∀ version, (thread, version) ∉ shared.history.woken
  wakers : thread ∉ shared.history.wakers
  wakersAll : thread ∉ shared.history.wakersAll

/-- The action leaves the lists of waiting and waking threads alone. -/
structure Unmoved (before after : Shared) : Prop where
  parked : after.parked = before.parked := by rfl
  woken : after.history.woken = before.history.woken := by rfl
  wakers : after.history.wakers = before.history.wakers := by rfl
  wakersAll : after.history.wakersAll = before.history.wakersAll := by rfl

section

variable {shared after : Shared} {own : Local}

theorem absent_of_stays (stays : Stays thread shared own)
    (waiting : ∀ version range, own.stage ≠ .waiting version range) (waking : own.stage ≠ .waking)
    (wakingAll : own.stage ≠ .wakingAll) (closing : own.stage ≠ .closing) :
    Absent thread shared := by
  refine ⟨?_, ?_, fun mem => waking (stays.wakers mem), ?_⟩
  · intro version mem
    obtain ⟨range, same⟩ := stays.parked version mem
    exact waiting version range same
  · intro version mem
    obtain ⟨⟨range, same⟩, -⟩ := stays.woken version mem
    exact waiting version range same
  · exact fun mem => (stays.wakersAll mem).elim wakingAll closing

theorem absent_unmoved (absent : Absent thread shared) (unmoved : Unmoved shared after) :
    Absent thread after := by
  obtain ⟨parked, woken, wakers, wakersAll⟩ := unmoved
  refine ⟨?_, ?_, ?_, ?_⟩
  · rw [parked]
    exact absent.parked
  · rw [woken]
    exact absent.woken
  · rw [wakers]
    exact absent.wakers
  · rw [wakersAll]
    exact absent.wakersAll

theorem stays_of_absent (absent : Absent thread shared)
    (parking : ∀ version range expected, own.stage = .parking version range expected →
      shared.Expects version expected) : Stays thread shared own :=
  ⟨parking, fun version mem => absurd mem (absent.parked version),
    fun version mem => absurd mem (absent.woken version),
    fun mem => absurd mem absent.wakers, fun mem => absurd mem absent.wakersAll⟩

theorem disturbs_unmoved (unmoved : Unmoved shared after)
    (expects : ∀ version expected, shared.Expects version expected →
      after.Expects version expected) : Disturbs thread shared after := by
  obtain ⟨parked, woken, wakers, wakersAll⟩ := unmoved
  refine ⟨expects, ?_, ?_, ?_, ?_⟩
  · exact fun _ _ _ mem => parked ▸ mem
  · exact fun _ _ _ mem => .inl (woken ▸ mem)
  · exact fun _ _ mem => wakers ▸ mem
  · exact fun _ _ mem => wakersAll ▸ mem

variable {next : Local}

/-- A step by a thread outside the lists that leaves them and the versions alone. -/
theorem unmoved_rests (waits : Waits shared) (absent : Absent thread shared)
    (unmoved : Unmoved shared after) (firstVer : after.firstVer = shared.firstVer)
    (lockedVer : after.lockedVer = shared.lockedVer) (butex : after.butex = shared.butex)
    (phase : after.history.phase = shared.history.phase)
    (parking : ∀ version range expected, next.stage ≠ .parking version range expected) :
    Rests thread shared (after, next) := by
  refine ⟨?_, stays_of_absent (absent_unmoved absent unmoved)
    (fun version range expected same => absurd same (parking version range expected)),
    disturbs_unmoved unmoved ?_⟩
  · obtain ⟨parked, woken, wakers, wakersAll⟩ := unmoved
    obtain ⟨⟨nodup, gone, closing, wanted, unlockable⟩, served⟩ := waits
    refine ⟨⟨?_, ?_, ?_, ?_, ?_⟩, ?_⟩
    · rw [parked]
      exact nodup
    · rw [parked, phase]
      exact gone
    · rw [parked, phase, wakersAll]
      exact closing
    · simp only [Shared.Wants, parked, phase, firstVer, lockedVer]
      exact wanted
    · rw [parked, phase, wakersAll, butex, lockedVer]
      exact unlockable
    · simp only [Shared.Served, Shared.Wants, parked, phase, firstVer, lockedVer, butex, woken,
        wakers, wakersAll]
      exact served
  · simp only [Shared.Expects, firstVer, lockedVer]
    exact fun _ _ expects => expects

theorem rejects_rests (waits : Waits shared) (absent : Absent thread shared) :
    Rests thread shared (rejects shared holds result) :=
  unmoved_rests waits absent {} rfl rfl rfl rfl nofun

/-- The butex of a living id changes, or its range grows by more than one. -/
theorem live_parks (parks : Parks shared) (live : shared.history.phase = .live)
    (phase : after.history.phase = .live) (firstVer : after.firstVer = shared.firstVer)
    (grows : shared.lockedVer ≤ after.lockedVer) (parked : after.parked = shared.parked)
    (unlockable : after.butex = after.lockedVer + 2 → shared.parked ≠ [] →
      after.history.wakersAll ≠ []) : Parks after := by
  refine ⟨parked ▸ parks.nodup, ?_, fun dead => absurd phase dead, ?_, ?_⟩
  · intro _ dead
    rw [phase] at dead
    exact dead.elim nofun nofun
  · intro _ entry mem
    obtain ⟨lower, upper⟩ := parks.wanted live entry (parked ▸ mem)
    exact ⟨firstVer ▸ lower, Nat.lt_of_lt_of_le upper grows⟩
  · intro _
    rw [parked]
    exact unlockable

theorem expects_grows (firstVer : after.firstVer = shared.firstVer)
    (grows : shared.lockedVer ≤ after.lockedVer) (notOne : after.lockedVer ≠ shared.lockedVer + 1)
    (version expected : Nat) (expects : shared.Expects version expected) :
    after.Expects version expected := by
  unfold Shared.Expects at expects ⊢
  rw [firstVer]
  omega

/-- A wake-up that is on its way still is when the range grows. -/
theorem served_kept (served : shared.Served) (notContended : shared.butex ≠ shared.lockedVer + 1)
    (unmoved : Unmoved shared after) (firstVer : after.firstVer = shared.firstVer)
    (grows : shared.lockedVer ≤ after.lockedVer) : after.Served := by
  obtain ⟨parked, woken, wakers, wakersAll⟩ := unmoved
  intro waiting
  rw [parked] at waiting
  rw [woken, wakers, wakersAll]
  rcases served waiting with contended | waker | wakerAll | ⟨entry, mem, lower, upper⟩
  · exact absurd contended notContended
  · exact .inr (.inl waker)
  · exact .inr (.inr (.inl wakerAll))
  · exact .inr (.inr (.inr ⟨entry, mem, firstVer ▸ lower, Nat.lt_of_lt_of_le upper grows⟩))

variable {range : Int}

theorem lockStep_rests (versions : Versions shared) (parks : Parks shared)
    (absent : Absent thread shared)
    (fresh : everContended = false → shared.history.phase = .live → shared.Served)
    (unknown : shared.hasVersion version = false → shared.history.phase = .live → shared.Served)
    (notOne : shared.butex = shared.firstVer → resetRange shared range ≠ shared.lockedVer + 1) :
    Rests thread shared (lockStep thread shared holds version range everContended) := by
  unfold lockStep
  split
  · next known =>
    have phase := hasVersion_live versions known
    have live := versions.live phase
    have nonempty := live.nonempty
    split
    · next unlocked =>
      obtain ⟨grows, _⟩ := resetRange_bounds live range
      have contended : Shared.contendedVer { shared with lockedVer := resetRange shared range } =
          resetRange shared range + 1 := by
        have fits := live.fits
        exact uint32_eq (show resetRange shared range + 1 < 2 ^ 32 by omega)
      refine ⟨⟨live_parks parks phase phase rfl grows rfl ?_, fun _ => ?_⟩,
        stays_of_absent (absent_unmoved absent ⟨rfl, rfl, rfl, rfl⟩) nofun,
        disturbs_unmoved ⟨rfl, rfl, rfl, rfl⟩ (expects_grows rfl grows (notOne unlocked))⟩
      · intro same
        dsimp only at same
        rw [contended] at same
        split at same <;> omega
      · cases everContended with
        | true => exact fun _ => .inl contended
        | false => exact served_kept (fresh rfl phase) (by omega) ⟨rfl, rfl, rfl, rfl⟩ rfl grows
    · split
      · have contended := contendedVer_eq live
        refine ⟨⟨live_parks parks phase phase rfl (Nat.le_refl _) rfl ?_, fun _ _ => .inl contended⟩,
          stays_of_absent (absent_unmoved absent ⟨rfl, rfl, rfl, rfl⟩) ?_,
          disturbs_unmoved ⟨rfl, rfl, rfl, rfl⟩ fun _ _ expects => expects⟩
        · intro same
          dsimp only at same
          omega
        · intro _ reset _ same
          obtain ⟨rfl, -, rfl⟩ := Stage.parking.inj same
          obtain ⟨lower, upper⟩ := of_decide_eq_true known
          rw [contended]
          exact .inr ⟨lower, upper, by dsimp only; omega, by dsimp only; omega,
            by dsimp only; omega⟩
      · next marked =>
        have unlockable : shared.butex = shared.lockedVer + 2 :=
          (not_not.mp marked).trans (unlockableVer_eq live)
        refine unmoved_rests ⟨parks, fun _ waiting => ?_⟩ absent ⟨rfl, rfl, rfl, rfl⟩ rfl rfl rfl rfl nofun
        exact .inr (.inr (.inl (parks.unlockable phase unlockable waiting)))
  · next notKnown =>
    exact unmoved_rests ⟨parks, unknown (eq_false_iff.mpr notKnown)⟩ absent
      ⟨rfl, rfl, rfl, rfl⟩ rfl rfl rfl rfl
      nofun

/-- A thread outside the lists takes the lock of an id that nobody has. -/
theorem take_rests (waits : Waits shared) (live : shared.history.phase = .live)
    (versions : Live shared.firstVer shared.lockedVer shared.butex)
    (unlocked : shared.butex = shared.firstVer) (absent : Absent thread shared)
    (unmoved : Unmoved shared after) (firstVer : after.firstVer = shared.firstVer)
    (lockedVer : after.lockedVer = shared.lockedVer) (butex : after.butex = shared.lockedVer)
    (phase : after.history.phase = .live)
    (parking : ∀ version range expected, next.stage ≠ .parking version range expected) :
    Rests thread shared (after, next) := by
  have nonempty := versions.nonempty
  refine ⟨⟨live_parks waits.parks live phase firstVer (Nat.le_of_eq lockedVer.symm)
      unmoved.parked ?_, fun _ => ?_⟩, stays_of_absent (absent_unmoved absent unmoved)
      (fun version range expected same => absurd same (parking version range expected)),
    disturbs_unmoved unmoved
      (expects_grows firstVer (Nat.le_of_eq lockedVer.symm) (by dsimp only; omega))⟩
  · intro same
    dsimp only at same
    omega
  · exact served_kept (waits.served live) (by omega) unmoved firstVer (Nat.le_of_eq lockedVer.symm)

section

variable (versions : Versions shared) (waits : Waits shared) (absent : Absent thread shared)
include versions waits absent

theorem trylockStep_rests : Rests thread shared (trylockStep thread shared holds version) := by
  unfold trylockStep
  split
  · next known =>
    have live := hasVersion_live versions known
    split
    · exact rejects_rests waits absent
    · next free =>
      exact take_rests waits live (versions.live live) (not_not.mp free) absent ⟨rfl, rfl, rfl, rfl⟩ rfl rfl rfl live
        nofun
  · exact rejects_rests waits absent

theorem errorStep_rests :
    Rests thread shared (errorStep thread shared holds version errorCode errorText) := by
  unfold errorStep
  split
  · next known =>
    have live := hasVersion_live versions known
    split
    · next unlocked =>
      exact take_rests waits live (versions.live live) unlocked absent ⟨rfl, rfl, rfl, rfl⟩ rfl rfl rfl live nofun
    · exact unmoved_rests waits absent ⟨rfl, rfl, rfl, rfl⟩ rfl rfl rfl rfl nofun
  · exact rejects_rests waits absent

theorem createStep_rests (fits : shared.butex + idMaxRange + 3 < 2 ^ 32)
    (acted : createStep shared holds range = some result) : Rests thread shared result := by
  unfold createStep at acted
  split at acted
  · cases acted
    exact rejects_rests waits absent
  · obtain ⟨free, acted⟩ := ite_none_right_eq_some.mp acted
    cases acted
    have nobody := waits.parks.gone 0 (.inl free)
    obtain ⟨_, _⟩ := versions.dead (by rw [free]; exact nofun)
    refine ⟨⟨⟨waits.parks.nodup, fun _ _ => nobody, fun dead => absurd rfl dead, ?_, ?_⟩, ?_⟩,
      stays_of_absent (absent_unmoved absent ⟨rfl, rfl, rfl, rfl⟩) nofun, disturbs_unmoved ⟨rfl, rfl, rfl, rfl⟩ ?_⟩
    · intro _ _ mem
      exact absurd mem (nobody ▸ not_mem_nil)
    · exact fun _ _ waiting => absurd nobody waiting
    · exact fun _ waiting => absurd nobody waiting
    · intro _ expected expects
      left
      unfold Shared.Expects at expects
      have before : expected < shared.butex := by omega
      have noWrap : ¬ uint32 (shared.butex + idMaxRange + 2) < shared.butex := by
        rw [uint32_eq (by omega)]
        omega
      rw [if_neg]
      · exact before
      · rintro (_ | wraps)
        · omega
        · exact noWrap wraps

theorem unlockStep_rests : Rests thread shared (unlockStep thread shared holds version) := by
  unfold unlockStep
  split
  · next known =>
    have phase := hasVersion_live versions known
    have live := versions.live phase
    have contendedVer := contendedVer_eq live
    have nonempty := live.nonempty
    split
    · exact rejects_rests waits absent
    · split
      · exact unmoved_rests waits absent ⟨rfl, rfl, rfl, rfl⟩ rfl rfl rfl rfl nofun
      · by_cases contended : shared.butex = shared.contendedVer
        · simp only [contended, decide_true, if_true]
          refine ⟨⟨live_parks waits.parks phase phase rfl (Nat.le_refl _) rfl ?_, ?_⟩,
            ⟨nofun, fun version mem => absurd mem (absent.parked version),
              fun version mem => absurd mem (absent.woken version), fun _ => rfl,
              fun mem => absurd mem absent.wakersAll⟩,
            ⟨fun _ _ expects => expects, fun _ _ _ mem => mem, fun _ _ _ => .inl, ?_,
              fun _ _ mem => mem⟩⟩
          · intro same
            dsimp only at same
            omega
          · exact fun _ _ => .inr (.inl (cons_ne_nil _ _))
          · exact fun _ distinct mem => (mem_cons.mp mem).resolve_left distinct
        · simp only [contended, decide_false, false_eq_true, if_false]
          refine ⟨⟨live_parks waits.parks phase phase rfl (Nat.le_refl _) rfl ?_, ?_⟩,
            stays_of_absent (absent_unmoved absent ⟨rfl, rfl, rfl, rfl⟩) nofun,
            disturbs_unmoved ⟨rfl, rfl, rfl, rfl⟩ fun _ _ expects => expects⟩
          · intro same
            dsimp only at same
            omega
          · exact fun _ => served_kept (waits.served phase) (by omega) ⟨rfl, rfl, rfl, rfl⟩ rfl (Nat.le_refl _)
  · exact rejects_rests waits absent

theorem aboutToDestroyStep_rests (shown : shared.butex = shared.contendedVer ∨ shared.parked = []) :
    Rests thread shared (aboutToDestroyStep thread shared holds version) := by
  unfold aboutToDestroyStep
  split
  · next known =>
    have phase := hasVersion_live versions known
    split
    · exact rejects_rests waits absent
    · by_cases contended : shared.butex = shared.contendedVer
      · simp only [contended, decide_true, if_true]
        refine ⟨⟨live_parks waits.parks phase phase rfl (Nat.le_refl _) rfl ?_, ?_⟩,
          ⟨nofun, fun version mem => absurd mem (absent.parked version),
            fun version mem => absurd mem (absent.woken version),
            fun mem => absurd mem absent.wakers, fun _ => .inl rfl⟩,
          ⟨fun _ _ expects => expects, fun _ _ _ mem => mem, fun _ _ _ => .inl,
            fun _ _ mem => mem, ?_⟩⟩
        · exact fun _ _ => cons_ne_nil _ _
        · exact fun _ _ => .inr (.inr (.inl (cons_ne_nil _ _)))
        · exact fun _ distinct mem => (mem_cons.mp mem).resolve_left distinct
      · have nobody : shared.parked = [] := shown.resolve_left contended
        simp only [contended, decide_false, false_eq_true, if_false]
        refine ⟨⟨live_parks waits.parks phase phase rfl (Nat.le_refl _) rfl ?_, ?_⟩,
          stays_of_absent (absent_unmoved absent ⟨rfl, rfl, rfl, rfl⟩) nofun,
          disturbs_unmoved ⟨rfl, rfl, rfl, rfl⟩ fun _ _ expects => expects⟩
        · exact fun _ waiting => absurd nobody waiting
        · exact fun _ waiting => absurd nobody waiting
  · exact rejects_rests waits absent

theorem unlockAndDestroyStep_rests :
    Rests thread shared (unlockAndDestroyStep thread shared holds version) := by
  unfold unlockAndDestroyStep
  split
  · next known =>
    have phase := hasVersion_live versions known
    have live := versions.live phase
    have ended := endVer_eq live
    have nonempty := live.nonempty
    split
    · exact rejects_rests waits absent
    · refine ⟨⟨⟨waits.parks.nodup, ?_, ?_, nofun, nofun⟩, nofun⟩,
        ⟨nofun, fun version mem => absurd mem (absent.parked version),
          fun version mem => absurd mem (absent.woken version),
          fun mem => absurd mem absent.wakers, fun _ => .inr rfl⟩,
        ⟨?_, fun _ _ _ mem => mem, fun _ _ _ => .inl, fun _ _ mem => mem, ?_⟩⟩
      · exact fun other dead => dead.elim nofun nofun
      · exact fun _ _ => cons_ne_nil _ _
      · intro _ _ expects
        left
        unfold Shared.Expects at expects
        dsimp only
        omega
      · exact fun other distinct mem => (mem_cons.mp mem).resolve_left distinct
  · exact rejects_rests waits absent

end

theorem contended_of_expects (thread : Nat) (versions : Versions shared)
    (expects : shared.Expects version expected) (same : shared.butex = expected) :
    shared.history.phase = .live ∧ shared.butex = shared.lockedVer + 1 ∧
      shared.Wants (thread, version) := by
  unfold Shared.Expects at expects
  by_cases phase : shared.history.phase = .live
  · have live := versions.live phase
    have nonempty := live.nonempty
    have butex := live.butex
    refine ⟨phase, by omega, ?_⟩
    exact ⟨show shared.firstVer ≤ version by omega, show version < shared.lockedVer by omega⟩
  · obtain ⟨_, _⟩ := versions.dead phase
    omega

theorem waitStep_rests (versions : Versions shared) (waits : Waits shared)
    (absent : Absent thread shared) (expects : shared.Expects version expected) :
    Rests thread shared (waitStep thread shared holds version range expected) := by
  unfold waitStep
  split
  · next same =>
    obtain ⟨phase, contended, wants⟩ := contended_of_expects thread versions expects same
    have parks := waits.parks
    refine ⟨⟨⟨?_, ?_, fun dead => absurd phase dead, ?_, ?_⟩, fun _ _ => .inl contended⟩,
      ⟨nofun, ?_, fun version mem => absurd mem (absent.woken version),
        fun mem => absurd mem absent.wakers, fun mem => absurd mem absent.wakersAll⟩,
      ⟨fun _ _ expects => expects, ?_, fun _ _ _ => .inl, fun _ _ mem => mem,
        fun _ _ mem => mem⟩⟩
    · exact nodup_append'.mpr ⟨parks.nodup, nodup_singleton _,
        disjoint_singleton.mpr (absent.parked version)⟩
    · intro other dead
      rw [phase] at dead
      exact dead.elim nofun nofun
    · intro _ entry mem
      rcases mem_append.mp mem with before | new
      · exact parks.wanted phase entry before
      · obtain rfl := mem_singleton.mp new
        exact wants
    · intro _ unlockable
      dsimp only at unlockable
      omega
    · intro wanted mem
      rcases mem_append.mp mem with before | new
      · exact absurd before (absent.parked wanted)
      · obtain ⟨-, rfl⟩ := Prod.mk.inj (mem_singleton.mp new)
        exact ⟨range, rfl⟩
    · intro other wanted distinct mem
      rcases mem_append.mp mem with before | new
      · exact before
      · exact absurd (Prod.mk.inj (mem_singleton.mp new)).1 distinct
  · refine ⟨⟨{ waits.parks with }, ?_⟩,
      ⟨nofun, fun version mem => absurd mem (absent.parked version), ?_,
        fun mem => absurd mem absent.wakers, fun mem => absurd mem absent.wakersAll⟩,
      ⟨fun _ _ expects => expects, fun _ _ _ mem => mem, ?_, fun _ _ mem => mem,
        fun _ _ mem => mem⟩⟩
    · intro phase waiting
      rcases waits.served phase waiting with shown | waker | wakerAll | ⟨entry, mem, wants⟩
      · exact .inl shown
      · exact .inr (.inl waker)
      · exact .inr (.inr (.inl wakerAll))
      · exact .inr (.inr (.inr ⟨entry, .tail _ mem, wants⟩))
    · intro wanted mem
      rcases mem_cons.mp mem with new | before
      · obtain ⟨-, rfl⟩ := Prod.mk.inj new
        exact ⟨⟨range, rfl⟩, absent.parked wanted⟩
      · exact absurd before (absent.woken wanted)
    · intro other wanted distinct mem
      rcases mem_cons.mp mem with new | before
      · exact absurd (Prod.mk.inj new).1 distinct
      · exact .inl before

section

variable (waits : Waits shared) (stays : Stays thread shared own)
include waits stays

omit waits in
/-- A waiting thread wakes nobody. -/
theorem waiting_alone (stage : own.stage = .waiting version range) :
    (∀ wanted reset, own.stage = .waiting wanted reset → wanted = version) ∧
      thread ∉ shared.history.wakers ∧ thread ∉ shared.history.wakersAll := by
  refine ⟨fun wanted reset isStage => (Stage.waiting.inj (isStage.symm.trans stage)).1, ?_, ?_⟩
  · intro mem
    exact absurd ((stays.wakers mem).symm.trans stage) nofun
  · intro mem
    rcases stays.wakersAll mem with isStage | isStage
    · exact absurd (isStage.symm.trans stage) nofun
    · exact absurd (isStage.symm.trans stage) nofun

theorem interruptStep_rests (stage : own.stage = .waiting version range)
    (acted : interruptStep thread shared holds version range = some result) :
    Rests thread shared result := by
  obtain ⟨inside, acted⟩ := ite_none_right_eq_some.mp acted
  cases acted
  have parks := waits.parks
  have out : ∀ wanted, (thread, wanted) ∉ shared.parked.filter (·.1 ≠ thread) := by
    intro wanted mem
    exact of_decide_eq_true (mem_filter.mp mem).2 rfl
  have nonempty : shared.parked ≠ [] := ne_nil_of_mem inside
  obtain ⟨same, notWaker, notWakerAll⟩ := waiting_alone stays stage
  refine ⟨⟨⟨parks.nodup.filter _, ?_, ?_, ?_, ?_⟩, ?_⟩,
    ⟨nofun, fun wanted mem => absurd mem (out wanted), ?_, (absurd · notWaker),
      (absurd · notWakerAll)⟩,
    ⟨fun _ _ expects => expects, fun _ _ _ mem => (mem_filter.mp mem).1, ?_,
      fun _ _ mem => mem, fun _ _ mem => mem⟩⟩
  · exact fun other dead => absurd (parks.gone other dead) nonempty
  · exact fun dead _ => parks.closing dead nonempty
  · exact fun phase entry mem => parks.wanted phase entry (mem_filter.mp mem).1
  · exact fun phase unlockable _ => parks.unlockable phase unlockable nonempty
  · exact fun phase _ => .inr (.inr (.inr
      ⟨(thread, version), (.head _), parks.wanted phase _ inside⟩))
  · intro wanted mem
    refine ⟨?_, out wanted⟩
    rcases mem_cons.mp mem with new | before
    · obtain ⟨-, rfl⟩ := Prod.mk.inj new
      exact ⟨range, rfl⟩
    · obtain ⟨⟨reset, isStage⟩, -⟩ := stays.woken wanted before
      exact ⟨range, by rw [same wanted reset isStage]⟩
  · intro other wanted distinct mem
    rcases mem_cons.mp mem with new | before
    · exact absurd (Prod.mk.inj new).1 distinct
    · exact .inl before

theorem resumeStep_rests (versions : Versions shared) (stage : own.stage = .waiting version range)
    (notOne : shared.butex = shared.firstVer → resetRange shared range ≠ shared.lockedVer + 1)
    (acted : resumeStep thread shared holds version range = some result) :
    Rests thread shared result := by
  obtain ⟨outside, acted⟩ := ite_none_left_eq_some.mp acted
  cases acted
  obtain ⟨same, notWaker, notWakerAll⟩ := waiting_alone stays stage
  have rests : Rests thread { shared with history := { shared.history with
      woken := shared.history.woken.filter (·.1 ≠ thread) } } (lockStep thread
        { shared with history := { shared.history with
          woken := shared.history.woken.filter (·.1 ≠ thread) } } holds version range true) := by
    refine lockStep_rests { versions with }
      { waits.parks with } ⟨?_, ?_, notWaker, notWakerAll⟩ nofun ?_ notOne
    · intro wanted mem
      obtain ⟨reset, isStage⟩ := stays.parked wanted mem
      exact outside (same wanted reset isStage ▸ mem)
    · exact fun wanted mem => of_decide_eq_true (mem_filter.mp mem).2 rfl
    · -- A locker whose id is gone served nobody of the living one.
      intro unknown phase waiting
      rcases waits.served phase waiting with shown | waker | wakerAll | ⟨entry, mem, wants⟩
      · exact .inl shown
      · exact .inr (.inl waker)
      · exact .inr (.inr (.inl wakerAll))
      · refine .inr (.inr (.inr ⟨entry, mem_filter.mpr ⟨mem, decide_eq_true ?_⟩, wants⟩))
        intro mine
        obtain ⟨⟨reset, isStage⟩, -⟩ := stays.woken entry.2 (mine ▸ mem)
        have known : shared.hasVersion version = true :=
          decide_eq_true (same entry.2 reset isStage ▸ wants)
        exact false_ne_true (unknown.symm.trans known)
  refine ⟨rests.common, rests.own, { rests.disturbs with woken := ?_ }⟩
  intro other wanted distinct mem
  exact (rests.disturbs.woken other wanted distinct mem).imp_left
    fun before => (mem_filter.mp before).1

theorem wake_rests (stage : own.stage = .waking) :
    Rests thread shared (shared.wake thread, ⟨holds, .ready result⟩) := by
  have parks := waits.parks
  have notParked : ∀ version, (thread, version) ∉ shared.parked := by
    intro version mem
    obtain ⟨range, isStage⟩ := stays.parked version mem
    exact absurd (isStage.symm.trans stage) nofun
  have notWoken : ∀ version, (thread, version) ∉ shared.history.woken := by
    intro version mem
    obtain ⟨⟨range, isStage⟩, -⟩ := stays.woken version mem
    exact absurd (isStage.symm.trans stage) nofun
  have more : shared.parked.tail ≠ [] → shared.parked ≠ [] := by
    intro rest none
    rw [none] at rest
    exact rest rfl
  have head : ∀ entry ∈ shared.parked.take 1, entry ∈ shared.parked ∧
      entry ∉ shared.parked.tail := by
    intro entry mem
    refine ⟨mem_of_mem_take mem, ?_⟩
    have nodup := parks.nodup
    rw [← take_append_drop 1 shared.parked] at nodup
    exact fun rest => (nodup_append'.mp nodup).2.2 mem (drop_one ▸ rest)
  refine ⟨⟨⟨parks.nodup.sublist (tail_sublist _), ?_, ?_, ?_, ?_⟩, ?_⟩,
    ⟨nofun, ?_, ?_, ?_, ?_⟩, ⟨fun _ _ expects => expects, ?_, ?_, ?_, fun _ _ mem => mem⟩⟩
  · intro other dead
    simp [Shared.wake, parks.gone other dead]
  · exact fun dead rest => parks.closing dead (more rest)
  · exact fun phase entry mem => parks.wanted phase entry (mem_of_mem_tail mem)
  · exact fun phase unlockable rest => parks.unlockable phase unlockable (more rest)
  · intro phase rest
    obtain ⟨entry, _, isParked⟩ := exists_cons_of_ne_nil (more rest)
    have first : entry ∈ shared.parked.take 1 := by
      rw [isParked]
      exact .head _
    exact .inr (.inr (.inr ⟨entry, mem_append_left _ first,
      parks.wanted phase entry (head entry first).1⟩))
  · exact fun version mem => absurd (mem_of_mem_tail mem) (notParked version)
  · intro version mem
    rcases mem_append.mp mem with first | before
    · exact absurd (head _ first).1 (notParked version)
    · exact absurd before (notWoken version)
  · exact fun mem => absurd rfl (of_decide_eq_true (mem_filter.mp mem).2)
  · intro mem
    rcases stays.wakersAll mem with isStage | isStage
    · exact absurd (isStage.symm.trans stage) nofun
    · exact absurd (isStage.symm.trans stage) nofun
  · exact fun _ _ _ mem => mem_of_mem_tail mem
  · intro other version _ mem
    rcases mem_append.mp mem with first | before
    · exact .inr (head _ first)
    · exact .inl before
  · exact fun _ _ mem => (mem_filter.mp mem).1

end

theorem wakeAll_rests (stays : Stays thread shared own)
    (stage : own.stage = .wakingAll ∨ own.stage = .closing)
    (parking : ∀ version range expected, next.stage ≠ .parking version range expected)
    (firstVer : after.firstVer = shared.firstVer) (lockedVer : after.lockedVer = shared.lockedVer)
    (parked : after.parked = [])
    (woken : after.history.woken = shared.parked ++ shared.history.woken)
    (wakers : after.history.wakers = shared.history.wakers)
    (wakersAll : after.history.wakersAll = shared.history.wakersAll.filter (· ≠ thread)) :
    Rests thread shared (after, next) := by
  have notWaiting : ∀ version range, own.stage ≠ .waiting version range := by
    intro version range isStage
    rcases stage with isWaking | isClosing
    · exact absurd (isStage.symm.trans isWaking) nofun
    · exact absurd (isStage.symm.trans isClosing) nofun
  refine ⟨⟨⟨parked ▸ nodup_nil, fun _ _ => parked, fun _ waiting => absurd parked waiting, ?_,
    fun _ _ waiting => absurd parked waiting⟩, fun _ waiting => absurd parked waiting⟩,
    ⟨fun version range expected same => absurd same (parking version range expected), ?_, ?_, ?_, ?_⟩,
    ⟨?_, ?_, ?_, fun _ _ mem => wakers ▸ mem, ?_⟩⟩
  · intro _ _ mem
    rw [parked] at mem
    nomatch mem
  · intro version mem
    rw [parked] at mem
    nomatch mem
  · intro version mem
    rw [woken] at mem
    rcases mem_append.mp mem with inside | before
    · obtain ⟨range, isStage⟩ := stays.parked version inside
      exact absurd isStage (notWaiting version range)
    · obtain ⟨⟨range, isStage⟩, -⟩ := stays.woken version before
      exact absurd isStage (notWaiting version range)
  · intro mem
    rw [wakers] at mem
    rcases stage with isWaking | isClosing
    · exact absurd ((stays.wakers mem).symm.trans isWaking) nofun
    · exact absurd ((stays.wakers mem).symm.trans isClosing) nofun
  · intro mem
    rw [wakersAll] at mem
    exact absurd rfl (of_decide_eq_true (mem_filter.mp mem).2)
  · unfold Shared.Expects
    rw [firstVer, lockedVer]
    exact fun _ _ expects => expects
  · intro other version _ mem
    rw [parked] at mem
    nomatch mem
  · intro other version _ mem
    rw [woken] at mem
    rcases mem_append.mp mem with inside | before
    · refine .inr ⟨inside, ?_⟩
      rw [parked]
      exact not_mem_nil
    · exact .inl before
  · intro other _ mem
    rw [wakersAll] at mem
    exact (mem_filter.mp mem).1

theorem returning_rests (waits : Waits shared) (absent : Absent thread shared)
    (closed : shared.history.phase = .closed thread) (unmoved : Unmoved shared after)
    (phase : after.history.phase = .free) (firstVer : after.firstVer = shared.firstVer)
    (lockedVer : after.lockedVer = shared.lockedVer)
    (parking : ∀ version range expected, next.stage ≠ .parking version range expected) :
    Rests thread shared (after, next) := by
  have nobody : after.parked = [] := unmoved.parked.trans (waits.parks.gone thread (.inr closed))
  refine ⟨⟨⟨nobody ▸ nodup_nil, fun _ _ => nobody, fun _ waiting => absurd nobody waiting, ?_,
    fun _ _ waiting => absurd nobody waiting⟩, fun _ waiting => absurd nobody waiting⟩,
    stays_of_absent (absent_unmoved absent unmoved)
      (fun version range expected same => absurd same (parking version range expected)),
    disturbs_unmoved unmoved ?_⟩
  · intro live
    rw [phase] at live
    nomatch live
  · unfold Shared.Expects
    rw [firstVer, lockedVer]
    exact fun _ _ expects => expects

end

/-- Careful events while the id is in order. -/
def Orderly (state : State) (event : Nat × Event) : Prop :=
  Careful state event ∧ lockOutline.Holds state

theorem act_rests (holds : waitOutline.Holds state) (orderly : Orderly state (thread, event))
    (acted : act thread state.shared (state.locals thread) event = some result) :
    Rests thread state.shared result := by
  obtain ⟨⟨proper, careful⟩, lock⟩ := orderly
  have versions := lock.common.versions
  have waits : Waits state.shared := holds.common
  have stays : Stays thread state.shared (state.locals thread) := holds.own thread
  have own := lock.own thread
  have ready : ∀ last, (state.locals thread).stage = .ready last → Absent thread state.shared := by
    intro last stage
    refine absent_of_stays stays ?_ ?_ ?_ ?_ <;> rw [stage] <;> exact nofun
  unfold act at acted
  split at acted
  · next stage => exact createStep_rests versions waits (ready _ stage) proper acted
  · next stage =>
    cases acted
    simp only [stage] at careful
    exact lockStep_rests versions waits.parks (ready _ stage) (fun _ => waits.served)
      (fun _ => waits.served) careful
  · next stage =>
    cases acted
    exact trylockStep_rests versions waits (ready _ stage)
  · next stage =>
    cases acted
    exact unlockStep_rests versions waits (ready _ stage)
  · next stage =>
    cases acted
    exact errorStep_rests versions waits (ready _ stage)
  · next stage =>
    cases acted
    simp only [stage] at careful
    exact aboutToDestroyStep_rests versions waits (ready _ stage) careful
  · next stage =>
    cases acted
    exact unlockAndDestroyStep_rests versions waits (ready _ stage)
  · next version range expected stage =>
    cases acted
    refine waitStep_rests versions waits ?_ (stays.parking version range expected stage)
    refine absent_of_stays stays ?_ ?_ ?_ ?_ <;> rw [stage] <;> exact nofun
  · next stage => exact interruptStep_rests waits stays stage acted
  · next stage =>
    simp only [stage] at careful
    exact resumeStep_rests waits stays versions stage careful acted
  · next stage =>
    cases acted
    exact wake_rests waits stays stage
  · next stage =>
    cases acted
    exact wakeAll_rests stays (.inl stage) nofun rfl rfl rfl rfl rfl rfl
  · next stage =>
    cases acted
    exact wakeAll_rests stays (.inr stage) nofun rfl rfl rfl rfl rfl rfl
  · next stage =>
    cases acted
    refine returning_rests waits ?_ (own.returning stage) {} rfl rfl rfl nofun
    refine absent_of_stays stays ?_ ?_ ?_ ?_ <;> rw [stage] <;> exact nofun
  · nomatch acted

theorem waitOutline_sound : waitOutline.Sound act Orderly := by
  refine Outline.sound_of_moves (fun _ _ => trivial) ?_
  intro _ _ _ _ own holds orderly acted
  have rests := act_rests holds orderly acted
  exact ⟨rests.common, rests.own, fun other distinct =>
    stays_disturbed distinct (holds.own other) rests.disturbs⟩

theorem waitOutline_start : waitOutline.Holds start :=
  ⟨⟨⟨nodup_nil, fun _ _ => rfl, fun _ waiting => absurd rfl waiting, nofun, nofun⟩, nofun⟩,
    fun _ => ⟨nofun, nofun, nofun, nofun, nofun⟩, fun _ _ _ => trivial⟩

/-- The version that a call is about. -/
def Event.version : Event → Option Nat
  | .lock version _ => some version
  | .trylock version => some version
  | .unlock version => some version
  | .error version _ _ => some version
  | .aboutToDestroy version => some version
  | .unlockAndDestroy version => some version
  | _ => none

/-- The thread is about to wake all lockers. -/
def Local.WakesAll (own : Local) : Bool :=
  decide (own.stage = .wakingAll ∨ own.stage = .closing)

theorem act_unknown (ready : own.stage = .ready last) (about : event.version = some version)
    (unknown : shared.hasVersion version = false) :
    act thread shared own event = some (rejects shared own.holds .einval) := by
  have notKnown : ¬ shared.hasVersion version = true := eq_false_iff.mp unknown
  cases event with
  | create _ | interrupt | proceed => nomatch about
  | lock wanted range =>
    cases about
    simp [act, ready, lockStep, if_neg notKnown]
  | trylock wanted =>
    cases about
    simp [act, ready, trylockStep, if_neg notKnown]
  | unlock wanted =>
    cases about
    simp [act, ready, unlockStep, if_neg notKnown]
  | error wanted errorCode errorText =>
    cases about
    simp [act, ready, errorStep, if_neg notKnown]
  | aboutToDestroy wanted =>
    cases about
    simp [act, ready, aboutToDestroyStep, if_neg notKnown]
  | unlockAndDestroy wanted =>
    cases about
    simp [act, ready, unlockAndDestroyStep, if_neg notKnown]

/-- A locker that waits for a version that is not known any more goes away. -/
theorem resumeStep_unknown {range : Int} (stage : own.stage = .waiting version range)
    (outside : (thread, version) ∉ shared.parked) (unknown : shared.hasVersion version = false) :
    ∃ next, act thread shared own .proceed = some (rejects next own.holds .einval) := by
  have notKnown : ¬ shared.hasVersion version = true := eq_false_iff.mp unknown
  refine ⟨{ shared with history := { shared.history with
    woken := shared.history.woken.filter (·.1 ≠ thread) } }, ?_⟩
  simp only [act, stage, resumeStep, if_neg outside]
  exact congrArg some (if_neg notKnown)

/-- Along every interleaving at most one thread holds the id. An error on a living id is invoked
once, while the id is locked, or is in the queue, or was dropped when the id was destroyed;
queued ones are invoked in the order they were posted, and none is left when the id is
unlocked. A version of a destroyed id is rejected by every call. And while a locker is parked
on an id that is unlocked a wake-up is on its way, and one for all lockers when the id is about
to be destroyed or is gone, if careful threads take turns. -/
theorem id_protocol (events : List (Nat × Event)) (final : State)
    (guarded : Machine.Guarded step Proper State.start events)
    (ran : Machine.run step State.start events = some final) :
    (∀ one other, (final.locals one).holds = true → (final.locals other).holds = true →
      one = other) ∧
    (final.shared.history.posted.Nodup ∧
      final.shared.history.posted.Perm (final.shared.history.invocations.map Invocation.error ++
        final.shared.pendingQ.toList ++ final.shared.history.dropped) ∧
      (((final.shared.history.invocations.filter Invocation.queued).map
        Invocation.error).reverse ++ final.shared.pendingQ.toList).Pairwise
          (fun older newer => older.serial < newer.serial) ∧
      (∀ invocation ∈ final.shared.history.invocations, invocation.locked = true) ∧
      (final.shared.butex = final.shared.firstVer → final.shared.pendingQ.toList = [])) ∧
    (∀ range ∈ final.shared.history.destroyed, ∀ version, range.1 ≤ version → version < range.2 →
      ∀ thread, (∀ last event, (final.locals thread).stage = .ready last →
          event.version = some version →
          act thread final.shared (final.locals thread) event =
            some (rejects final.shared (final.locals thread).holds .einval)) ∧
        (∀ reset, (final.locals thread).stage = .waiting version reset →
          (thread, version) ∉ final.shared.parked →
          ∃ next, act thread final.shared (final.locals thread) .proceed =
            some (rejects next (final.locals thread).holds .einval))) ∧
    (Machine.Guarded step Careful State.start events → final.shared.parked ≠ [] →
      (final.shared.butex = final.shared.firstVer →
        ∃ thread, (final.locals thread).Wakes final.shared thread = true) ∧
      (final.shared.history.phase ≠ .live ∨ final.shared.butex = final.shared.unlockableVer →
        ∃ thread, (final.locals thread).WakesAll = true)) := by
  have lock : lockOutline.Holds final :=
    lockOutline_sound.run events _ _ lockOutline_start guarded ran
  have versions := lock.common.versions
  have errors := lock.common.errors
  refine ⟨?_, ⟨?_, errors.account, errors.order, errors.locked, fun unlocked =>
    errors.drained fun _ => unlocked⟩, ?_, ?_⟩
  · intro one other first second
    exact some.inj (((lock.own one).holder first).symm.trans ((lock.own other).holder second))
  · exact errors.distinct.of_map
  · intro range destroyed version _ inside thread
    have unknown := hasVersion_destroyed versions destroyed inside
    exact ⟨fun last event ready about => act_unknown ready about unknown,
      fun reset waiting outside => resumeStep_unknown waiting outside unknown⟩
  · intro careful waiting
    have wait : waitOutline.Holds final := by
      refine waitOutline_sound.run events _ _ waitOutline_start ?_ ran
      exact Machine.guarded_and step
        (fun _ _ _ allowed taken => lockOutline_sound.step allowed.1 taken)
        lockOutline_start careful
    have parks : Parks final.shared := wait.common.parks
    have wakerAll : final.shared.history.wakersAll ≠ [] →
        ∃ thread, (final.locals thread).WakesAll = true := by
      intro nonempty
      obtain ⟨thread, mem⟩ := exists_mem_of_ne_nil _ nonempty
      exact ⟨thread, decide_eq_true ((wait.own thread).wakersAll mem)⟩
    have wakesAll : ∀ thread, (final.locals thread).WakesAll = true →
        (final.locals thread).Wakes final.shared thread = true := by
      intro thread all
      rcases of_decide_eq_true all with stage | stage
      · simp [Local.Wakes, stage]
      · simp [Local.Wakes, stage]
    constructor
    · intro unlocked
      by_cases phase : final.shared.history.phase = .live
      · have nonempty := (versions.live phase).nonempty
        rcases wait.common.served phase waiting with contended | waker | all | ⟨entry, mem, wants⟩
        · omega
        · obtain ⟨thread, mem⟩ := exists_mem_of_ne_nil _ waker
          refine ⟨thread, ?_⟩
          simp [Local.Wakes, (wait.own thread).wakers mem]
        · obtain ⟨thread, isAll⟩ := wakerAll all
          exact ⟨thread, wakesAll thread isAll⟩
        · obtain ⟨⟨range, stage⟩, outside⟩ := (wait.own entry.1).woken entry.2 mem
          refine ⟨entry.1, ?_⟩
          simp only [Local.Wakes, stage, and_eq_true]
          exact ⟨decide_eq_true outside, decide_eq_true wants⟩
      · obtain ⟨thread, isAll⟩ := wakerAll (parks.closing phase waiting)
        exact ⟨thread, wakesAll thread isAll⟩
    · rintro (dead | unlockable)
      · exact wakerAll (parks.closing dead waiting)
      · by_cases phase : final.shared.history.phase = .live
        · refine wakerAll (parks.unlockable phase ?_ waiting)
          exact unlockable.trans (unlockableVer_eq (versions.live phase))
        · exact wakerAll (parks.closing phase waiting)

/-- Two lockers park behind thread 1, which unlocks after the error that thread 4 posted. -/
def unlockContended : List (Nat × Event) :=
  [(1, .create 1), (1, .lock 1 0), (2, .lock 1 0), (2, .proceed), (3, .lock 1 0), (3, .proceed),
    (4, .error 1 5 "late"), (1, .unlock 1), (1, .unlock 1)]

theorem unlockContended_served :
    ∃ final, Machine.run step State.start unlockContended = some final ∧
      final.shared.parked = [(2, 1), (3, 1)] ∧ final.shared.butex = final.shared.firstVer ∧
      final.shared.history.invocations = [⟨⟨0, 1, 5, "late"⟩, 1, true, true⟩] ∧
      ∃ thread, (final.locals thread).Wakes final.shared thread = true := by
  have checked : ((Machine.run step start unlockContended).any fun final =>
      final.shared.parked = [(2, 1), (3, 1)] ∧ final.shared.butex = final.shared.firstVer ∧
        final.shared.history.invocations = [⟨⟨0, 1, 5, "late"⟩, 1, true, true⟩]) = true := by
    decide
  obtain ⟨final, ran, facts⟩ := (any_eq_true _ _).mp checked
  obtain ⟨parked, unlocked, invocations⟩ := of_decide_eq_true facts
  have protocol := id_protocol unlockContended final (by decide) ran
  refine ⟨final, ran, parked, unlocked, invocations, ?_⟩
  exact (protocol.2.2.2 (by decide) (by rw [parked]; exact cons_ne_nil _ _)).1 unlocked

/-- Lockers 2 and 3 are parked; 2 is woken when thread 1 unlocks, but thread 4 gets the lock
first, marks the id as about to be destroyed and then unlocks it after all. Locker 2 was told so
in between. -/
def markUncontended : List (Nat × Event) :=
  [(1, .create 1), (1, .lock 1 0), (2, .lock 1 0), (2, .proceed), (3, .lock 1 0), (3, .proceed),
    (1, .unlock 1), (1, .proceed), (4, .trylock 1), (4, .aboutToDestroy 1), (2, .proceed),
    (4, .unlock 1)]

/-- Locker 2 is on its way into `butex_wait` when thread 1 unlocks and thread 3 takes the lock
and makes the range one larger. -/
def resetUncontended : List (Nat × Event) :=
  [(1, .create 1), (1, .lock 1 0), (2, .lock 1 0), (1, .unlock 1), (1, .proceed), (3, .lock 1 2),
    (2, .proceed), (3, .unlock 1)]

/-- A locker is parked on the unlocked id, and no wake-up is on its way. -/
def State.Abandons (state : State) (locker : Nat × Nat) : Prop :=
  state.shared.history.phase = .live ∧ state.shared.butex = state.shared.firstVer ∧
    locker ∈ state.shared.parked ∧
    ∀ thread, (state.locals thread).Wakes state.shared thread = false

/-- Whether a locker is abandoned is seen from the threads that act. -/
theorem abandons_of_acting
    (checked : ((Machine.run step start events).any fun final =>
      final.shared.history.phase = .live ∧ final.shared.butex = final.shared.firstVer ∧
        locker ∈ final.shared.parked ∧
        ∀ event ∈ events, (final.locals event.1).Wakes final.shared event.1 = false) = true) :
    ∃ final, Machine.run step start events = some final ∧ final.Abandons locker := by
  obtain ⟨final, ran, facts⟩ := (any_eq_true _ _).mp checked
  obtain ⟨phase, unlocked, parked, acting⟩ := of_decide_eq_true facts
  refine ⟨final, ran, phase, unlocked, parked, ?_⟩
  exact run_everywhere act (fun thread own => own.Wakes final.shared thread = false) ran acting fun _ => rfl

theorem markUncontended_abandons :
    Machine.Guarded step Proper State.start markUncontended ∧
      ∃ final, Machine.run step State.start markUncontended = some final ∧
        final.Abandons (3, 1) :=
  ⟨by decide, abandons_of_acting (by decide +kernel)⟩

theorem resetUncontended_abandons :
    Machine.Guarded step Proper start resetUncontended ∧
      ∃ final, Machine.run step start resetUncontended = some final ∧
        final.Abandons (2, 1) :=
  ⟨by decide, abandons_of_acting (by decide +kernel)⟩

end CodeReading.Brpc.BthreadId
