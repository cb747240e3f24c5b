import CodeReading.Brpc.BthreadId
import Mathlib.Data.List.Nodup
import Mathlib.Data.List.Perm.Basic

/-!
# One holder, and every error once

The butex leaves `first_ver` only when a thread takes the lock and comes back to it
only when the holder gives it up, with no error left in the queue. Destroying the id
moves `first_ver` past all its versions, so that none of them is known again, as long
as the versions of the slot do not wrap around.
-/

namespace CodeReading.Brpc.BthreadId

open Threads List SmallQueue Shared

/-- Unlocking and destroying are up to the holder, and the versions do not wrap around. -/
def Proper (state : State) (event : Nat × Event) : Prop :=
  match event.2 with
  | .create _ => state.shared.butex + idMaxRange + 3 < 2 ^ 32
  | .unlock _ | .aboutToDestroy _ | .unlockAndDestroy _ => (state.locals event.1).holds = true
  | _ => True

instance (state : State) : ∀ event : Nat × Event, Decidable (Proper state event)
  | (_, event) => by
    induction event using Event.casesOn <;> dsimp only [Proper] <;> infer_instance

/-- The versions of a living id and the values of its butex. -/
structure Live (first locked butex : Nat) : Prop where
  started : 0 < first
  nonempty : first < locked
  ranged : locked ≤ first + idMaxRange
  fits : first + idMaxRange + 3 < 2 ^ 32
  butex : butex = first ∨ butex = locked ∨ butex = locked + 1 ∨ butex = locked + 2

structure Versions (shared : Shared) : Prop where
  live : shared.history.phase = .live → Live shared.firstVer shared.lockedVer shared.butex
  dead : shared.history.phase ≠ .live →
    shared.lockedVer = shared.firstVer ∧ shared.butex = shared.firstVer
  past : ∀ range ∈ shared.history.destroyed, 0 < range.2 ∧ range.2 ≤ shared.firstVer
  held : ∀ thread, shared.history.holder = some thread →
    shared.history.phase = .live ∧ shared.butex ≠ shared.firstVer

/-- Every error that was posted is accounted for, and queued ones are in order. -/
structure Errors (shared : Shared) : Prop where
  drained : (shared.history.phase = .live → shared.butex = shared.firstVer) →
    shared.pendingQ.toList = []
  account : shared.history.posted.Perm
    (shared.history.invocations.map Invocation.error ++ shared.pendingQ.toList ++
      shared.history.dropped)
  serials : ∀ error ∈ shared.history.posted, error.serial < shared.history.posted.length
  distinct : (shared.history.posted.map PendingError.serial).Nodup
  order : (((shared.history.invocations.filter Invocation.queued).map
    Invocation.error).reverse ++ shared.pendingQ.toList).Pairwise
      fun older newer => older.serial < newer.serial
  locked : ∀ invocation ∈ shared.history.invocations, invocation.locked = true

structure Common (shared : Shared) : Prop where
  versions : Versions shared
  errors : Errors shared

structure Own (thread : Nat) (shared : Shared) (own : Local) : Prop where
  holder : own.holds = true → shared.history.holder = some thread
  closing : own.stage = .closing → shared.history.phase = .closing thread
  returning : own.stage = .returning → shared.history.phase = .closed thread

def lockOutline : Outline Shared Local where
  common := Common
  own := Own
  apart := fun _ _ => True

/-- What an action of one thread does to the others. -/
structure Effect (thread : Nat) (before after : Shared) : Prop where
  holder : ∀ other, other ≠ thread → before.history.holder = some other →
    after.history.holder = some other
  closing : ∀ other, other ≠ thread → before.history.phase = .closing other →
    after.history.phase = .closing other
  closed : ∀ other, other ≠ thread → before.history.phase = .closed other →
    after.history.phase = .closed other

theorem own_effect {before after : Shared}
    (distinct : other ≠ thread) (own : Own other before theirs)
    (effect : Effect thread before after) : Own other after theirs :=
  ⟨fun holds => effect.holder other distinct (own.holder holds),
    fun closing => effect.closing other distinct (own.closing closing),
    fun returning => effect.closed other distinct (own.returning returning)⟩

structure Keeps (thread : Nat) (before : Shared) (result : Shared × Local) : Prop where
  common : Common result.1
  own : Own thread result.1 result.2
  effect : Effect thread before result.1

section

variable {shared : Shared}

theorem uint32_eq (fits : value < 2 ^ 32) : uint32 value = value :=
  Nat.mod_eq_of_lt fits

section

variable (live : Live shared.firstVer shared.lockedVer shared.butex)
include live

theorem contendedVer_eq : shared.contendedVer = shared.lockedVer + 1 := by
  have ranged := live.ranged
  have fits := live.fits
  exact uint32_eq (by omega)

theorem unlockableVer_eq : shared.unlockableVer = shared.lockedVer + 2 := by
  have ranged := live.ranged
  have fits := live.fits
  exact uint32_eq (by omega)

theorem endVer_eq : shared.endVer = shared.lockedVer + 3 := by
  have ranged := live.ranged
  have fits := live.fits
  unfold endVer
  rw [unlockableVer_eq live]
  exact uint32_eq (by omega)

/-- Taking the lock with a range can only add versions. -/
theorem resetRange_bounds (range : Int) : shared.lockedVer ≤ resetRange shared range ∧
      resetRange shared range ≤ shared.firstVer + idMaxRange := by
  have ranged := live.ranged
  have fits := live.fits
  unfold resetRange
  split
  · exact ⟨Nat.le_refl _, ranged⟩
  · split
    · exact ⟨Nat.le_refl _, ranged⟩
    · next larger =>
      obtain ⟨-, _, larger⟩ : ¬ range < 0 ∧ ¬ range > idMaxRange ∧
          ¬ uint32 (range.toNat + shared.firstVer) ≤ shared.lockedVer := by
        simpa only [not_or] using larger
      have bound : range.toNat ≤ idMaxRange := by omega
      rw [uint32_eq (by omega)] at larger
      rw [uint32_eq (by omega)]
      omega

end

theorem hasVersion_live (versions : Versions shared)
    (known : shared.hasVersion version = true) : shared.history.phase = .live := by
  by_contra dead
  obtain ⟨_, -⟩ := versions.dead dead
  have inside := of_decide_eq_true known
  omega

theorem hasVersion_destroyed (versions : Versions shared) {range : Nat × Nat}
    (destroyed : range ∈ shared.history.destroyed) (inside : version < range.2) :
    shared.hasVersion version = false := by
  refine decide_eq_false fun _ => ?_
  have past := (versions.past range destroyed).2
  omega

end

section

variable {shared after : Shared} {own : Local}

/-- The action does not touch the id. -/
structure Aside (before after : Shared) : Prop where
  firstVer : after.firstVer = before.firstVer := by rfl
  lockedVer : after.lockedVer = before.lockedVer := by rfl
  butex : after.butex = before.butex := by rfl
  pendingQ : after.pendingQ = before.pendingQ := by rfl
  holder : after.history.holder = before.history.holder := by rfl
  posted : after.history.posted = before.history.posted := by rfl
  invocations : after.history.invocations = before.history.invocations := by rfl
  dropped : after.history.dropped = before.history.dropped := by rfl
  destroyed : after.history.destroyed = before.history.destroyed := by rfl

/-- What is posted, queued and invoked stays the same. -/
theorem kept_errors (errors : Errors shared) (drained : (after.history.phase = .live →
      after.butex = after.firstVer) → after.pendingQ.toList = [])
    (pendingQ : after.pendingQ = shared.pendingQ)
    (posted : after.history.posted = shared.history.posted)
    (invocations : after.history.invocations = shared.history.invocations)
    (dropped : after.history.dropped = shared.history.dropped) : Errors after := by
  constructor
  · exact drained
  · rw [posted, invocations, pendingQ, dropped]
    exact errors.account
  · rw [posted]
    exact errors.serials
  · rw [posted]
    exact errors.distinct
  · rw [invocations, pendingQ]
    exact errors.order
  · rw [invocations]
    exact errors.locked

theorem aside_common (common : Common shared) (aside : Aside shared after)
    (phase : after.history.phase = .live ↔ shared.history.phase = .live) : Common after := by
  obtain ⟨firstVer, lockedVer, butex, pendingQ, holder, posted, invocations, dropped, destroyed⟩ :=
    aside
  obtain ⟨versions, errors⟩ := common
  constructor
  · constructor
    · rw [phase, firstVer, lockedVer, butex]
      exact versions.live
    · rw [ne_eq, phase, firstVer, lockedVer, butex]
      exact versions.dead
    · rw [destroyed, firstVer]
      exact versions.past
    · rw [holder, phase, butex, firstVer]
      exact versions.held
  · refine kept_errors errors ?_ pendingQ posted invocations dropped
    rw [phase, butex, firstVer, pendingQ]
    exact errors.drained

/-- A step of a thread that leaves the id and its phase alone. -/
theorem aside_keeps {next : Local} (common : Common shared) (before : Own thread shared own)
    (aside : Aside shared after := by exact {})
    (phase : after.history.phase = shared.history.phase := by rfl)
    (holds : next.holds = own.holds := by rfl) (notClosing : next.stage ≠ .closing := by nofun)
    (notReturning : next.stage ≠ .returning := by nofun) : Keeps thread shared (after, next) := by
  refine ⟨aside_common common aside (by rw [phase]), ⟨?_, ?_, ?_⟩, ⟨?_, ?_, ?_⟩⟩
  · intro isHolder
    rw [aside.holder]
    exact before.holder (holds ▸ isHolder)
  · exact fun closing => absurd closing notClosing
  · exact fun returning => absurd returning notReturning
  · exact fun _ _ holder => aside.holder.trans holder
  · exact fun _ _ closing => phase.trans closing
  · exact fun _ _ closed => phase.trans closed

/-- A step from a state that differs in who waits only. -/
theorem keeps_of_aside
    (keeps : Keeps thread between result) (holder : between.history.holder = shared.history.holder)
    (phase : between.history.phase = shared.history.phase) : Keeps thread shared result := by
  obtain ⟨common, kept, effect⟩ := keeps
  refine ⟨common, kept, ⟨?_, ?_, ?_⟩⟩
  · exact fun other distinct theirs => effect.holder other distinct (holder.trans theirs)
  · exact fun other distinct theirs => effect.closing other distinct (phase.trans theirs)
  · exact fun other distinct theirs => effect.closed other distinct (phase.trans theirs)

theorem rejects_keeps (common : Common shared) (before : Own thread shared own) :
    Keeps thread shared (rejects shared own.holds result) :=
  aside_keeps common before

/-- The versions after a step on a living id that stays locked or is taken. -/
theorem busy_versions (versions : Versions shared) (live : shared.history.phase = .live)
    (phase : after.history.phase = .live) (firstVer : after.firstVer = shared.firstVer)
    (grows : shared.lockedVer ≤ after.lockedVer)
    (ranged : after.lockedVer ≤ shared.firstVer + idMaxRange)
    (butex : after.butex = after.lockedVer ∨ after.butex = after.lockedVer + 1 ∨
      after.butex = after.lockedVer + 2)
    (destroyed : after.history.destroyed = shared.history.destroyed) : Versions after := by
  have before := versions.live live
  have nonempty := before.nonempty
  constructor
  · intro _
    rw [firstVer]
    exact ⟨before.started, by omega, ranged, before.fits, .inr butex⟩
  · exact fun dead => absurd phase dead
  · rw [destroyed, firstVer]
    exact versions.past
  · intro _ _
    exact ⟨phase, by omega⟩

theorem take_own (holder : after.history.holder = some thread) (notClosing : stage ≠ .closing)
    (notReturning : stage ≠ .returning) : Own thread after ⟨true, stage⟩ :=
  ⟨fun _ => holder, fun closing => absurd closing notClosing,
    fun returning => absurd returning notReturning⟩

theorem take_effect (versions : Versions shared) (live : shared.history.phase = .live)
    (unlocked : shared.butex = shared.firstVer) : Effect thread shared after := by
  refine ⟨?_, ?_, ?_⟩
  · exact fun other _ holder => absurd unlocked (versions.held other holder).2
  · intro other _ closing
    rw [live] at closing
    nomatch closing
  · intro other _ closed
    rw [live] at closed
    nomatch closed

/-- The holder of a living id acts, and keeps it or not. -/
theorem holder_effect (before : Own thread shared own) (holds : own.holds = true)
    (live : shared.history.phase = .live) : Effect thread shared after := by
  refine ⟨?_, ?_, ?_⟩
  · intro other distinct holder
    exact absurd (Option.some.inj (holder.symm.trans (before.holder holds))) distinct
  · intro other _ closing
    rw [live] at closing
    nomatch closing
  · intro other _ closed
    rw [live] at closed
    nomatch closed

section

variable (common : Common shared) (before : Own thread shared own)
include common before

theorem lockStep_keeps {range : Int} :
    Keeps thread shared (lockStep thread shared own.holds version range everContended) := by
  unfold lockStep
  split
  · next known =>
    have live := hasVersion_live common.versions known
    have versions := common.versions.live live
    have nonempty := versions.nonempty
    split
    · next unlocked =>
      obtain ⟨grows, ranged⟩ := resetRange_bounds versions range
      have contended : contendedVer { shared with lockedVer := resetRange shared range } =
          resetRange shared range + 1 := by
        have fits := versions.fits
        exact uint32_eq (show resetRange shared range + 1 < 2 ^ 32 by omega)
      have butex : (if everContended then
          contendedVer { shared with lockedVer := resetRange shared range }
          else resetRange shared range) = resetRange shared range ∨
          (if everContended then
            contendedVer { shared with lockedVer := resetRange shared range }
            else resetRange shared range) = resetRange shared range + 1 := by
        rw [contended]
        split
        · exact .inr rfl
        · exact .inl rfl
      refine ⟨⟨busy_versions common.versions live live rfl grows ranged
        (butex.imp_right .inl) rfl, kept_errors common.errors
          (fun idle => absurd (idle live) ?_) rfl rfl rfl rfl⟩,
        take_own rfl nofun nofun, take_effect common.versions live unlocked⟩
      dsimp only
      rcases butex with same | same <;> rw [same] <;> omega
    · split
      · have contended := contendedVer_eq versions
        refine ⟨⟨busy_versions common.versions live live rfl (Nat.le_refl _) versions.ranged
          (.inr (.inl contended)) rfl, kept_errors common.errors
          (fun idle => absurd (idle live) ?_) rfl rfl rfl rfl⟩, ⟨before.holder, nofun, nofun⟩,
          ⟨fun _ _ holder => holder, fun _ _ closing => closing, fun _ _ closed => closed⟩⟩
        dsimp only
        omega
      · exact rejects_keeps common before
  · exact rejects_keeps common before

theorem trylockStep_keeps : Keeps thread shared (trylockStep thread shared own.holds version) := by
  unfold trylockStep
  split
  · next known =>
    have live := hasVersion_live common.versions known
    have versions := common.versions.live live
    split
    · exact rejects_keeps common before
    · next free =>
      have unlocked : shared.butex = shared.firstVer := not_not.mp free
      refine ⟨⟨busy_versions common.versions live live rfl (Nat.le_refl _) versions.ranged
        (.inl rfl) rfl, kept_errors common.errors
          (fun idle => absurd (idle live) ?_) rfl rfl rfl rfl⟩,
        take_own rfl nofun nofun, take_effect common.versions live unlocked⟩
      exact Nat.ne_of_gt versions.nonempty
  · exact rejects_keeps common before

theorem createStep_keeps {range : Int} (fits : shared.butex + idMaxRange + 3 < 2 ^ 32)
    (acted : createStep shared own.holds range = some result) : Keeps thread shared result := by
  unfold createStep at acted
  split at acted
  · cases acted
    exact rejects_keeps common before
  · next valid =>
    obtain ⟨free, acted⟩ := Option.ite_none_right_eq_some.mp acted
    cases acted
    have dead : shared.history.phase ≠ .live := by
      rw [free]
      exact nofun
    obtain ⟨-, _⟩ := common.versions.dead dead
    have noWrap : ¬ uint32 (shared.butex + idMaxRange + 2) < shared.butex := by
      rw [uint32_eq (by omega)]
      omega
    have first : ∃ first, (if 0 = shared.butex ∨
        uint32 (shared.butex + idMaxRange + 2) < shared.butex then 1 else shared.butex) = first ∧
        0 < first ∧ shared.butex ≤ first ∧ first + idMaxRange + 3 < 2 ^ 32 := by
      by_cases zero : 0 = shared.butex
      · refine ⟨1, if_pos (.inl zero), Nat.one_pos, by omega, by decide⟩
      · refine ⟨shared.butex, if_neg ?_, by omega, Nat.le_refl _, fits⟩
        rintro (isZero | wraps)
        · exact zero isZero
        · exact noWrap wraps
    obtain ⟨first, isFirst, positive, _, room⟩ := first
    simp only [isFirst]
    have ranged : uint32 (first + range.toNat) = first + range.toNat := uint32_eq (by omega)
    have nobody : ∀ other, shared.history.holder ≠ some other :=
      fun other holder => dead (common.versions.held other holder).1
    have errors := common.errors
    refine ⟨⟨⟨?_, fun dead => absurd rfl dead, ?_, ?_⟩, { errors with drained := ?_ }⟩, ⟨?_, nofun,
      nofun⟩, ⟨?_, ?_, ?_⟩⟩
    · intro _
      dsimp only
      rw [ranged]
      exact ⟨positive, by omega, by omega, room, .inl rfl⟩
    · intro destroyed mem
      obtain ⟨nonzero, _⟩ := common.versions.past destroyed mem
      exact ⟨nonzero, by dsimp only; omega⟩
    · exact fun other holder => absurd holder (nobody other)
    · exact fun _ => errors.drained fun live => absurd live dead
    · exact fun holds => absurd (before.holder holds) (nobody thread)
    · exact fun other _ holder => absurd holder (nobody other)
    · intro other _ closing
      rw [free] at closing
      nomatch closing
    · intro other _ closed
      rw [free] at closed
      nomatch closed

end

theorem pop_errors (errors : Errors shared) (live : shared.history.phase = .live)
    (locked : shared.butex ≠ shared.firstVer) (popped : shared.pendingQ.pop = some (front, rest)) :
    Errors ({ shared with pendingQ := rest }.invoke thread front true) := by
  have queue := pop_some popped
  have account := errors.account
  have order := errors.order
  rw [queue] at account order
  refine ⟨fun unlocked => absurd (unlocked live) locked, ?_, errors.serials, errors.distinct, ?_, ?_⟩
  · refine account.trans ?_
    simp only [invoke, map_cons, append_assoc, cons_append]
    exact perm_middle
  · simpa only [invoke, filter_cons_of_pos, map_cons, reverse_cons,
      append_assoc, singleton_append] using order
  · intro invocation mem
    rcases mem_cons.mp mem with rfl | mem
    · exact decide_eq_true locked
    · exact errors.locked invocation mem

variable {error : PendingError}

theorem post_serials (errors : Errors shared) (next : error.serial = shared.history.posted.length) :
    (∀ other ∈ error :: shared.history.posted,
      other.serial < (error :: shared.history.posted).length) ∧
      ((error :: shared.history.posted).map PendingError.serial).Nodup := by
  constructor
  · intro other mem
    rw [length_cons]
    rcases mem_cons.mp mem with rfl | mem
    · omega
    · exact Nat.lt_succ_of_lt (errors.serials other mem)
  · refine nodup_cons.mpr ⟨?_, errors.distinct⟩
    intro mem
    obtain ⟨other, posted, _⟩ := mem_map.mp mem
    have older := errors.serials other posted
    omega

section

variable (errors : Errors shared) (next : error.serial = shared.history.posted.length)
  (phase : after.history.phase = .live) (locked : after.butex ≠ after.firstVer)
  (posted : after.history.posted = error :: shared.history.posted)
  (dropped : after.history.dropped = shared.history.dropped)
include errors next phase locked posted dropped

/-- An error that finds the id unlocked is invoked at once. -/
theorem invoke_errors (thread : Nat) (pendingQ : after.pendingQ = shared.pendingQ)
    (invocations : after.history.invocations = ⟨error, thread, false, true⟩ ::
      shared.history.invocations) : Errors after := by
  obtain ⟨serials, distinct⟩ := post_serials errors next
  refine ⟨fun unlocked => absurd (unlocked phase) locked, ?_, posted ▸ serials, posted ▸ distinct,
    ?_, ?_⟩
  · rw [posted, invocations, pendingQ, dropped]
    exact errors.account.cons error
  · rw [invocations, pendingQ, filter_cons_of_neg (by exact Bool.false_ne_true)]
    exact errors.order
  · rw [invocations]
    intro invocation mem
    rcases mem_cons.mp mem with rfl | mem
    · rfl
    · exact errors.locked invocation mem

/-- An error that finds the id locked is queued behind the others. -/
theorem push_errors (pendingQ : after.pendingQ = shared.pendingQ.push error)
    (invocations : after.history.invocations = shared.history.invocations) : Errors after := by
  obtain ⟨serials, distinct⟩ := post_serials errors next
  refine ⟨fun unlocked => absurd (unlocked phase) locked, ?_, posted ▸ serials, posted ▸ distinct,
    ?_, invocations ▸ errors.locked⟩
  · rw [posted, invocations, pendingQ, dropped, toList_push]
    refine (errors.account.cons error).trans ?_
    simp only [append_assoc, singleton_append]
    rw [← append_assoc, ← append_assoc]
    exact perm_middle.symm
  · rw [invocations, pendingQ, toList_push, ← append_assoc]
    refine pairwise_append.mpr ⟨errors.order, pairwise_singleton _ _, ?_⟩
    intro older mem _ isNew
    obtain rfl := mem_singleton.mp isNew
    rw [next]
    refine errors.serials older (errors.account.mem_iff.mpr ?_)
    refine mem_append_left _ ?_
    rcases mem_append.mp mem with invoked | queued
    · refine mem_append_left _ ?_
      obtain ⟨invocation, kept, rfl⟩ := mem_map.mp (mem_reverse.mp invoked)
      exact mem_map_of_mem (mem_filter.mp kept).1
    · exact mem_append_right _ queued

end

section

variable (common : Common shared) (before : Own thread shared own)
include common before

theorem unlockStep_keeps (holds : own.holds = true) :
    Keeps thread shared (unlockStep thread shared own.holds version) := by
  obtain ⟨live, locked⟩ := common.versions.held thread (before.holder holds)
  have versions := common.versions.live live
  have errors := common.errors
  unfold unlockStep
  rw [if_neg locked]
  split
  · split
    · next _ _ popped =>
      refine ⟨⟨{ common.versions with }, pop_errors errors live locked popped⟩,
        ⟨before.holder, nofun, nofun⟩, ?_⟩
      exact ⟨fun _ _ holder => holder, fun _ _ closing => closing, fun _ _ closed => closed⟩
    · next popped =>
      have drained := pop_none popped
      refine ⟨⟨⟨?_, fun dead => absurd live dead, common.versions.past, nofun⟩,
        { errors with drained := fun _ => drained }⟩, ⟨nofun, ?_, ?_⟩,
          holder_effect before holds live⟩
      · exact fun _ => { versions with butex := .inl rfl }
      · intro closing
        dsimp only at closing
        split at closing <;> nomatch closing
      · intro returning
        dsimp only at returning
        split at returning <;> nomatch returning
  · exact rejects_keeps common before

theorem errorStep_keeps :
    Keeps thread shared (errorStep thread shared own.holds version errorCode errorText) := by
  unfold errorStep
  split
  · next known =>
    have live := hasVersion_live common.versions known
    have versions := common.versions.live live
    split
    · next unlocked =>
      have locked : shared.lockedVer ≠ shared.firstVer := Nat.ne_of_gt versions.nonempty
      refine ⟨⟨busy_versions common.versions live live rfl (Nat.le_refl _) versions.ranged
        (.inl rfl) rfl, invoke_errors common.errors rfl live locked rfl rfl thread rfl ?_⟩,
        take_own rfl nofun nofun, take_effect common.versions live unlocked⟩
      simp [invoke, decide_eq_true locked]
    · next locked =>
      refine ⟨⟨{ common.versions with }, push_errors common.errors rfl live locked rfl rfl rfl rfl⟩,
        ⟨before.holder, nofun, nofun⟩, ?_⟩
      exact ⟨fun _ _ holder => holder, fun _ _ closing => closing, fun _ _ closed => closed⟩
  · exact rejects_keeps common before

theorem aboutToDestroyStep_keeps :
    Keeps thread shared (aboutToDestroyStep thread shared own.holds version) := by
  unfold aboutToDestroyStep
  split
  · next known =>
    have live := hasVersion_live common.versions known
    have versions := common.versions.live live
    have unlockable := unlockableVer_eq versions
    have nonempty := versions.nonempty
    split
    · exact rejects_keeps common before
    · refine ⟨⟨busy_versions common.versions live live rfl (Nat.le_refl _) versions.ranged
        (.inr (.inr unlockable)) rfl, kept_errors common.errors
          (fun idle => absurd (idle live) ?_) rfl rfl rfl rfl⟩, ⟨before.holder, ?_, ?_⟩,
        ⟨fun _ _ holder => holder, fun _ _ closing => closing, fun _ _ closed => closed⟩⟩
      · dsimp only
        omega
      · intro closing
        dsimp only at closing
        split at closing <;> nomatch closing
      · intro returning
        dsimp only at returning
        split at returning <;> nomatch returning
  · exact rejects_keeps common before

theorem unlockAndDestroyStep_keeps (holds : own.holds = true) :
    Keeps thread shared (unlockAndDestroyStep thread shared own.holds version) := by
  obtain ⟨live, locked⟩ := common.versions.held thread (before.holder holds)
  have versions := common.versions.live live
  have errors := common.errors
  have ended := endVer_eq versions
  have nonempty := versions.nonempty
  unfold unlockAndDestroyStep
  rw [if_neg locked]
  split
  · refine ⟨⟨⟨nofun, fun _ => ⟨rfl, rfl⟩, ?_, nofun⟩, ⟨fun _ => rfl, ?_, errors.serials,
      errors.distinct, ?_, errors.locked⟩⟩, ⟨nofun, fun _ => rfl, nofun⟩,
      holder_effect before holds live⟩
    · intro range mem
      dsimp only
      rcases mem_cons.mp mem with rfl | mem
      · exact ⟨by dsimp only; omega, by dsimp only; omega⟩
      · obtain ⟨nonzero, _⟩ := common.versions.past range mem
        exact ⟨nonzero, by omega⟩
    · have account := errors.account
      rw [append_assoc] at account
      simpa only [toList_clear, append_nil] using account
    · rw [toList_clear, append_nil]
      exact (pairwise_append.mp errors.order).1
  · exact rejects_keeps common before

end

end

theorem act_keeps (common : Common state.shared)
    (before : Own thread state.shared (state.locals thread)) (proper : Proper state (thread, event))
    (acted : act thread state.shared (state.locals thread) event = some result) :
    Keeps thread state.shared result := by
  unfold act at acted
  split at acted
  · exact createStep_keeps common before proper acted
  · cases acted
    exact lockStep_keeps common before
  · cases acted
    exact trylockStep_keeps common before
  · cases acted
    exact unlockStep_keeps common before proper
  · cases acted
    exact errorStep_keeps common before
  · cases acted
    exact aboutToDestroyStep_keeps common before
  · cases acted
    exact unlockAndDestroyStep_keeps common before proper
  · cases acted
    unfold waitStep
    split
    · exact aside_keeps common before
    · exact aside_keeps common before
  · obtain ⟨-, acted⟩ := Option.ite_none_right_eq_some.mp acted
    cases acted
    exact aside_keeps common before
  · obtain ⟨-, acted⟩ := Option.ite_none_left_eq_some.mp acted
    cases acted
    refine keeps_of_aside (lockStep_keeps ?_ ?_) rfl rfl
    · exact aside_common common {} Iff.rfl
    · exact { before with }
  · cases acted
    exact aside_keeps common before
  · cases acted
    exact aside_keeps common before
  · next atClosing =>
    cases acted
    have closing := before.closing atClosing
    refine ⟨aside_common common {} ?_, ⟨before.holder, nofun, fun _ => rfl⟩,
      ⟨fun _ _ holder => holder, ?_, ?_⟩⟩
    · rw [closing]
      exact ⟨nofun, nofun⟩
    · intro other distinct theirs
      exact absurd (Phase.closing.inj (theirs.symm.trans closing)) distinct
    · intro other _ theirs
      rw [closing] at theirs
      nomatch theirs
  · next atReturning =>
    cases acted
    have closed := before.returning atReturning
    refine ⟨aside_common common {} ?_, ⟨before.holder, nofun, nofun⟩,
      ⟨fun _ _ holder => holder, ?_, ?_⟩⟩
    · rw [closed]
      exact ⟨nofun, nofun⟩
    · intro other _ theirs
      rw [closed] at theirs
      nomatch theirs
    · intro other distinct theirs
      exact absurd (Phase.closed.inj (theirs.symm.trans closed)) distinct
  · nomatch acted

theorem lockOutline_sound : lockOutline.Sound act Proper := by
  refine Outline.sound_of_moves (fun _ _ => trivial) ?_
  intro state thread event shared own holds proper acted
  have keeps := act_keeps holds.common (holds.own thread) proper acted
  exact ⟨keeps.common, keeps.own, fun other distinct =>
    own_effect distinct (holds.own other) keeps.effect⟩

theorem lockOutline_start : lockOutline.Holds State.start := by
  refine ⟨⟨⟨nofun, fun _ => ⟨rfl, rfl⟩, nofun, nofun⟩, ⟨fun _ => rfl, List.Perm.refl _, nofun,
    nodup_nil, List.Pairwise.nil, nofun⟩⟩, fun _ => ⟨nofun, nofun, nofun⟩,
    fun _ _ _ => trivial⟩

end CodeReading.Brpc.BthreadId
