import CodeReading.Disruptor.Claiming

/-!
# Waking up consumers

Of the blocking strategy: a consumer compares the cursor and parks with the mutex of
its strategy object held, and a publisher notifies, with the mutex of the
sequencer's strategy object held, after the add on the cursor. When the two objects
are one, the notification cannot fall between comparison and parking. They are not
one in the source: every barrier that `NewBarrier` makes has an object of its own,
and no notification reaches a consumer that parked.
-/

namespace CodeReading.Disruptor

open Threads Option List

/-- A call of `Publish` is in progress. -/
def Local.Publishes : Local → Prop
  | .publishing _ => True
  | _ => False

/-- The thread is between the add on the cursor and the notification. -/
def Local.Signals : Local → Prop
  | .publishing .signalling => True
  | .publishing .notifying => True
  | _ => False

/-- The strategy object whose mutex the thread holds. -/
def Local.Holds (setup : Setup) (strategy : Nat) : Local → Prop
  | .publishing .notifying => strategy = sequencerStrategy
  | .waiting call .comparing => strategy = setup.strategyOf call.barrier
  | .waiting call .minding => strategy = setup.strategyOf call.barrier
  | _ => False

/-- A consumer that goes for the mutex of its strategy object waits on the sequencer's: its
first look at the cursor finds the sequence there, or the two share the object. -/
def Shares (setup : Setup) (state : State) (event : Nat × Event) : Prop :=
  match state.locals event.1 with
  | .waiting call .arriving =>
      setup.strategyOf call.barrier = sequencerStrategy ∨ call.sequence ≤ state.shared.cursor
  | _ => True

/-- Somebody is about to notify. -/
def Pending (shared : Shared) : Prop := shared.history.pending ≠ []

/-- What a thread knows of the notifications while it compares, parks and returns. -/
def Attends (setup : Setup) (thread : Nat) (shared : Shared) : Local → Prop
  | .waiting call .locking => setup.strategyOf call.barrier = sequencerStrategy
  | .waiting call .comparing => setup.strategyOf call.barrier = sequencerStrategy
  | .waiting call .minding =>
      setup.strategyOf call.barrier = sequencerStrategy ∧
        (call.sequence ≤ shared.cursor → Pending shared)
  | .waiting call .parked =>
      setup.strategyOf call.barrier = sequencerStrategy ∧
        (call.sequence ≤ shared.cursor → Pending shared ∨
          (sequencerStrategy, thread) ∉ shared.parked ∧
            (sequencerStrategy, shared.cursor) ∈ shared.history.notifications)
  | .waiting call (.relocking _) => setup.strategyOf call.barrier = sequencerStrategy
  | _ => True

structure WakeOwn (setup : Setup) (thread : Nat) (shared : Shared) (own : Local) : Prop where
  holder : ∀ strategy, own.Holds setup strategy → shared.owner strategy = some thread
  pending : thread ∈ shared.history.pending → own.Signals
  attends : Attends setup thread shared own

def wakeOutline (setup : Setup) : Outline Shared Local where
  common := fun shared => shared.history.pending.Nodup
  own := WakeOwn setup
  apart := fun _ _ => True

/-- What an action of a thread means for those that wait: nothing, or the cursor has moved and
a notification will follow, or everybody parked is notified. -/
inductive Wakes (thread : Nat) (before after : Shared) : Prop where
  | quiet (cursor : after.cursor = before.cursor) (pending : Pending before → Pending after)
      (parked : ∀ strategy other, other ≠ thread → (strategy, other) ∈ after.parked →
        (strategy, other) ∈ before.parked)
      (told : ∀ notification ∈ before.history.notifications,
        notification ∈ after.history.notifications)
  | advance (pending : Pending after)
  | notify (holder : before.owner sequencerStrategy = some thread)
      (cursor : after.cursor = before.cursor)
      (parked : ∀ other, (sequencerStrategy, other) ∉ after.parked)
      (told : (sequencerStrategy, after.cursor) ∈ after.history.notifications)

/-- What an action of a thread does to the others. -/
structure Effect (thread : Nat) (before after : Shared) : Prop where
  owner : ∀ strategy holder, holder ≠ thread → before.owner strategy = some holder →
    after.owner strategy = some holder
  pending : ∀ other, other ≠ thread → other ∈ after.history.pending →
    other ∈ before.history.pending
  wakes : Wakes thread before after

section

variable {setup : Setup} {thread : Nat} {shared : Shared} {after : Shared}

section

variable (distinct : other ≠ thread) (own : WakeOwn setup other shared theirs)
  (effect : Effect thread shared after)
include distinct own effect

/-- The notifier holds the mutex, so nobody is between the comparison and the wait. -/
theorem attends_effect : Attends setup other after theirs := by
  have attends := own.attends
  match theirs with
  | .waiting call .minding =>
    refine ⟨attends.1, fun reached => ?_⟩
    cases effect.wakes with
    | quiet cursor pending _ _ => exact pending (attends.2 (cursor ▸ reached))
    | advance pending => exact pending
    | notify holder _ _ _ =>
      have mine := own.holder _ rfl
      rw [attends.1, holder] at mine
      exact absurd (some.inj mine).symm distinct
  | .waiting call .parked =>
    refine ⟨attends.1, fun reached => ?_⟩
    cases effect.wakes with
    | quiet cursor pending parked told =>
      rw [cursor]
      cases attends.2 (cursor ▸ reached) with
      | inl waits => exact .inl (pending waits)
      | inr notified =>
        exact .inr ⟨fun still => notified.1 (parked _ _ distinct still), told _ notified.2⟩
    | advance pending => exact .inl pending
    | notify _ _ parked told => exact .inr ⟨parked other, told⟩
  | .waiting _ .locking | .waiting _ .comparing | .waiting _ (.relocking _) => exact attends
  | .idle | .claiming _ | .checking _ | .publishing _ => trivial
  | .waiting _ .polling | .waiting _ (.reading _) | .waiting _ .pausing | .waiting _ .arriving
  | .waiting _ (.gathering _) | .waiting _ .yielding => trivial

theorem own_effect : WakeOwn setup other after theirs :=
  ⟨fun strategy holds => effect.owner strategy other distinct (own.holder strategy holds),
    fun mem => own.pending (effect.pending other distinct mem), attends_effect distinct own effect⟩

end

/-- An action that re-establishes what the acting thread has to. -/
structure Wakeful (setup : Setup) (thread : Nat) (before : Shared) (result : Shared × Local) :
    Prop where
  common : result.1.history.pending.Nodup
  own : WakeOwn setup thread result.1 result.2
  effect : Effect thread before result.1

/-- Nothing of what waiting depends on changes. -/
structure SameWaking (before after : Shared) : Prop where
  cursor : after.cursor = before.cursor := by rfl
  owner : after.owner = before.owner := by rfl
  parked : after.parked = before.parked := by rfl
  pending : after.history.pending = before.history.pending := by rfl
  notifications : after.history.notifications = before.history.notifications := by rfl

variable {own : Local}

section

variable (nodup : shared.history.pending.Nodup) (before : WakeOwn setup thread shared own)
include nodup before

theorem wakeful_same (same : SameWaking shared after := by exact {})
    (holds : ∀ strategy, moved.Holds setup strategy → own.Holds setup strategy := by
      exact fun _ => id) (signals : own.Signals → moved.Signals := by exact id)
    (attends : Attends setup thread after moved := by trivial) :
    Wakeful setup thread shared (after, moved) := by
  refine ⟨?_, ⟨?_, ?_, attends⟩, ?_, ?_, ?_⟩
  · rw [same.pending]
    exact nodup
  · intro strategy holding
    rw [same.owner]
    exact before.holder strategy (holds strategy holding)
  · intro mem
    rw [same.pending] at mem
    exact signals (before.pending mem)
  · intro strategy holder _ held
    rw [same.owner]
    exact held
  · intro other _ mem
    rwa [same.pending] at mem
  · refine .quiet same.cursor ?_ ?_ ?_
    · intro pending
      rwa [Pending, same.pending]
    · intro strategy other _ mem
      rwa [same.parked] at mem
    · intro _ mem
      rwa [same.notifications]

/-- The mutex of a strategy object is taken when nobody holds it. -/
theorem lock_wakeful (free : shared.owner strategy = none) {moved : Local}
    (holds : ∀ other, moved.Holds setup other → other = strategy)
    (signals : own.Signals → moved.Signals)
    (attends : Attends setup thread (shared.lock thread strategy) moved) :
    Wakeful setup thread shared (shared.lock thread strategy, moved) := by
  refine ⟨nodup, ⟨?_, fun mem => signals (before.pending mem), attends⟩, ?_,
    fun _ _ mem => mem, .quiet rfl id (fun _ _ _ mem => mem) (fun _ mem => mem)⟩
  · intro other holding
    obtain rfl := holds other holding
    exact Function.update_self ..
  · intro other _ _ held
    by_cases same : other = strategy
    · rw [same, free] at held
      cases held
    · exact (Function.update_of_ne same _ _).trans held

/-- The holder of a mutex releases it; it may enter or leave the list of the parked. -/
theorem unlock_wakeful (holding : own.Holds setup strategy)
    (same : SameWaking { shared.unlock strategy with parked := after.parked } after)
    (parked : ∀ other, ∀ waiter ≠ thread, (other, waiter) ∈ after.parked → (other, waiter) ∈
      shared.parked) {moved : Local} (none : ∀ other, ¬ moved.Holds setup other)
    (quiet : ¬ own.Signals) (attends : Attends setup thread after moved) :
    Wakeful setup thread shared (after, moved) := by
  have pending : after.history.pending = shared.history.pending := same.pending
  have told : after.history.notifications = shared.history.notifications := same.notifications
  refine ⟨?_, ⟨fun other held => absurd held (none other), ?_, attends⟩, ?_, ?_, ?_⟩
  · rw [pending]
    exact nodup
  · intro mem
    rw [pending] at mem
    exact absurd (before.pending mem) quiet
  · intro other holder distinct held
    rw [same.owner]
    by_cases isThis : other = strategy
    · rw [isThis, before.holder strategy holding] at held
      exact absurd (some.inj held).symm distinct
    · exact (Function.update_of_ne isThis _ _).trans held
  · intro other _ mem
    rwa [pending] at mem
  · refine .quiet same.cursor ?_ parked ?_
    · intro _
      rwa [Pending, pending]
    · intro _ mem
      rwa [told]

end

theorem publishStep_wakeful (blocking : setup.waitStrategy = .blocking)
    (nodup : shared.history.pending.Nodup) (own : WakeOwn setup thread shared (.publishing at_))
    (taken : publishStep setup thread shared at_ = some result) :
    Wakeful setup thread shared result := by
  cases at_ with
  | synchronizing batch =>
    simp only [publishStep] at taken
    split at taken <;> cases taken <;> exact wakeful_same nodup own
  | advancing batch =>
    cases taken
    have absent : thread ∉ shared.history.pending := fun mem => own.pending mem
    refine ⟨nodup_cons.mpr ⟨absent, nodup⟩, ⟨fun _ none => none.elim, fun _ => trivial, trivial⟩,
      fun _ _ _ held => held, ?_, .advance (cons_ne_nil _ _)⟩
    intro other distinct mem
    exact mem_of_ne_of_mem distinct mem
  | signalling =>
    simp only [publishStep, blocking, reduceCtorEq, if_false] at taken
    split at taken
    · rename_i free
      cases taken
      exact lock_wakeful nodup own free (fun _ same => same) (fun _ => trivial) trivial
    · cases taken
  | notifying =>
    cases taken
    have holder := own.holder sequencerStrategy rfl
    refine ⟨nodup.erase thread, ⟨fun _ none => none.elim, ?_, trivial⟩, ?_, ?_, .notify holder rfl ?_
      (mem_append_right _ (mem_singleton.mpr rfl))⟩
    · intro mem
      exact absurd mem nodup.not_mem_erase
    · intro strategy other distinct held
      by_cases same : strategy = sequencerStrategy
      · rw [same, holder] at held
        exact absurd (some.inj held).symm distinct
      · exact (Function.update_of_ne same _ _).trans held
    · intro other _ mem
      exact mem_of_mem_erase mem
    · intro other mem
      simp at mem

theorem afterCursor_local {available : Int} :
    (∀ strategy, ¬ (shared.afterCursor setup call available).2.Holds setup strategy) ∧
      Attends setup thread (shared.afterCursor setup call available).1
        (shared.afterCursor setup call available).2 ∧
      SameWaking shared (shared.afterCursor setup call available).1 := by
  simp only [Shared.afterCursor]
  split <;> exact ⟨fun _ none => none, trivial, {}⟩

section

variable (nodup : shared.history.pending.Nodup)
include nodup

/-- A consumer leaves the condition variable: notified, spuriously or at its deadline. -/
theorem unpark_wakeful (own : WakeOwn setup thread shared (.waiting call .parked))
    (timedOut : Bool) :
    Wakeful setup thread shared
      ({ shared with parked := shared.parked.erase (setup.strategyOf call.barrier, thread) },
        .waiting call (.relocking timedOut)) := by
  refine ⟨nodup, ⟨fun _ none => none.elim, own.pending, own.attends.1⟩, fun _ _ _ held => held,
    fun _ _ mem => mem, .quiet rfl id ?_ (fun _ mem => mem)⟩
  intro strategy _ _ mem
  exact mem_of_mem_erase mem

theorem waitStep_wakeful (own : WakeOwn setup thread shared (.waiting call at_))
    (shares : at_ = .arriving → setup.strategyOf call.barrier = sequencerStrategy ∨ call.sequence ≤
      shared.cursor) (taken : waitStep setup thread shared call at_ = some result) :
    Wakeful setup thread shared result := by
  match at_ with
  | .polling =>
    simp only [waitStep] at taken
    split at taken
    · split at taken <;> cases taken <;> exact wakeful_same nodup own
    · cases taken
      exact wakeful_same nodup own
  | .reading ⟨_ :: _, _⟩ | .gathering ⟨_ :: _, _⟩ =>
    cases taken
    exact wakeful_same nodup own
  | .reading ⟨[], _⟩ | .gathering ⟨[], _⟩ | .pausing | .yielding =>
    simp only [waitStep] at taken
    split at taken <;> cases taken <;> exact wakeful_same nodup own
  | .arriving =>
    simp only [waitStep] at taken
    split at taken
    · rename_i less
      cases taken
      refine wakeful_same nodup own {} (fun _ => id) id ?_
      cases shares rfl with
      | inl shared => exact shared
      | inr reached => exact absurd reached (not_le.mpr less)
    · cases taken
      obtain ⟨none, attends, same⟩ := @afterCursor_local setup thread shared call shared.cursor
      exact wakeful_same nodup own same (fun strategy held => absurd held (none strategy))
        (fun signals => signals.elim) attends
  | .locking =>
    simp only [waitStep] at taken
    split at taken
    · rename_i free
      cases taken
      exact lock_wakeful nodup own free (fun _ same => same) id own.attends
    · cases taken
  | .comparing =>
    simp only [waitStep] at taken
    split at taken
    · rename_i less
      cases taken
      exact wakeful_same nodup own {} (fun _ => id) id
        ⟨own.attends, fun reached => absurd reached (not_le.mpr less)⟩
    · cases taken
      obtain ⟨none, attends, same⟩ := @afterCursor_local setup thread
        (shared.unlock (setup.strategyOf call.barrier)) call shared.cursor
      refine unlock_wakeful nodup own rfl { same with parked := rfl } ?_ none id attends
      intro _ _ _ mem
      rwa [same.parked] at mem
  | .minding =>
    simp only [waitStep] at taken
    split at taken
    · cases taken
      refine unlock_wakeful nodup own rfl ?_ ?_ ?_ id ?_
      · exact {}
      · exact fun _ _ _ mem => mem
      · exact fun _ none => none
      · trivial
    · cases taken
      refine unlock_wakeful nodup own rfl ?_ ?_ ?_ id
        ⟨own.attends.1, fun reached => .inl (own.attends.2 reached)⟩
      · exact {}
      · intro strategy _ distinct mem
        refine mem_of_ne_of_mem ?_ mem
        intro same
        exact distinct (Prod.mk.inj same).2
      · exact fun _ none => none
  | .parked =>
    cases taken
    exact unpark_wakeful nodup own false
  | .relocking timedOut =>
    simp only [waitStep] at taken
    split at taken
    · rename_i free
      split at taken
      · cases taken
        exact wakeful_same nodup own
      · cases taken
        exact lock_wakeful nodup own free (fun _ same => same) id own.attends
    · cases taken

theorem timeOutStep_wakeful (own : WakeOwn setup thread shared (.waiting call at_))
    (taken : timeOutStep setup thread shared call at_ = some result) :
    Wakeful setup thread shared result := by
  cases at_ with
  | pausing =>
    simp only [timeOutStep] at taken
    split at taken <;> cases taken <;> exact wakeful_same nodup own
  | parked =>
    cases taken
    exact unpark_wakeful nodup own true
  | _ => cases taken

theorem startStep_wakeful (own : WakeOwn setup thread shared .idle)
    (taken : startStep setup thread shared event = some result) :
    Wakeful setup thread shared result := by
  cases event with
  | claim delta =>
    obtain ⟨_, isResult⟩ := ite_none_right_eq_some.mp taken
    obtain rfl := some.inj isResult
    exact wakeful_same nodup own
  | hasAvailableCapacity =>
    obtain ⟨_, isResult⟩ := ite_none_right_eq_some.mp taken
    cases isResult
    exact wakeful_same nodup own
  | publish sequence delta =>
    obtain ⟨_, isResult⟩ := ite_none_right_eq_some.mp taken
    cases isResult
    simp only [Shared.publish]
    split <;> exact wakeful_same nodup own
  | waitFor call =>
    cases taken
    split <;> exact wakeful_same nodup own
  | setSequence _ _ | setAlerted _ _ =>
    cases taken
    exact wakeful_same nodup own
  | proceed | timeOut => cases taken

theorem claimStep_wakeful (own : WakeOwn setup thread shared (.claiming at_)) :
    Wakeful setup thread shared (claimStep setup thread shared at_) := by
  match at_ with
  | .claimed _ | .scanning _ ⟨[], _⟩ =>
    simp only [claimStep]
    split <;> exact wakeful_same nodup own
  | .scanning _ ⟨_ :: _, _⟩ => exact wakeful_same nodup own

theorem checkStep_wakeful (own : WakeOwn setup thread shared (.checking at_)) :
    Wakeful setup thread shared (checkStep setup shared at_) := by
  match at_ with
  | .compared _ =>
    simp only [checkStep]
    split <;> exact wakeful_same nodup own
  | .scanning _ ⟨_ :: _, _⟩ | .scanning _ ⟨[], _⟩ | .storing _ _ => exact wakeful_same nodup own

end

theorem act_wakeful (blocking : setup.waitStrategy = .blocking)
    (holds : (wakeOutline setup).Holds state) (shares : Shares setup state (thread, event))
    (taken : act setup thread state.shared (state.locals thread) event = some result) :
    Wakeful setup thread state.shared result := by
  have own := holds.own thread
  change WakeOwn setup thread state.shared (state.locals thread) at own
  simp only [Shares] at shares
  generalize state.locals thread = before at own taken shares
  cases before with
  | idle => exact startStep_wakeful holds.common own taken
  | claiming at_ =>
    cases event with
    | proceed =>
      cases taken
      exact claimStep_wakeful holds.common own
    | _ => cases taken
  | checking at_ =>
    cases event with
    | proceed =>
      cases taken
      exact checkStep_wakeful holds.common own
    | _ => cases taken
  | publishing at_ =>
    cases event with
    | proceed => exact publishStep_wakeful blocking holds.common own taken
    | _ => cases taken
  | waiting call at_ =>
    cases event with
    | proceed =>
      refine waitStep_wakeful holds.common own ?_ taken
      rintro rfl
      exact shares
    | timeOut =>
      obtain ⟨_, timed⟩ := ite_none_right_eq_some.mp taken
      exact timeOutStep_wakeful holds.common own timed
    | _ => cases taken

theorem wakeOutline_sound (blocking : setup.waitStrategy = .blocking) :
    (wakeOutline setup).Sound (act setup) (Shares setup) := by
  refine Outline.sound_of_moves (fun _ _ => trivial) ?_
  intro state thread event shared own holds allowed taken
  have wakeful := act_wakeful blocking holds allowed taken
  exact ⟨wakeful.common, wakeful.own, fun other distinct =>
    own_effect distinct (holds.own other) wakeful.effect⟩

theorem wakeOutline_start : (wakeOutline setup).Holds (State.start sequences) where
  common := nodup_nil
  own _ := ⟨fun _ none => none.elim, fun none => (nomatch none), trivial⟩
  apart _ _ _ := trivial

end

/-- When no `Publish` is in progress, a consumer parked for a sequence that the cursor has
reached has been notified since, with the cursor where it is. -/
theorem parked_notified (setup : Setup) (blocking : setup.waitStrategy = .blocking)
    (sequences : Nat → Int) (events : List (Nat × Event)) (final : State)
    (guarded : Machine.Guarded (step setup) (Shares setup) (State.start sequences) events)
    (ran : Machine.run (step setup) (State.start sequences) events = some final)
    (quiet : ∀ thread, ¬ (final.locals thread).Publishes) (thread : Nat) (call : Call)
    (parked : final.locals thread = .waiting call .parked)
    (reached : call.sequence ≤ final.shared.cursor) :
    (setup.strategyOf call.barrier, thread) ∉ final.shared.parked ∧
      (setup.strategyOf call.barrier, final.shared.cursor) ∈
        final.shared.history.notifications := by
  have holds := (wakeOutline_sound blocking).run events _ _ wakeOutline_start guarded ran
  have none : final.shared.history.pending = [] := by
    apply eq_nil_iff_forall_not_mem.mpr
    intro other mem
    have own : WakeOwn setup other final.shared (final.locals other) := holds.own other
    have signals := own.pending mem
    have notPublishing := quiet other
    generalize final.locals other = theirs at signals notPublishing
    cases theirs with
    | publishing at_ => exact notPublishing trivial
    | _ => exact signals
  have own : WakeOwn setup thread final.shared (final.locals thread) := holds.own thread
  rw [parked] at own
  obtain ⟨shared, told⟩ := own.attends
  rw [shared]
  cases told reached with
  | inl pending => exact absurd none pending
  | inr notified => exact notified

instance (state : State) (setup : Setup) (event : Nat × Event) :
    Decidable (Shares setup state event) := by
  unfold Shares
  split <;> infer_instance

/-- A consumer parks on the barrier 0 until sequence 0 is published. -/
def parkAndPublish : List (Nat × Event) :=
  [(1, .waitFor ⟨0, 0, false⟩), (1, .proceed), (1, .proceed), (1, .proceed), (1, .proceed),
    (0, .claim 1), (0, .proceed), (0, .publish 0 1), (0, .proceed), (0, .proceed), (0, .proceed),
    (0, .proceed)]

/-- With the barriers of the source, a consumer that comes after the publication is allowed and
does not park. -/
example : Machine.Guarded (step (ring 8)) (Shares (ring 8)) (State.start fun _ => -1)
      (parkAndPublish.drop 5 ++ parkAndPublish.take 2) ∧
    ((Machine.run (step (ring 8)) (State.start fun _ => -1)
      (parkAndPublish.drop 5 ++ parkAndPublish.take 2)).any fun final =>
        final.locals 1 = .idle) = true := by
  decide

/-- As the ring, with every barrier waiting on the strategy object of the sequencer. -/
def sharedRing : Setup := { ring 8 with strategyOf := fun _ => sequencerStrategy }

/-- Once the producer is done and the consumer is parked, nobody publishes. -/
theorem parkAndPublish_quiet
    (ran : Machine.run (step setup) (State.start fun _ => -1) parkAndPublish = some final)
    (producer : final.locals 0 = .idle) (consumer : final.locals 1 = .waiting call .parked)
    (thread : Nat) : ¬ (final.locals thread).Publishes := by
  refine Threads.run_everywhere _ (fun _ own => ¬ own.Publishes) ran ?_
    (fun _ => id) thread
  intro event mem
  have acting : ∀ event ∈ parkAndPublish, event.1 = 0 ∨ event.1 = 1 := by decide
  rcases acting event mem with first | second
  · rw [first, producer]
    exact id
  · rw [second, consumer]
    exact id

theorem parked_notified_shared :
    ∃ final, Machine.run (step sharedRing) (State.start fun _ => -1) parkAndPublish = some final ∧
      final.locals 1 = .waiting ⟨0, 0, false⟩ .parked ∧
      (sequencerStrategy, 1) ∉ final.shared.parked ∧
      (sequencerStrategy, final.shared.cursor) ∈ final.shared.history.notifications := by
  have checked : ((Machine.run (step sharedRing) (State.start fun _ => -1) parkAndPublish).any
      fun final => final.locals 0 = .idle ∧ final.locals 1 = .waiting ⟨0, 0, false⟩ .parked ∧
        (0 : Int) ≤ final.shared.cursor) = true := by
    decide
  obtain ⟨final, ran, facts⟩ := (any_eq_true _ _).mp checked
  obtain ⟨producer, consumer, reached⟩ := of_decide_eq_true facts
  exact ⟨final, ran, consumer, parked_notified sharedRing rfl (fun _ => -1) parkAndPublish final
    (by decide) ran (parkAndPublish_quiet ran producer consumer) 1 ⟨0, 0, false⟩ consumer
    reached⟩

/-- The same run with the barriers of the source: the consumer stays parked for a sequence that
is published, nobody is about to notify, and its condition variable was never notified. -/
theorem parked_forever :
    ∃ final, Machine.run (step (ring 8)) (State.start fun _ => -1) parkAndPublish = some final ∧
      (∀ thread, ¬ (final.locals thread).Publishes) ∧
      final.locals 1 = .waiting ⟨0, 0, false⟩ .parked ∧ (0 : Int) ≤ final.shared.cursor ∧
      (newBarrierStrategy 0, 1) ∈ final.shared.parked ∧
      ∀ notification ∈ final.shared.history.notifications,
        notification.1 ≠ newBarrierStrategy 0 := by
  have checked : ((Machine.run (step (ring 8)) (State.start fun _ => -1) parkAndPublish).any
      fun final => final.locals 0 = .idle ∧ final.locals 1 = .waiting ⟨0, 0, false⟩ .parked ∧
        (0 : Int) ≤ final.shared.cursor ∧ (newBarrierStrategy 0, 1) ∈ final.shared.parked ∧
        ∀ notification ∈ final.shared.history.notifications,
          notification.1 ≠ newBarrierStrategy 0) = true := by
    decide
  obtain ⟨final, ran, facts⟩ := (any_eq_true _ _).mp checked
  obtain ⟨producer, consumer, rest⟩ := of_decide_eq_true facts
  exact ⟨final, ran, parkAndPublish_quiet ran producer consumer, consumer, rest⟩

end CodeReading.Disruptor
