import CodeReading.Machine
import Mathlib.Logic.Function.Basic

/-!
# Threads over shared state

Any number of threads, each with a local state, act on one shared state. One
action of one thread is atomic, and any thread may act next. An outline is what
the threads rely on: a condition on the shared state, one that a thread keeps
about itself, and one between any two threads. It holds along every run when the
acting thread re-establishes its own conditions and disturbs nobody else's.
-/

namespace CodeReading.Threads

universe u v w

variable {Shared : Type u} {Local : Type v} {Event : Type w}

structure State (Shared : Type u) (Local : Type v) where
  shared : Shared
  locals : Nat → Local

section

variable (act : Nat → Shared → Local → Event → Option (Shared × Local))

def step (state : State Shared Local) (event : Nat × Event) : Option (State Shared Local) :=
  (act event.1 state.shared (state.locals event.1) event.2).map fun result =>
    ⟨result.1, Function.update state.locals event.1 result.2⟩

variable {state : State Shared Local}

theorem step_some (taken : step act state event = some next) :
    act event.1 state.shared (state.locals event.1) event.2 =
        some (next.shared, next.locals event.1) ∧
      ∀ other ≠ event.1, next.locals other = state.locals other := by
  obtain ⟨_, acted, rfl⟩ := Option.map_eq_some_iff.mp taken
  constructor
  · simp [acted]
  · intro other distinct
    exact Function.update_of_ne distinct _ _

variable {events : List (Nat × Event)} {final : State Shared Local}

theorem run_untouched (elsewhere : ∀ event ∈ events, event.1 ≠ thread)
    (ran : Machine.run (step act) state events = some final) :
    final.locals thread = state.locals thread := by
  induction events generalizing state with
  | nil =>
    obtain rfl : state = final := Option.some.inj ran
    rfl
  | cons event rest ih =>
    obtain ⟨_, taken, later⟩ := Machine.run_cons (step act) ran
    rw [ih (fun other mem => elsewhere other (List.mem_cons_of_mem _ mem))
      later]
    exact (step_some act taken).2 thread (elsewhere event (.head _)).symm

/-- What holds of the threads that act and of the others at the start holds of all threads. -/
theorem run_everywhere (condition : Nat → Local → Prop)
    (ran : Machine.run (step act) state events = some final)
    (acting : ∀ event ∈ events, condition event.1 (final.locals event.1))
    (idle : ∀ thread, condition thread (state.locals thread)) (thread : Nat) :
    condition thread (final.locals thread) := by
  by_cases acts : ∃ event ∈ events, event.1 = thread
  · obtain ⟨event, mem, rfl⟩ := acts
    exact acting event mem
  · rw [run_untouched act (fun event mem same => acts ⟨event, mem, same⟩)
      ran]
    exact idle thread

end

/-- What threads rely on: of the shared state, of themselves and of each other. -/
structure Outline (Shared : Type u) (Local : Type v) where
  common : Shared → Prop
  own : Nat → Shared → Local → Prop
  apart : Local → Local → Prop

namespace Outline

variable (outline : Outline Shared Local)

structure Holds (state : State Shared Local) : Prop where
  common : outline.common state.shared
  own : ∀ thread, outline.own thread state.shared (state.locals thread)
  apart : ∀ thread other, thread ≠ other →
    outline.apart (state.locals thread) (state.locals other)

variable (act : Nat → Shared → Local → Event → Option (Shared × Local))
  (guard : State Shared Local → Nat × Event → Prop)

/-- The acting thread keeps its conditions, and those of every other thread. -/
structure Sound : Prop where
  symm : ∀ one two, outline.apart one two → outline.apart two one
  moves : ∀ state thread event shared own, outline.Holds state → guard state (thread, event) →
    act thread state.shared (state.locals thread) event = some (shared, own) →
    outline.common shared ∧ outline.own thread shared own
  spares : ∀ state thread event shared own other, outline.Holds state →
    guard state (thread, event) →
    act thread state.shared (state.locals thread) event = some (shared, own) → other ≠ thread →
    outline.own other shared (state.locals other) ∧ outline.apart own (state.locals other)

variable {outline act guard}

/-- Threads that ask nothing of each other need only leave each other's conditions in place. -/
theorem sound_of_moves (alone : ∀ one two, outline.apart one two)
    (moves : ∀ {state thread event shared own}, outline.Holds state → guard state (thread, event) →
      act thread state.shared (state.locals thread) event = some (shared, own) →
      outline.common shared ∧ outline.own thread shared own ∧
        ∀ other ≠ thread, outline.own other shared (state.locals other)) :
    outline.Sound act guard where
  symm _ _ _ := alone _ _
  moves _ _ _ _ _ holds allowed acted := by
    obtain ⟨common, kept, -⟩ := moves holds allowed acted
    exact ⟨common, kept⟩
  spares _ _ _ _ _ other holds allowed acted distinct := by
    obtain ⟨-, -, others⟩ := moves holds allowed acted
    exact ⟨others other distinct, alone _ _⟩

theorem Sound.step (sound : outline.Sound act guard) (allowed : guard state event)
    (taken : Threads.step act state event = some next) (holds : outline.Holds state) :
    outline.Holds next := by
  obtain ⟨acted, others⟩ := step_some act taken
  obtain ⟨common, kept⟩ := sound.moves state event.1 event.2 _ _ holds allowed acted
  have spared := fun other => sound.spares state event.1 event.2 _ _ other holds allowed acted
  refine ⟨common, ?_, ?_⟩
  · intro thread
    by_cases same : thread = event.1
    · rw [same]
      exact kept
    · rw [others thread same]
      exact (spared thread same).1
  · intro thread other distinct
    by_cases first : thread = event.1
    · subst first
      rw [others other distinct.symm]
      exact (spared other distinct.symm).2
    · rw [others thread first]
      by_cases second : other = event.1
      · rw [second]
        exact sound.symm _ _ (spared thread first).2
      · rw [others other second]
        exact holds.apart thread other distinct

/-- An outline that every action keeps holds at the end of every run. -/
theorem Sound.run (sound : outline.Sound act guard) (events : List (Nat × Event))
    (state final : State Shared Local) (holds : outline.Holds state)
    (guarded : Machine.Guarded (Threads.step act) guard state events)
    (ran : Machine.run (Threads.step act) state events = some final) : outline.Holds final :=
  Machine.guarded_invariant (Threads.step act) guard outline.Holds
    (fun _ _ _ allowed taken => sound.step allowed taken) holds guarded ran

end Outline

end CodeReading.Threads
