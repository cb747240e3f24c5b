import Mathlib.Algebra.Order.Ring.Int
import Mathlib.Data.List.Basic

/-!
# Runs of a partial transition function

A machine is a step function from a state and an event to a next state, defined
where the event is enabled. Whatever every enabled step preserves holds at the
end of every run. A guard restricts the runs: it is a condition on the state
before an event, demanded at every step of the run.
-/

namespace CodeReading.Machine

universe u v w

variable {State : Type u} {Event : Type v} (step : State → Event → Option State)

/-- The state after a sequence of events, if every one of them was enabled. -/
def run : State → List Event → Option State
  | state, [] => some state
  | state, event :: rest => (step state event).bind fun next => run next rest

/-- Every event of the sequence meets the guard in the state it is taken in. -/
def Guarded (guard : State → Event → Prop) : State → List Event → Prop
  | _, [] => True
  | state, event :: rest =>
      guard state event ∧ ∀ next, step state event = some next → Guarded guard next rest

instance decidableGuarded {guard : State → Event → Prop}
    [∀ state event, Decidable (guard state event)] :
    ∀ (state : State) (events : List Event), Decidable (Guarded step guard state events)
  | _, [] => isTrue trivial
  | state, event :: rest =>
      match taken : step state event with
      | none =>
          decidable_of_iff (guard state event)
            ⟨fun allowed => ⟨allowed, fun next isNext => by simp [taken] at isNext⟩, And.left⟩
      | some next =>
          have : Decidable (Guarded step guard next rest) := decidableGuarded next rest
          decidable_of_iff (guard state event ∧ Guarded step guard next rest)
            ⟨fun both => ⟨both.1, fun other isNext =>
                Option.some.inj (taken.symm.trans isNext) ▸ both.2⟩,
              fun both => ⟨both.1, both.2 next taken⟩⟩

variable {guard : State → Event → Prop} {state : State}

theorem guarded_cons (taken : step state event = some next) (allowed : guard state event)
    (later : Guarded step guard next rest) : Guarded step guard state (event :: rest) := by
  refine ⟨allowed, ?_⟩
  intro other same
  obtain rfl : next = other := Option.some.inj (taken.symm.trans same)
  exact later

variable {events : List Event}

theorem guarded_mono (weakens : ∀ state event, guard state event → weaker state event)
    (guarded : Guarded step guard state events) : Guarded step weaker state events := by
  induction events generalizing state with
  | nil => trivial
  | cons event rest ih =>
    exact ⟨weakens state event guarded.1, fun next taken => ih (guarded.2 next taken)⟩

variable {final : State}

theorem run_cons (ran : run step state (event :: rest) = some final) :
    ∃ next, step state event = some next ∧ run step next rest = some final :=
  Option.bind_eq_some_iff.mp ran

variable {events : List Event} {state : State}

/-- What guarded steps preserve, guarded runs preserve. -/
theorem guarded_invariant (guard : State → Event → Prop) (invariant : State → Prop)
    (preserves : ∀ state event next, guard state event → step state event = some next → invariant
      state → invariant next) (holds : invariant state) (guarded : Guarded step guard state events)
    (ran : run step state events = some final) : invariant final := by
  induction events generalizing state with
  | nil =>
    obtain rfl : state = final := by simpa [run] using ran
    exact holds
  | cons event rest ih =>
    obtain ⟨next, taken, later⟩ := run_cons step ran
    apply ih (preserves state event next guarded.1 taken holds)
    · exact guarded.2 next taken
    · exact later

theorem guarded_append (ran : run step state events = some middle)
    (guarded : Guarded step guard state (events ++ more)) :
    Guarded step guard state events ∧ Guarded step guard middle more := by
  induction events generalizing state with
  | nil =>
    obtain rfl : state = middle := Option.some.inj ran
    exact ⟨trivial, guarded⟩
  | cons event rest ih =>
    obtain ⟨next, taken, later⟩ := run_cons step ran
    obtain ⟨first, second⟩ := ih later (guarded.2 next taken)
    exact ⟨guarded_cons step taken guarded.1 first, second⟩

/-- What guarded steps preserve may be added to the guard. -/
theorem guarded_and {invariant : State → Prop}
    (preserves : ∀ state event next, guard state event → step state event = some next → invariant
      state → invariant next) (holds : invariant state) (guarded : Guarded step guard state events) :
    Guarded step (fun state event => guard state event ∧ invariant state) state events := by
  induction events generalizing state with
  | nil => trivial
  | cons event rest ih =>
    refine ⟨⟨guarded.1, holds⟩, ?_⟩
    intro next taken
    exact ih (preserves state event next guarded.1 taken holds)
      (guarded.2 next taken)

/-- When every guarded event is enabled, every guarded run goes to its end. -/
theorem guarded_runs (guard : State → Event → Prop) (invariant : State → Prop)
    (enabled : ∀ state event, guard state event → invariant state → ∃ next, step state event = some
      next ∧ invariant next) (holds : invariant state) (guarded : Guarded step guard state events) :
    ∃ final, run step state events = some final ∧ invariant final := by
  induction events generalizing state with
  | nil => exact ⟨state, rfl, holds⟩
  | cons event rest ih =>
    obtain ⟨next, taken, holdsNext⟩ := enabled state event guarded.1 holds
    obtain ⟨final, ran, holdsFinal⟩ := ih holdsNext (guarded.2 next taken)
    refine ⟨final, ?_, holdsFinal⟩
    rw [run, taken, Option.bind_some, ran]

theorem guarded_of_forall {condition : Event → Prop} (all : ∀ event ∈ events, condition event)
    (state : State) : Guarded step (fun _ event => condition event) state events := by
  induction events generalizing state with
  | nil => trivial
  | cons event rest ih =>
    exact ⟨all event (.head _), fun next _ => ih (fun other mem => all other (.tail _ mem)) next⟩

theorem guarded_trivial (state : State) (events : List Event) :
    Guarded step (fun _ _ => True) state events :=
  guarded_of_forall step (fun _ _ => trivial) state

/-- What every step preserves, every run preserves. -/
theorem run_invariant (invariant : State → Prop)
    (preserves : ∀ state event next, step state event = some next → invariant state → invariant
      next) (holds : invariant state) (ran : run step state events = some final) :
    invariant final :=
  guarded_invariant step (fun _ _ => True) invariant
    (fun state event next _ => preserves state event next) holds
    (guarded_trivial step state events) ran

/-- Two machines whose steps keep related states related, and are enabled together, stay
related along every run. -/
theorem run_simulates {Other : Type w} {other : Other → Event → Option Other}
    {related : State → Other → Prop}
    (simulates : ∀ state model event, related state model → Option.Rel related (step state event)
      (other model event)) (events : List Event) {model : Other} (holds : related state model) :
    Option.Rel related (run step state events) (run other model events) := by
  induction events generalizing state model with
  | nil => exact .some holds
  | cons event rest ih =>
    have taken := simulates state model event holds
    simp only [run]
    generalize step state event = next at taken ⊢
    generalize other model event = nextModel at taken ⊢
    cases taken with
    | some holdsNext => exact ih holdsNext
    | none => exact .none

end CodeReading.Machine
