import CodeReading.Threads

/-!
# Doubly buffered data

`DoublyBufferedData` as threads over shared state: `Read` and the end of a
`ScopedPtr`, `Modify`, and the registration and removal of the wrapper that each
reading thread keeps. Taking and releasing a mutex, loading and storing `_index`
are single actions. The application of a modification to an instance takes from
one action to the next, and other threads may act meanwhile.

The wrapper of a thread is named by the thread. A thread holds one `ScopedPtr` at
a time and exits holding none. Allocation succeeds, and the object outlives its
threads. What the state keeps under `History` is not a variable of the source.
-/

namespace CodeReading.Brpc.DoublyBuffered

/-- A modification: from the instance it is applied to and the other one, the new instance and
the returned number. It changes nothing when it returns 0, and when it is applied to one of two
equal instances and then to the other, it does the same to both. `Modify` passes functions
that do not look at the other instance. -/
structure Modification (T : Type) where
  run : T → T → T × Nat
  unchanged : ∀ value other, (run value other).2 = 0 → (run value other).1 = value
  consistent : ∀ value, run value (run value value).1 = run value value

/-- A modification as `Modify` takes it. -/
def Modification.ofFn {T : Type} (fn : T → T × Nat)
    (unchanged : ∀ value, (fn value).2 = 0 → (fn value).1 = value) : Modification T :=
  ⟨fun value _ => fn value, fun value _ => unchanged value, fun _ => rfl⟩

/-- What modifications make of two equal instances. -/
def replay {T : Type} (start : T) (modifications : List (Modification T)) : T :=
  modifications.foldl (fun value modification => (modification.run value value).1) start

/-- Where a call of `Modify` is: waiting for `_modify_mutex`, before the load of `_index`, in the
first application, before the store of `_index`, waiting for `_wrappers_mutex`, in front of a
wrapper, holding the mutex of that wrapper, and in the second application. -/
inductive Modifying where
  | locking
  | loading
  | first (background : Bool)
  | flipping (background : Bool) (ret : Nat)
  | sweepLocking (background : Bool) (ret : Nat)
  | sweeping (background : Bool) (ret position : Nat)
  | passing (background : Bool) (ret position : Nat)
  | second (background : Bool) (ret : Nat)

/-- Where a thread is. With a `Read` go the modifications that had returned when it began, and
with a `ScopedPtr` the instance it points to and how many modifications had been published when
it was taken. -/
inductive Local (T : Type) where
  | idle (registered : Bool)
  | adding (seen : List (Modification T))
  | pushing (seen : List (Modification T))
  | beginning (seen : List (Modification T))
  | loading (seen : List (Modification T))
  | reading (which : Bool) (seen : List (Modification T)) (count : Nat)
  | modifying (registered : Bool) (modification : Modification T) (at_ : Modifying)
  | removing
  | erasing
  | exited

/-- The modifications that were published, in the order of `_modify_mutex`, those that have
returned, and the numbers that calls of `Modify` returned; and the threads that may still read
the instance that was replaced last. -/
structure History (T : Type) where
  applied : List (Modification T)
  returned : List (Modification T)
  results : List Nat
  unswept : List Nat

/-- The members of `DoublyBufferedData`, with who holds each mutex. `checkFailed` is whether the
`CHECK_EQ` of `Modify` ever failed. -/
structure Shared (T : Type) where
  data : Bool → T
  index : Bool
  modifyMutex : Option Nat
  wrappersMutex : Option Nat
  wrappers : List Nat
  mutex : Nat → Option Nat
  checkFailed : Bool
  history : History T

inductive Event (T : Type) where
  | read
  | release
  | modify (modification : Modification T)
  | exit
  | proceed

variable {T : Type}

/-- Both instances equal and no thread registered. -/
def Shared.start (value : T) : Shared T where
  data := fun _ => value
  index := false
  modifyMutex := none
  wrappersMutex := none
  wrappers := []
  mutex := fun _ => none
  checkFailed := false
  history := ⟨[], [], [], []⟩

/-- The loop of `RemoveWrapper`: the last wrapper takes the place of the removed one. -/
def removeWrapper (wrappers : List Nat) (wrapper : Nat) : List Nat :=
  match wrappers.findIdx? (· = wrapper), wrappers.getLast? with
  | some position, some last => (wrappers.set position last).dropLast
  | _, _ => wrappers

section

variable (thread : Nat) (shared : Shared T)

def modifyStep (registered : Bool) (modification : Modification T) :
    Modifying → Option (Shared T × Local T)
  | .locking =>
      if shared.modifyMutex = none then
        some ({ shared with modifyMutex := some thread },
          .modifying registered modification .loading)
      else none
  | .loading => some (shared, .modifying registered modification (.first (!shared.index)))
  | .first background =>
      let result := modification.run (shared.data background) (shared.data (!background))
      let changed := { shared with data := Function.update shared.data background result.1 }
      if result.2 = 0 then
        some ({ changed with
            modifyMutex := none
            history := { shared.history with results := shared.history.results ++ [0] } },
          .idle registered)
      else some (changed, .modifying registered modification (.flipping background result.2))
  | .flipping background ret =>
      some ({ shared with
          index := background
          history := { shared.history with
            applied := shared.history.applied ++ [modification]
            unswept := shared.wrappers } },
        .modifying registered modification (.sweepLocking (!background) ret))
  | .sweepLocking background ret =>
      if shared.wrappersMutex = none then
        some ({ shared with wrappersMutex := some thread },
          .modifying registered modification (.sweeping background ret 0))
      else none
  | .sweeping background ret position =>
      match shared.wrappers[position]? with
      | none =>
          some ({ shared with
              wrappersMutex := none
              history := { shared.history with unswept := [] } },
            .modifying registered modification (.second background ret))
      | some wrapper =>
          if shared.mutex wrapper = none then
            some ({ shared with mutex := Function.update shared.mutex wrapper (some thread) },
              .modifying registered modification (.passing background ret position))
          else none
  | .passing background ret position =>
      (shared.wrappers[position]?).map fun wrapper =>
        ({ shared with
            mutex := Function.update shared.mutex wrapper none
            history := { shared.history with
              unswept := shared.history.unswept.filter fun other => other ≠ wrapper } },
          .modifying registered modification (.sweeping background ret (position + 1)))
  | .second background ret =>
      let result := modification.run (shared.data background) (shared.data (!background))
      some ({ shared with
          data := Function.update shared.data background result.1
          modifyMutex := none
          checkFailed := shared.checkFailed || decide (result.2 ≠ ret)
          history := { shared.history with
            returned := shared.history.returned ++ [modification]
            results := shared.history.results ++ [result.2] } }, .idle registered)

def act : Local T → Event T → Option (Shared T × Local T)
  | .idle registered, .read =>
      let seen := shared.history.returned
      some (shared, if registered then .beginning seen else .adding seen)
  | .idle registered, .modify modification =>
      some (shared, .modifying registered modification .locking)
  | .idle registered, .exit => some (shared, if registered then .removing else .exited)
  | .adding seen, .proceed =>
      if shared.wrappersMutex = none then
        some ({ shared with wrappersMutex := some thread }, .pushing seen)
      else none
  | .pushing seen, .proceed =>
      some ({ shared with wrappers := shared.wrappers ++ [thread], wrappersMutex := none },
        .beginning seen)
  | .beginning seen, .proceed =>
      if shared.mutex thread = none then
        some ({ shared with mutex := Function.update shared.mutex thread (some thread) },
          .loading seen)
      else none
  | .loading seen, .proceed =>
      some (shared, .reading shared.index seen shared.history.applied.length)
  | .reading _ _ _, .release =>
      some ({ shared with mutex := Function.update shared.mutex thread none }, .idle true)
  | .modifying registered modification at_, .proceed =>
      modifyStep thread shared registered modification at_
  | .removing, .proceed =>
      if shared.wrappersMutex = none then
        some ({ shared with wrappersMutex := some thread }, .erasing)
      else none
  | .erasing, .proceed =>
      some ({ shared with wrappers := removeWrapper shared.wrappers thread, wrappersMutex := none },
        .exited)
  | _, _ => none

end

abbrev State (T : Type) := Threads.State (Shared T) (Local T)

def State.start (value : T) : State T := ⟨.start value, fun _ => .idle false⟩

def step : State T → Nat × Event T → Option (State T) := Threads.step act

end CodeReading.Brpc.DoublyBuffered
