import CodeReading.Threads
import CodeReading.Brpc.SmallQueue

/-!
# Locking a bthread id

One slot of the pool of `bthread_id_t`, whose ids differ in their version only. The
versions from `first_ver` up to `locked_ver` name the id that lives in the slot. The
butex says how the id is: its value is `first_ver` when it is unlocked, `locked_ver`
when it is locked, one more when somebody waits, and two more when it is about to be
destroyed.

Threads call the functions on ids of the slot. What is done under the mutex is one
action, as are `butex_wait`, with its test of the value, and each `butex_wake`. A
thread that parks waits in the butex until it is taken out of it, by a wake-up or an
interruption. `on_error` runs in the thread that calls it, and what it calls are
further calls of that thread; unlocking and destroying are up to the thread that
holds the id. What the state keeps under `History` is not a variable of the source.
-/

namespace CodeReading.Brpc.BthreadId

/-- Versions are of type `uint32_t`. -/
def uint32 (value : Nat) : Nat := value % 2 ^ 32

def idMaxRange : Nat := 1024

inductive Result where
  | ok
  | einval
  | eperm
  | ebusy
deriving DecidableEq, Repr

/-- An error of a call of `bthread_id_error2`. The number of the call is not in the source. -/
structure PendingError where
  serial : Nat
  version : Nat
  errorCode : Int
  errorText : String
deriving DecidableEq, Repr

/-- A call of `on_error`: by which thread, whether the error was queued before and whether the
id was locked. -/
structure Invocation where
  error : PendingError
  thread : Nat
  queued : Bool
  locked : Bool
deriving DecidableEq, Repr

/-- The slot is in the pool or has a living id; or its id was destroyed by a thread that is
still to wake up who waits for it, or is done with that and still to return the slot. -/
inductive Phase where
  | free
  | live
  | closing (thread : Nat)
  | closed (thread : Nat)
deriving DecidableEq, Repr

/-- What happened so far: the phase of the slot, the thread that holds the id, the errors that
were posted on living ids and what became of them, and the version ranges of the destroyed ids.
`woken` has the threads taken out of the butex that did not go on yet, with their versions;
`wakers` and `wakersAll` those that are about to call `butex_wake` and `butex_wake_except`. -/
structure History where
  phase : Phase
  holder : Option Nat
  posted : List PendingError
  invocations : List Invocation
  dropped : List PendingError
  destroyed : List (Nat × Nat)
  woken : List (Nat × Nat)
  wakers : List Nat
  wakersAll : List Nat

/-- `Id`, and the threads parked in its butex, each with the version it wants to lock. -/
structure Shared where
  firstVer : Nat
  lockedVer : Nat
  butex : Nat
  pendingQ : SmallQueue PendingError 2
  parked : List (Nat × Nat)
  history : History

namespace Shared

variable (shared : Shared)

def hasVersion (version : Nat) : Bool :=
  decide (version ≥ shared.firstVer ∧ version < shared.lockedVer)

def contendedVer : Nat := uint32 (shared.lockedVer + 1)

def unlockableVer : Nat := uint32 (shared.lockedVer + 2)

def endVer : Nat := uint32 (shared.unlockableVer + 1)

end Shared

/-- Where a thread is: outside the functions, with what the last one returned, or inside
`on_error`; before `butex_wait` with the value it expects; in the butex; before `butex_wake` and
`butex_wake_except`; and before it returns the slot. -/
inductive Stage where
  | ready (result : Option Result)
  | parking (version : Nat) (range : Int) (expected : Nat)
  | waiting (version : Nat) (range : Int)
  | waking
  | wakingAll
  | closing
  | returning
deriving DecidableEq, Repr

structure Local where
  holds : Bool
  stage : Stage
deriving DecidableEq, Repr

inductive Event where
  | create (range : Int)
  | lock (version : Nat) (range : Int)
  | trylock (version : Nat)
  | unlock (version : Nat)
  | error (version : Nat) (errorCode : Int) (errorText : String)
  | aboutToDestroy (version : Nat)
  | unlockAndDestroy (version : Nat)
  | interrupt
  | proceed
deriving DecidableEq, Repr

section

variable (thread : Nat) (shared : Shared) (holds : Bool)

/-- The call returns and changes nothing. -/
def rejects (result : Result) : Shared × Local := (shared, ⟨holds, .ready (some result)⟩)

/-- `id_create_ranged_impl`; `id_create_impl` does the same with a range of 1. -/
def createStep (range : Int) : Option (Shared × Local) :=
  if range < 1 ∨ range > idMaxRange then some (rejects shared holds .einval)
  else if shared.history.phase = .free then
    let butex := if 0 = shared.butex ∨ uint32 (shared.butex + idMaxRange + 2) < shared.butex then 1
      else shared.butex
    some ({ shared with
        butex := butex
        firstVer := butex
        lockedVer := uint32 (butex + range.toNat)
        history := { shared.history with phase := .live } }, ⟨holds, .ready (some .ok)⟩)
  else none

/-- The end of the locked versions when the lock is taken with a range. -/
def resetRange (range : Int) : Nat :=
  if range = 0 then shared.lockedVer
  else if range < 0 ∨ range > idMaxRange ∨
      uint32 (range.toNat + shared.firstVer) ≤ shared.lockedVer then shared.lockedVer
  else uint32 (shared.firstVer + range.toNat)

section

variable (version : Nat)

/-- The loop of `bthread_id_lock_and_reset_range_verbose` up to where it releases the mutex. -/
def lockStep (range : Int) (everContended : Bool) : Shared × Local :=
  if shared.hasVersion version then
    if shared.butex = shared.firstVer then
      let reset := { shared with lockedVer := resetRange shared range }
      ({ reset with
          butex := if everContended then reset.contendedVer else reset.lockedVer
          history := { shared.history with holder := some thread } }, ⟨true, .ready (some .ok)⟩)
    else if shared.butex ≠ shared.unlockableVer then
      ({ shared with butex := shared.contendedVer },
        ⟨holds, .parking version range shared.contendedVer⟩)
    else rejects shared holds .eperm
  else rejects shared holds .einval

/-- `butex_wait`: the thread parks if the butex has the value it expects. -/
def waitStep (range : Int) (expected : Nat) : Shared × Local :=
  if shared.butex = expected then
    ({ shared with parked := shared.parked ++ [(thread, version)] },
      ⟨holds, .waiting version range⟩)
  else
    ({ shared with history := { shared.history with
        woken := (thread, version) :: shared.history.woken } }, ⟨holds, .waiting version range⟩)

def trylockStep : Shared × Local :=
  if shared.hasVersion version then
    if shared.butex ≠ shared.firstVer then rejects shared holds .ebusy
    else ({ shared with
          butex := shared.lockedVer
          history := { shared.history with holder := some thread } }, ⟨true, .ready (some .ok)⟩)
  else rejects shared holds .einval

/-- `on_error` is called in this thread. -/
def Shared.invoke (error : PendingError) (queued : Bool) : Shared :=
  { shared with history := { shared.history with
      invocations := ⟨error, thread, queued, decide (shared.butex ≠ shared.firstVer)⟩ ::
        shared.history.invocations } }

def unlockStep : Shared × Local :=
  if shared.hasVersion version then
    if shared.butex = shared.firstVer then rejects shared holds .eperm
    else match shared.pendingQ.pop with
      | some (front, rest) =>
          ({ shared with pendingQ := rest }.invoke thread front true, ⟨holds, .ready none⟩)
      | none =>
          let contended := decide (shared.butex = shared.contendedVer)
          let unlocked := { shared with
            butex := shared.firstVer
            history := { shared.history with
              holder := none
              wakers := if contended then thread :: shared.history.wakers
                else shared.history.wakers } }
          (unlocked, ⟨false, if contended then .waking else .ready (some .ok)⟩)
  else rejects shared holds .einval

/-- `bthread_id_error2_verbose`. -/
def errorStep (errorCode : Int) (errorText : String) : Shared × Local :=
  let error : PendingError := ⟨shared.history.posted.length, version, errorCode, errorText⟩
  let posted := { shared with history := { shared.history with
    posted := error :: shared.history.posted } }
  if shared.hasVersion version then
    if shared.butex = shared.firstVer then
      let locked := { posted with
        butex := shared.lockedVer
        history := { posted.history with holder := some thread } }
      (locked.invoke thread error false, ⟨true, .ready none⟩)
    else ({ posted with pendingQ := shared.pendingQ.push error }, ⟨holds, .ready (some .ok)⟩)
  else rejects shared holds .einval

/-- `bthread_id_about_to_destroy`. -/
def aboutToDestroyStep : Shared × Local :=
  if shared.hasVersion version then
    if shared.butex = shared.firstVer then rejects shared holds .eperm
    else
      let contended := decide (shared.butex = shared.contendedVer)
      let unlockable := { shared with
        butex := shared.unlockableVer
        history := { shared.history with
          wakersAll := if contended then thread :: shared.history.wakersAll
            else shared.history.wakersAll } }
      (unlockable, ⟨holds, if contended then .wakingAll else .ready (some .ok)⟩)
  else rejects shared holds .einval

/-- `bthread_id_unlock_and_destroy` up to where it releases the mutex. -/
def unlockAndDestroyStep : Shared × Local :=
  if shared.hasVersion version then
    if shared.butex = shared.firstVer then rejects shared holds .eperm
    else
      ({ shared with
          butex := shared.endVer
          firstVer := shared.endVer
          lockedVer := shared.endVer
          pendingQ := shared.pendingQ.clear
          history := { shared.history with
            phase := .closing thread
            holder := none
            dropped := shared.pendingQ.toList ++ shared.history.dropped
            destroyed := (shared.firstVer, shared.lockedVer) :: shared.history.destroyed
            wakersAll := thread :: shared.history.wakersAll } }, ⟨false, .closing⟩)
  else rejects shared holds .einval

/-- `butex_wake`: the thread that waits longest is taken out of the butex. -/
def Shared.wake : Shared :=
  { shared with
    parked := shared.parked.tail
    history := { shared.history with
      woken := shared.parked.take 1 ++ shared.history.woken
      wakers := shared.history.wakers.filter (· ≠ thread) } }

/-- `butex_wake_except` without an exception. -/
def Shared.wakeAll : Shared :=
  { shared with
    parked := []
    history := { shared.history with
      woken := shared.parked ++ shared.history.woken
      wakersAll := shared.history.wakersAll.filter (· ≠ thread) } }

/-- `butex_wait` ends early. -/
def interruptStep (range : Int) : Option (Shared × Local) :=
  if (thread, version) ∈ shared.parked then
    some ({ shared with
        parked := shared.parked.filter (·.1 ≠ thread)
        history := { shared.history with woken := (thread, version) :: shared.history.woken } },
      ⟨holds, .waiting version range⟩)
  else none

/-- A thread that is not in the butex any more takes the mutex again. -/
def resumeStep (range : Int) : Option (Shared × Local) :=
  if (thread, version) ∈ shared.parked then none
  else some (lockStep thread { shared with history := { shared.history with
      woken := shared.history.woken.filter (·.1 ≠ thread) } } holds version range true)

end

/-- The thread is about to wake lockers, or was woken as one and did not go on yet. -/
def Local.Wakes (own : Local) (shared : Shared) (thread : Nat) : Bool :=
  match own.stage with
  | .waking | .wakingAll | .closing => true
  | .waiting version _ => decide ((thread, version) ∉ shared.parked) && shared.hasVersion version
  | _ => false

end

def act (thread : Nat) (shared : Shared) (own : Local) (event : Event) : Option (Shared × Local) :=
  match own.stage, event with
  | .ready _, .create range => createStep shared own.holds range
  | .ready _, .lock version range => some (lockStep thread shared own.holds version range false)
  | .ready _, .trylock version => some (trylockStep thread shared own.holds version)
  | .ready _, .unlock version => some (unlockStep thread shared own.holds version)
  | .ready _, .error version errorCode errorText =>
      some (errorStep thread shared own.holds version errorCode errorText)
  | .ready _, .aboutToDestroy version => some (aboutToDestroyStep thread shared own.holds version)
  | .ready _, .unlockAndDestroy version =>
      some (unlockAndDestroyStep thread shared own.holds version)
  | .parking version range expected, .proceed =>
      some (waitStep thread shared own.holds version range expected)
  | .waiting version range, .interrupt => interruptStep thread shared own.holds version range
  | .waiting version range, .proceed => resumeStep thread shared own.holds version range
  | .waking, .proceed => some (shared.wake thread, ⟨own.holds, .ready (some .ok)⟩)
  | .wakingAll, .proceed => some (shared.wakeAll thread, ⟨own.holds, .ready (some .ok)⟩)
  | .closing, .proceed =>
      let woken := shared.wakeAll thread
      some ({ woken with history := { woken.history with phase := .closed thread } },
        ⟨own.holds, .returning⟩)
  | .returning, .proceed =>
      some ({ shared with history := { shared.history with phase := .free } },
        ⟨own.holds, .ready (some .ok)⟩)
  | _, _ => none

abbrev State := Threads.State Shared Local

/-- The slot as the pool makes it. -/
def Shared.start : Shared where
  firstVer := 0
  lockedVer := 0
  butex := 0
  pendingQ := .empty ⟨0, 0, 0, ""⟩ (by decide)
  parked := []
  history := ⟨.free, none, [], [], [], [], [], [], []⟩

def State.start : State := ⟨.start, fun _ => ⟨false, .ready none⟩⟩

def step : State → Nat × Event → Option State := Threads.step act

end CodeReading.Brpc.BthreadId
