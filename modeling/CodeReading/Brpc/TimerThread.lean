import CodeReading.Threads

/-!
# The timer thread

`TimerThread` as threads over shared state. Thread 0 is the timer thread in its loop;
the others call `schedule`, `unschedule` and `stop_and_join`. What is done under a
mutex is one action, as is every other access to shared memory. A callback that
schedules or unschedules tasks is another thread that does so while the timer thread
is calling. The clock shows what the event says.

Tasks are named by their slot in the resource pool, and a task id is kept as slot and
version. The heap of the timer thread is the list of its tasks; whichever of the
earliest ones may be at its top. The pool hands out any slot that is free. What the
state keeps under `History` is not a variable of the source.
-/

namespace CodeReading.Brpc.Timer

def int64Max : Int := 2 ^ 63 - 1

/-- Versions are of type `uint32_t`. -/
def uint32 (value : Nat) : Nat := value % 2 ^ 32

structure TaskId where
  slot : Nat
  version : Nat
deriving DecidableEq, Repr

/-- `TimerThread::Task`, with the version of its `task_id`. -/
structure Task where
  version : Nat
  idVersion : Nat
  runTime : Int
deriving DecidableEq, Repr

structure Bucket where
  nearestRunTime : Int
  taskHead : List Nat
deriving DecidableEq, Repr

/-- Where a slot is: in the pool, with the thread that schedules it, in a bucket, or with the
timer thread. -/
inductive Place where
  | free
  | held (thread : Nat)
  | bucket (index : Nat)
  | timer
deriving DecidableEq, Repr

/-- What happened so far: the place of each slot; the ids that were made, with their run times,
and those that `schedule` has returned; the ids that ran, with the clock when it was read for
them, and the one that is running; what `unschedule` returned and what was running then; and
whether a `CHECK` or the branch for the impossible case was reached. `covered` is the number of
buckets pulled since `_nearest_run_time` was cleared, and `pending` has the threads whose task
was the nearest of its bucket and that did not compare it with `_nearest_run_time` yet. -/
structure History where
  place : Nat → Place
  issued : List (TaskId × Int)
  returned : List TaskId
  runs : List (TaskId × Int)
  running : Option TaskId
  verdicts : List (TaskId × Int × Option TaskId)
  broken : Bool
  covered : Nat
  pending : List (Nat × Int)

structure Shared where
  tasks : Nat → Task
  buckets : Nat → Bucket
  nearestRunTime : Int
  nsignals : Nat
  stop : Bool
  history : History

/-- The number of buckets, and the bucket that each thread hashes to. -/
structure Setup where
  numBuckets : Nat
  bucketOf : Nat → Nat
  inside : ∀ thread, bucketOf thread < numBuckets

/-- Where the timer thread is in the loop of `run`, and the list of its tasks: at the condition
of the loop, before it clears `_nearest_run_time`, in front of a bucket, taking its tasks and
deleting the unscheduled ones; before it looks at the clock, compares the task at the top of the
heap with `_nearest_run_time`, exchanges its version, ends its call and returns its slot; before
it decides how long to sleep, and asleep until a time or a signal. -/
inductive Running where
  | top
  | resetting
  | pulling (bucket : Nat)
  | consuming (bucket : Nat)
  | sorting (bucket : Nat) (left : List Nat)
  | picking
  | comparing (slot : Nat) (now : Int)
  | exchanging (slot : Nat) (now : Int)
  | calling (slot : Nat)
  | returning (slot : Nat)
  | deciding
  | sleeping (nextRunTime : Int) (expected : Nat)
  | stopped
deriving DecidableEq, Repr

inductive Local where
  | idle
  | inserting (slot : Nat)
  | announcing (id : TaskId) (runTime : Int)
  | waking (id : TaskId)
  | stopping
  | running (heap : List Nat) (at_ : Running)
deriving DecidableEq, Repr

inductive Event where
  | schedule (slot : Nat) (runTime : Int)
  | unschedule (id : TaskId)
  | stop
  | pick (slot : Nat) (now : Int)
  | proceed
deriving DecidableEq, Repr

section

variable (setup : Setup) (thread : Nat) (shared : Shared)

def Shared.idOf (slot : Nat) : TaskId := ⟨slot, (shared.tasks slot).idVersion⟩

def Shared.setVersion (slot version : Nat) : Shared :=
  { shared with
    tasks := Function.update shared.tasks slot { shared.tasks slot with version := version } }

def Shared.setPlace (slot : Nat) (place : Place) : Shared :=
  { shared with
    history := { shared.history with
      place := Function.update shared.history.place slot place } }

/-- `schedule` returns the id of the task. -/
def Shared.returnSchedule (id : TaskId) : Shared × Local :=
  ({ shared with
      history := { shared.history with returned := id :: shared.history.returned } }, .idle)

/-- The task that `Bucket::schedule` fills in; a version of 0 is skipped. -/
def Task.filled (task : Task) (runTime : Int) : Task :=
  let version := if task.version = 0 then 2 else task.version
  ⟨version, version, runTime⟩

/-- `Bucket::schedule` up to the mutex. -/
def Shared.fill (slot : Nat) (runTime : Int) : Shared :=
  let task := (shared.tasks slot).filled runTime
  { shared with
    tasks := Function.update shared.tasks slot task
    history := { shared.history with
      place := Function.update shared.history.place slot (.held thread)
      issued := (⟨slot, task.version⟩, runTime) :: shared.history.issued } }

/-- `Bucket::schedule` under the mutex of the bucket. -/
def insertStep (slot : Nat) : Shared × Local :=
  let index := setup.bucketOf thread
  let bucket := shared.buckets index
  let runTime := (shared.tasks slot).runTime
  let placed := { shared with
    history := { shared.history with
      place := Function.update shared.history.place slot (.bucket index) } }
  if runTime < bucket.nearestRunTime then
    ({ placed with
        buckets := Function.update shared.buckets index ⟨runTime, slot :: bucket.taskHead⟩
        history := { placed.history with
          pending := (thread, runTime) :: shared.history.pending } },
      .announcing (shared.idOf slot) runTime)
  else
    { placed with
      buckets := Function.update shared.buckets index
        ⟨bucket.nearestRunTime, slot :: bucket.taskHead⟩ }.returnSchedule (shared.idOf slot)

/-- `TimerThread::schedule` under `_mutex`. -/
def announceStep (id : TaskId) (runTime : Int) : Shared × Local :=
  let announced := { shared with
    history := { shared.history with
      pending := shared.history.pending.filter fun entry => entry.1 ≠ thread } }
  if runTime < shared.nearestRunTime then
    ({ announced with
        nearestRunTime := runTime
        nsignals := uint32 (shared.nsignals + 1) }, .waking id)
  else announced.returnSchedule id

/-- The exchange of `unschedule`, and what it returns. -/
def unscheduleStep (id : TaskId) : Shared × Local :=
  let version := (shared.tasks id.slot).version
  let exchanged := if version = id.version then
    shared.setVersion id.slot (uint32 (id.version + 2)) else shared
  let result := if version = id.version then 0
    else if version = uint32 (id.version + 1) then 1 else -1
  ({ exchanged with
      history := { shared.history with
        verdicts := (id, result, shared.history.running) :: shared.history.verdicts } }, .idle)

section

variable (heap : List Nat)

/-- `try_delete` on the task at the head of a list of consumed tasks. -/
def sortStep (bucket slot : Nat) (left : List Nat) : Shared × Local :=
  let task := shared.tasks slot
  if task.version ≠ task.idVersion then
    let checked := { shared with
      history := { shared.history with
        broken := shared.history.broken || decide (task.version ≠ uint32 (task.idVersion + 2)) } }
    (checked.setPlace slot .free, .running heap (.sorting bucket left))
  else (shared, .running (slot :: heap) (.sorting bucket left))

/-- The exchange of `run_and_delete`. -/
def exchangeStep (slot : Nat) (now : Int) : Shared × Local :=
  let task := shared.tasks slot
  if task.version = task.idVersion then
    let exchanged := shared.setVersion slot (uint32 (task.idVersion + 1))
    ({ exchanged with
        history := { shared.history with
          runs := (shared.idOf slot, now) :: shared.history.runs
          running := some (shared.idOf slot) } }, .running heap (.calling slot))
  else if task.version = uint32 (task.idVersion + 2) then
    (shared.setPlace slot .free, .running heap .picking)
  else ({ shared with history := { shared.history with broken := true } }, .running heap .picking)

/-- The run time at the top of the heap, or the largest one. -/
def earliest : Int :=
  heap.foldl (fun least slot => min least (shared.tasks slot).runTime) int64Max

def runStep : Running → Option (Shared × Local)
  | .top =>
      if shared.stop then some (shared, .running heap .stopped)
      else some (shared, .running heap .resetting)
  | .resetting =>
      some ({ shared with
          nearestRunTime := int64Max
          history := { shared.history with covered := 0 } }, .running heap (.pulling 0))
  | .pulling bucket =>
      if bucket < setup.numBuckets then
        if (shared.buckets bucket).taskHead = [] then
          some ({ shared with history := { shared.history with covered := bucket + 1 } },
            .running heap (.pulling (bucket + 1)))
        else some (shared, .running heap (.consuming bucket))
      else some (shared, .running heap .picking)
  | .consuming bucket =>
      let head := (shared.buckets bucket).taskHead
      some ({ shared with
          buckets := Function.update shared.buckets bucket ⟨int64Max, []⟩
          history := { shared.history with
            place := fun slot => if slot ∈ head then .timer else shared.history.place slot
            covered := bucket + 1 } }, .running heap (.sorting bucket head))
  | .sorting bucket [] => some (shared, .running heap (.pulling (bucket + 1)))
  | .sorting bucket (slot :: left) => some (sortStep shared heap bucket slot left)
  | .picking => if heap = [] then some (shared, .running heap .deciding) else none
  | .comparing slot now =>
      if shared.nearestRunTime < (shared.tasks slot).runTime then
        some (shared, .running heap .top)
      else some (shared, .running (heap.erase slot) (.exchanging slot now))
  | .exchanging slot now => some (exchangeStep shared heap slot now)
  | .calling slot =>
      let returned := shared.setVersion slot (uint32 ((shared.tasks slot).idVersion + 2))
      some ({ returned with history := { shared.history with running := none } },
        .running heap (.returning slot))
  | .returning slot => some (shared.setPlace slot .free, .running heap .picking)
  | .deciding =>
      let nextRunTime := earliest shared heap
      if shared.nearestRunTime < nextRunTime then some (shared, .running heap .top)
      else some ({ shared with nearestRunTime := nextRunTime },
        .running heap (.sleeping nextRunTime shared.nsignals))
  | .sleeping _ _ => some (shared, .running heap .top)
  | .stopped => none

/-- The timer thread looks at the clock with an earliest task at the top of its heap. -/
def pickStep (slot : Nat) (now : Int) : Option (Shared × Local) :=
  if slot ∈ heap ∧ (shared.tasks slot).runTime = earliest shared heap then
    if now < (shared.tasks slot).runTime then some (shared, .running heap .deciding)
    else some (shared, .running heap (.comparing slot now))
  else none

end

def act : Local → Event → Option (Shared × Local)
  | .idle, .schedule slot runTime =>
      if shared.stop then some (shared, .idle)
      else if shared.history.place slot = .free then
        some (shared.fill thread slot runTime, .inserting slot)
      else none
  | .idle, .unschedule id => some (unscheduleStep shared id)
  | .idle, .stop => some ({ shared with stop := true }, .stopping)
  | .inserting slot, .proceed => some (insertStep setup thread shared slot)
  | .announcing id runTime, .proceed => some (announceStep thread shared id runTime)
  | .waking id, .proceed => some (shared.returnSchedule id)
  | .stopping, .proceed =>
      some ({ shared with nearestRunTime := 0, nsignals := uint32 (shared.nsignals + 1) }, .idle)
  | .running heap .picking, .pick slot now => pickStep shared heap slot now
  | .running heap at_, .proceed => runStep setup shared heap at_
  | _, _ => none

end

abbrev State := Threads.State Shared Local

/-- New buckets, every slot in the pool, and the timer thread at the start of its loop. -/
def Shared.start : Shared where
  tasks := fun _ => ⟨2, 0, 0⟩
  buckets := fun _ => ⟨int64Max, []⟩
  nearestRunTime := int64Max
  nsignals := 0
  stop := false
  history := ⟨fun _ => .free, [], [], [], none, [], false, 0, []⟩

def State.start : State :=
  ⟨.start, fun thread => if thread = 0 then .running [] .top else .idle⟩

def step (setup : Setup) : State → Nat × Event → Option State := Threads.step (act setup)

end CodeReading.Brpc.Timer
