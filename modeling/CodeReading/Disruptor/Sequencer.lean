import CodeReading.Threads

/-!
# The sequencer and its barriers

`Sequencer`, its claim strategies and `SequenceBarrier::WaitFor` as threads over
shared state. Each action of a thread is one atomic access of the source: a load,
a store or an add on a `Sequence`, taking or releasing a mutex, parking on or
notifying a condition variable. A thread that is idle may start any call, move a
consumer's `Sequence`, or alert a barrier.

Consumers' sequences are named by numbers, as are barriers and strategy objects;
the strategy object of the sequencer itself is number 0. The strategies that spin,
yield or sleep differ in what they do between two polls, which no other thread
sees, and are one strategy here. The ring buffer's events are outside the model.
What the state keeps under `History` is not a variable of the source.
-/

namespace CodeReading.Disruptor

/-- Arithmetic on `int64_t` wraps around. -/
def int64 (value : Int) : Int := value.bmod (2 ^ 64)

def kInitialCursorValue : Int := -1

def kAlertedSignal : Int := -2

def kTimeoutSignal : Int := -3

def longMax : Int := 2 ^ 63 - 1

inductive ClaimStrategy where
  | singleThreaded
  | multiThreaded
deriving DecidableEq, Repr

inductive WaitStrategy where
  | spinning
  | blocking
deriving DecidableEq, Repr

/-- What is fixed when the threads start: the size `N` and the strategies, the gating
sequences, and of each barrier its dependents and the strategy object it waits on. -/
structure Setup where
  size : Nat
  claimStrategy : ClaimStrategy
  waitStrategy : WaitStrategy
  gatingSequences : List Nat
  dependents : Nat → List Nat
  strategyOf : Nat → Nat

/-- `SequenceBarrier` declares a `wait_strategy_` of its own, so `NewBarrier` makes a
new strategy object for every barrier. -/
def newBarrierStrategy (barrier : Nat) : Nat := barrier + 1

/-- The strategy object that `Publish` signals. -/
def sequencerStrategy : Nat := 0

/-- The batch `(sequence - delta, sequence]`. -/
structure Batch where
  sequence : Int
  delta : Nat
deriving DecidableEq, Repr

/-- The sequence in front of the batch. -/
def Batch.first (batch : Batch) : Int := batch.sequence - batch.delta

/-- A sequence number of the batch. -/
def Batch.Has (batch : Batch) (number : Int) : Prop :=
  batch.first < number ∧ number ≤ batch.sequence

instance (batch : Batch) (number : Int) : Decidable (batch.Has number) :=
  inferInstanceAs (Decidable (_ ∧ _))

/-- `GetMinimumSequence` under way: the sequences not read yet, and the minimum so far. -/
structure Scan where
  left : List Nat
  minimum : Int
deriving DecidableEq, Repr

def Scan.start (sequences : List Nat) : Scan := ⟨sequences, longMax⟩

/-- A turn of the loop of `GetMinimumSequence`. -/
def Scan.lower (minimum sequence : Int) : Int := if minimum < sequence then minimum else sequence

/-- A call of `WaitFor` on a barrier; a timed one may return `kTimeoutSignal`. -/
structure Call where
  barrier : Nat
  sequence : Int
  timed : Bool
deriving DecidableEq, Repr

/-- Where a call of `IncrementAndGet` is: before it reads `last_consumer_sequence_`, or
in the loop over the gating sequences. -/
inductive Claiming where
  | claimed (batch : Batch)
  | scanning (batch : Batch) (scan : Scan)
deriving DecidableEq, Repr

/-- Where a call of `HasAvailableCapacity` is. -/
inductive Checking where
  | compared (wrapPoint : Int)
  | scanning (wrapPoint : Int) (scan : Scan)
  | storing (wrapPoint minSequence : Int)
deriving DecidableEq, Repr

/-- Where a call of `Publish` is: in `SynchronizePublishing`, before the add on the
cursor, before it takes the mutex of the strategy, and holding it. -/
inductive Publishing where
  | synchronizing (batch : Batch)
  | advancing (batch : Batch)
  | signalling
  | notifying
deriving DecidableEq, Repr

/-- Where a call of `WaitFor` is. The first three belong to the spinning strategies. The
others belong to the blocking one: without the mutex, waiting for it, comparing the cursor
and looking at `alerted` with it held, parked on the condition variable, coming back from
it, and gathering the dependents. -/
inductive Waiting where
  | polling
  | reading (scan : Scan)
  | pausing
  | arriving
  | locking
  | comparing
  | minding
  | parked
  | relocking (timedOut : Bool)
  | gathering (scan : Scan)
  | yielding
deriving DecidableEq, Repr

inductive Local where
  | idle
  | claiming (at_ : Claiming)
  | checking (at_ : Checking)
  | publishing (at_ : Publishing)
  | waiting (call : Call) (at_ : Waiting)
deriving DecidableEq, Repr

/-- What happened so far: the batches in the order of the adds on the claim counter, those
still in `Claim` with their thread, those `Claim` returned, those returned and not yet given
to `Publish`, and those given to it; the results of `HasAvailableCapacity` and `WaitFor`; the
threads between the add on the cursor and the notification, and the notifications with the
strategy object and the cursor. -/
structure History where
  claims : List Batch
  claiming : List (Nat × Batch)
  returned : List Batch
  outstanding : List Batch
  passed : List Batch
  capacities : List Bool
  results : List (Call × Int)
  pending : List Nat
  notifications : List (Nat × Int)

/-- The variables of the sequencer, the consumers' sequences, the `alerted_` flags of the
barriers, and of each strategy object who holds its mutex and who is parked. -/
structure Shared where
  cursor : Int
  lastClaimedSequence : Int
  lastConsumerSequence : Int
  sequences : Nat → Int
  alerted : Nat → Bool
  owner : Nat → Option Nat
  parked : List (Nat × Nat)
  history : History

/-- A new sequencer, before any call. -/
def Shared.start (sequences : Nat → Int) : Shared where
  cursor := kInitialCursorValue
  lastClaimedSequence := kInitialCursorValue
  lastConsumerSequence := kInitialCursorValue
  sequences := sequences
  alerted := fun _ => false
  owner := fun _ => none
  parked := []
  history := ⟨[], [], [], [], [], [], [], [], []⟩

/-- What a thread does next: start a call, or go on with the one it is in. `timeOut` is a
deadline that passes; a parked thread that goes on without being notified wakes spuriously. -/
inductive Event where
  | claim (delta : Nat)
  | hasAvailableCapacity
  | publish (sequence : Int) (delta : Nat)
  | waitFor (call : Call)
  | setSequence (sequence : Nat) (value : Int)
  | setAlerted (barrier : Nat) (alert : Bool)
  | proceed
  | timeOut
deriving DecidableEq, Repr

section

variable (setup : Setup) (thread : Nat) (shared : Shared)

def wrapPoint (nextSequence : Int) : Int := int64 (nextSequence - setup.size)

/-- The add on `last_claimed_sequence_`. -/
def Shared.claim (delta : Nat) : Shared × Local :=
  let nextSequence := int64 (shared.lastClaimedSequence + delta)
  let batch : Batch := ⟨nextSequence, delta⟩
  ({ shared with
      lastClaimedSequence := nextSequence
      history := { shared.history with
        claims := shared.history.claims ++ [batch]
        claiming := (thread, batch) :: shared.history.claiming } }, .claiming (.claimed batch))

/-- `Claim` returns the last sequence of the batch. -/
def Shared.returnClaim (batch : Batch) : Shared × Local :=
  ({ shared with
      history := { shared.history with
        claiming := shared.history.claiming.filter fun entry => entry.1 ≠ thread
        returned := shared.history.returned ++ [batch]
        outstanding := shared.history.outstanding ++ [batch] } }, .idle)

/-- `IncrementAndGet` behind the add. -/
def claimStep : Claiming → Shared × Local
  | .claimed batch =>
      if shared.lastConsumerSequence < wrapPoint setup batch.sequence then
        (shared, .claiming (.scanning batch (.start setup.gatingSequences)))
      else shared.returnClaim thread batch
  | .scanning batch ⟨sequence :: left, minimum⟩ =>
      (shared, .claiming (.scanning batch
        ⟨left, Scan.lower minimum (shared.sequences sequence)⟩))
  | .scanning batch ⟨[], minimum⟩ =>
      if minimum < wrapPoint setup batch.sequence then
        (shared, .claiming (.scanning batch (.start setup.gatingSequences)))
      else shared.returnClaim thread batch

/-- `HasAvailableCapacity` returns. -/
def Shared.returnCapacity (available : Bool) : Shared × Local :=
  ({ shared with
      history := { shared.history with capacities := shared.history.capacities ++ [available] } },
    .idle)

/-- `HasAvailableCapacity` behind the read of `last_claimed_sequence_`. -/
def checkStep : Checking → Shared × Local
  | .compared wrapPoint =>
      if shared.lastConsumerSequence < wrapPoint then
        (shared, .checking (.scanning wrapPoint (.start setup.gatingSequences)))
      else shared.returnCapacity true
  | .scanning wrapPoint ⟨sequence :: left, minimum⟩ =>
      (shared, .checking (.scanning wrapPoint
        ⟨left, Scan.lower minimum (shared.sequences sequence)⟩))
  | .scanning wrapPoint ⟨[], minimum⟩ => (shared, .checking (.storing wrapPoint minimum))
  | .storing wrapPoint minSequence =>
      { shared with lastConsumerSequence := minSequence }.returnCapacity
        (decide (¬ minSequence < wrapPoint))

/-- The call of `Publish`: `SingleThreadedStrategy` does not synchronize. -/
def Shared.publish (batch : Batch) : Shared × Local :=
  ({ shared with
      history := { shared.history with
        outstanding := shared.history.outstanding.erase batch
        passed := shared.history.passed ++ [batch] } },
    .publishing (if setup.claimStrategy = .multiThreaded then .synchronizing batch
      else .advancing batch))

/-- `Publish`. The strategies that spin have nothing to signal. -/
def publishStep : Publishing → Option (Shared × Local)
  | .synchronizing batch =>
      if shared.cursor < int64 (batch.sequence - batch.delta) then
        some (shared, .publishing (.synchronizing batch))
      else some (shared, .publishing (.advancing batch))
  | .advancing batch =>
      some ({ shared with
          cursor := int64 (shared.cursor + batch.delta)
          history := { shared.history with pending := thread :: shared.history.pending } },
        .publishing .signalling)
  | .signalling =>
      if setup.waitStrategy = .spinning then
        some ({ shared with
          history := { shared.history with
            pending := shared.history.pending.erase thread } }, .idle)
      else if shared.owner sequencerStrategy = none then
        some ({ shared with
          owner := Function.update shared.owner sequencerStrategy (some thread) },
          .publishing .notifying)
      else none
  | .notifying =>
      some ({ shared with
          owner := Function.update shared.owner sequencerStrategy none
          parked := shared.parked.filter fun waiter => waiter.1 ≠ sequencerStrategy
          history := { shared.history with
            pending := shared.history.pending.erase thread
            notifications := shared.history.notifications ++
              [(sequencerStrategy, shared.cursor)] } }, .idle)

/-- `WaitFor` returns. -/
def Shared.returnWait (call : Call) (value : Int) : Shared × Local :=
  ({ shared with
      history := { shared.history with results := shared.history.results ++ [(call, value)] } },
    .idle)

def Shared.lock (strategy : Nat) : Shared :=
  { shared with owner := Function.update shared.owner strategy (some thread) }

def Shared.unlock (strategy : Nat) : Shared :=
  { shared with owner := Function.update shared.owner strategy none }

/-- `WaitFor` of the blocking strategy behind the wait on the cursor, which held `available`. -/
def Shared.afterCursor (call : Call) (available : Int) : Shared × Local :=
  match setup.dependents call.barrier with
  | [] => shared.returnWait call available
  | dependents => (shared, .waiting call (.gathering (.start dependents)))

/-- `WaitFor`. The mutex and the condition variable are those of the barrier's own strategy
object. -/
def waitStep (call : Call) : Waiting → Option (Shared × Local)
  | .polling =>
      match setup.dependents call.barrier with
      | [] =>
          if shared.cursor < call.sequence then some (shared, .waiting call .pausing)
          else some (shared.returnWait call shared.cursor)
      | dependents => some (shared, .waiting call (.reading (.start dependents)))
  | .reading ⟨sequence :: left, minimum⟩ =>
      some (shared, .waiting call (.reading
        ⟨left, Scan.lower minimum (shared.sequences sequence)⟩))
  | .reading ⟨[], minimum⟩ =>
      if minimum < call.sequence then some (shared, .waiting call .pausing)
      else some (shared.returnWait call minimum)
  | .pausing =>
      if shared.alerted call.barrier then some (shared.returnWait call kAlertedSignal)
      else some (shared, .waiting call .polling)
  | .arriving =>
      if shared.cursor < call.sequence then some (shared, .waiting call .locking)
      else some (shared.afterCursor setup call shared.cursor)
  | .locking =>
      if shared.owner (setup.strategyOf call.barrier) = none then
        some (shared.lock thread (setup.strategyOf call.barrier), .waiting call .comparing)
      else none
  | .comparing =>
      if shared.cursor < call.sequence then some (shared, .waiting call .minding)
      else some ((shared.unlock (setup.strategyOf call.barrier)).afterCursor setup call
        shared.cursor)
  | .minding =>
      if shared.alerted call.barrier then
        some ((shared.unlock (setup.strategyOf call.barrier)).returnWait call kAlertedSignal)
      else
        some ({ shared.unlock (setup.strategyOf call.barrier) with
            parked := (setup.strategyOf call.barrier, thread) :: shared.parked },
          .waiting call .parked)
  | .parked =>
      some ({ shared with parked := shared.parked.erase (setup.strategyOf call.barrier, thread) },
        .waiting call (.relocking false))
  | .relocking timedOut =>
      if shared.owner (setup.strategyOf call.barrier) = none then
        if timedOut then some (shared.returnWait call kTimeoutSignal)
        else some (shared.lock thread (setup.strategyOf call.barrier), .waiting call .comparing)
      else none
  | .gathering ⟨sequence :: left, minimum⟩ =>
      some (shared, .waiting call (.gathering
        ⟨left, Scan.lower minimum (shared.sequences sequence)⟩))
  | .gathering ⟨[], minimum⟩ =>
      if minimum < call.sequence then some (shared, .waiting call .yielding)
      else some (shared.returnWait call minimum)
  | .yielding =>
      if shared.alerted call.barrier then some (shared.returnWait call kAlertedSignal)
      else some (shared, .waiting call (.gathering (.start (setup.dependents call.barrier))))

/-- The deadline of a timed call passes. A spinning strategy looks at the clock after
`alerted`; the blocking one returns from the condition variable. -/
def timeOutStep (call : Call) : Waiting → Option (Shared × Local)
  | .pausing =>
      if shared.alerted call.barrier then some (shared.returnWait call kAlertedSignal)
      else some (shared.returnWait call kTimeoutSignal)
  | .parked =>
      some ({ shared with parked := shared.parked.erase (setup.strategyOf call.barrier, thread) },
        .waiting call (.relocking true))
  | _ => none

/-- A call starts, or something that is not a call of the sequencer happens. With the single
threaded strategy only one thread claims, asks for capacity and publishes. -/
def startStep : Event → Option (Shared × Local)
  | .claim delta =>
      if setup.claimStrategy = .multiThreaded ∨ thread = 0 then some (shared.claim thread delta)
      else none
  | .hasAvailableCapacity =>
      if setup.claimStrategy = .multiThreaded ∨ thread = 0 then
        some (shared, .checking (.compared
          (int64 (shared.lastClaimedSequence + 1 - setup.size))))
      else none
  | .publish sequence delta =>
      if setup.claimStrategy = .multiThreaded ∨ thread = 0 then
        some (shared.publish setup ⟨sequence, delta⟩)
      else none
  | .waitFor call =>
      some (shared, .waiting call (if setup.waitStrategy = .blocking then .arriving else .polling))
  | .setSequence sequence value =>
      some ({ shared with sequences := Function.update shared.sequences sequence value }, .idle)
  | .setAlerted barrier alert =>
      some ({ shared with alerted := Function.update shared.alerted barrier alert }, .idle)
  | _ => none

def act : Local → Event → Option (Shared × Local)
  | .idle, event => startStep setup thread shared event
  | .claiming at_, .proceed => some (claimStep setup thread shared at_)
  | .checking at_, .proceed => some (checkStep setup shared at_)
  | .publishing at_, .proceed => publishStep setup thread shared at_
  | .waiting call at_, .proceed => waitStep setup thread shared call at_
  | .waiting call at_, .timeOut =>
      if call.timed then timeOutStep setup thread shared call at_ else none
  | _, _ => none

end

/-- The states of the threads and of what they share. -/
abbrev State := Threads.State Shared Local

/-- All threads idle, nothing claimed. -/
def State.start (sequences : Nat → Int) : State := ⟨.start sequences, fun _ => .idle⟩

def step (setup : Setup) : State → Nat × Event → Option State := Threads.step (act setup)

end CodeReading.Disruptor
