import CodeReading.Machine
import CodeReading.Muduo.Buffer

/-!
# The output of a TCP connection

`TcpConnection` writes a message at once when nothing waits, buffers what the kernel did not take
and half-closes the socket once the buffer has drained. What another thread asks for is queued in
the loop, but `shutdown` changes the state at once: a write event then half-closes the socket in
front of the messages still queued.
-/

namespace CodeReading.Muduo

inductive StateE where
  | disconnected
  | connecting
  | connected
  | disconnecting
deriving DecidableEq

/-- The answer of `write`: at most `count` bytes are taken, or an error, which is fatal when it is
`EPIPE` or `ECONNRESET`. -/
inductive Written where
  | wrote (count : Nat)
  | failed (fatal : Bool)

def Written.succeeds : Written → Bool
  | .wrote _ => true
  | .failed _ => false

/-- What is handed to `runInLoop`. -/
inductive Functor where
  | sendInLoop (message : Bytes)
  | shutdownInLoop

/-- The bytes that the functor is to send. -/
def Functor.message : Functor → Bytes
  | .sendInLoop message => message
  | .shutdownInLoop => []

/-- A connection and the queue of its loop. The last fields are history: whether `shutdown` was
called, the messages of the calls of `send` before it, the bytes the kernel took, a fatal error of a
write, the half-close of the socket. -/
structure TcpConnection where
  state : StateE := .connected
  isWriting : Bool := false
  outputBuffer : Buffer := .new
  pendingFunctors : List Functor := []
  shut : Bool := false
  sent : Bytes := []
  accepted : Bytes := []
  fault : Bool := false
  closed : Bool := false

inductive Event where
  | send (message : Bytes)
  | shutdown
  | writable
  | run
  | close

namespace TcpConnection

variable (conn : TcpConnection)

/-- The tail of `sendInLoop`: what remains is buffered and write events are asked for. -/
def append (remaining : Bytes) : TcpConnection :=
  if remaining = [] then conn
  else { conn with outputBuffer := conn.outputBuffer.append remaining, isWriting := true }

def sendInLoop (message : Bytes) (written : Written) : TcpConnection :=
  if conn.state = .disconnected then conn
  else if conn.isWriting = false ∧ conn.outputBuffer.readableBytes = 0 then
    match written with
    | .wrote count =>
        append { conn with accepted := conn.accepted ++ message.take count } (message.drop count)
    | .failed false => conn.append message
    | .failed true => { conn with fault := true }
  else conn.append message

def shutdownInLoop : TcpConnection :=
  if conn.isWriting then conn else { conn with closed := true }

def handleWrite (written : Written) : TcpConnection :=
  if conn.isWriting then
    match written with
    | .wrote count =>
        let taken := min count conn.outputBuffer.readableBytes
        if taken = 0 then conn
        else
          let next := { conn with
            accepted := conn.accepted ++ conn.outputBuffer.peek.take taken
            outputBuffer := conn.outputBuffer.retrieve taken }
          if next.outputBuffer.readableBytes ≠ 0 then next
          else if next.state = .disconnecting then shutdownInLoop { next with isWriting := false }
          else { next with isWriting := false }
    | .failed fatal => { conn with fault := conn.fault || fatal }
  else conn

def handleClose : TcpConnection :=
  { conn with state := .disconnected, isWriting := false }

def call (functor : Functor) (written : Written) : TcpConnection :=
  match functor with
  | .sendInLoop message => conn.sendInLoop message written
  | .shutdownInLoop => conn.shutdownInLoop

def runInLoop (inLoop : Bool) (functor : Functor) (written : Written) : TcpConnection :=
  if inLoop then conn.call functor written
  else { conn with pendingFunctors := conn.pendingFunctors ++ [functor] }

/-- The call of `send` for the history. -/
def record (message : Bytes) : TcpConnection :=
  if conn.shut then conn else { conn with sent := conn.sent ++ message }

def send (inLoop : Bool) (message : Bytes) (written : Written) : TcpConnection :=
  if conn.state = .connected then
    runInLoop (conn.record message) inLoop (.sendInLoop message) written
  else conn.record message

def shutdown (inLoop : Bool) (written : Written) : TcpConnection :=
  if conn.state = .connected then
    runInLoop { conn with state := .disconnecting, shut := true } inLoop .shutdownInLoop written
  else { conn with shut := true }

/-- One call from the loop's thread or from another one, one event of the socket or one queued
functor, with what the kernel answers to a write. After a fatal error no write succeeds. -/
def step (inLoop : Bool) : Event × Written → Option TcpConnection
  | (event, written) =>
      if conn.fault ∧ written.succeeds then none
      else
        match event with
        | .send message => conn.send inLoop message written
        | .shutdown => conn.shutdown inLoop written
        | .writable => conn.handleWrite written
        | .run =>
            match conn.pendingFunctors with
            | [] => none
            | functor :: rest => call { conn with pendingFunctors := rest } functor written
        | .close => if conn.state = .disconnected then none else conn.handleClose

/-- The bytes that wait in the queue of the loop. -/
def queued : Bytes := conn.pendingFunctors.flatMap Functor.message

/-- Write events are asked for exactly while bytes wait. -/
def Writing : Prop :=
  conn.isWriting ↔ conn.state ≠ .disconnected ∧ conn.outputBuffer.peek ≠ []

/-- What holds between two events, with a message that the loop has in hand. -/
structure Sound (inLoop : Bool) (message : Bytes) : Prop where
  idle : inLoop → conn.pendingFunctors = []
  state : conn.state = .connected ∧ conn.shut = false ∨ conn.state = .disconnecting ∧ conn.shut ∨
    conn.state = .disconnected
  writing : conn.Writing
  accepted : conn.accepted <+: conn.sent
  stream : conn.fault = false → conn.state ≠ .disconnected →
    conn.accepted ++ (conn.outputBuffer.peek ++ message ++ conn.queued) = conn.sent
  flushed : inLoop → conn.closed → conn.shut ∧ (conn.fault ∨ conn.accepted = conn.sent)

/-- What the loop does with a message in hand, or at a write event: nothing, a write that fails for
good, or a step of the stream, at whose end the socket may be half-closed. -/
inductive Moves (message : Bytes) : TcpConnection → Prop where
  | none (nothing : message = [] ∨ conn.state = .disconnected) : Moves message conn
  | fail : Moves message { conn with fault := true }
  | carry (taken : Bytes) (buf : Buffer) (writing closed : Bool)
      (up : conn.state ≠ .disconnected) (sane : taken = [] ∨ conn.fault = false)
      (stream : taken ++ buf.peek = conn.outputBuffer.peek ++ message)
      (active : writing ↔ buf.peek ≠ [])
      (closing : closed → conn.closed ∨ writing = false ∧ conn.state = .disconnecting) :
      Moves message { conn with
        accepted := conn.accepted ++ taken
        outputBuffer := buf
        isWriting := writing
        closed := closed }

variable {conn} {message : Bytes} {written : Written} {inLoop : Bool} {next : TcpConnection}

theorem readableBytes_eq_zero (buf : Buffer) : buf.readableBytes = 0 ↔ buf.peek = [] := by
  rw [← buf.peek_length, List.length_eq_zero_iff]

theorem append_moves (writing : conn.Writing) (up : conn.state ≠ .disconnected) (taken : Bytes)
    (sane : taken = [] ∨ conn.fault = false) (remaining : Bytes)
    (stream : taken ++ (conn.outputBuffer.peek ++ remaining) = conn.outputBuffer.peek ++ message) :
    conn.Moves message (append { conn with accepted := conn.accepted ++ taken } remaining) := by
  unfold append
  split
  case isTrue empty =>
    subst empty
    rw [List.append_nil] at stream
    exact .carry taken conn.outputBuffer conn.isWriting conn.closed up sane stream
      (by simpa [Writing, up] using writing) .inl
  case isFalse more =>
    refine .carry taken (conn.outputBuffer.append remaining) true conn.closed up sane ?_ ?_ .inl
    · rw [Buffer.append_peek, stream]
    · simp [Buffer.append_peek, more]

theorem sendInLoop_moves (writing : conn.Writing) (alive : ¬(conn.fault ∧ written.succeeds))
    (message : Bytes) : conn.Moves message (conn.sendInLoop message written) := by
  have buffered : conn.state ≠ .disconnected → conn.Moves message (conn.append message) := by
    intro up
    simpa using append_moves writing up [] (.inl rfl) message rfl
  unfold sendInLoop
  split
  case isTrue down => exact .none (.inr down)
  case isFalse up =>
    split
    case isFalse => exact buffered up
    case isTrue free =>
      cases written with
      | wrote count =>
        refine append_moves writing up _ (.inr (by simpa [Written.succeeds] using alive)) _ ?_
        simp [(readableBytes_eq_zero _).mp free.2]
      | failed fatal =>
        cases fatal with
        | false => exact buffered up
        | true => exact .fail

theorem handleWrite_moves (writing : conn.Writing) (alive : ¬(conn.fault ∧ written.succeeds)) :
    conn.Moves [] (conn.handleWrite written) := by
  unfold handleWrite
  split
  case isFalse => exact .none (.inl rfl)
  case isTrue enabled =>
    have up := (writing.mp enabled).1
    cases written with
    | failed fatal =>
      cases fatal with
      | false => simpa using Moves.none (.inl rfl)
      | true => simpa using Moves.fail
    | wrote count =>
      have sane : conn.fault = false := by simpa [Written.succeeds] using alive
      have stream (taken : Nat) : conn.outputBuffer.peek.take taken ++
          (conn.outputBuffer.retrieve taken).peek = conn.outputBuffer.peek ++ [] := by
        simp [Buffer.retrieve_peek]
      simp only [readableBytes_eq_zero, ne_eq, ite_not]
      split
      case isTrue => exact .none (.inl rfl)
      case isFalse =>
        split
        case isFalse left =>
          exact .carry _ _ _ _ up (.inr sane) (stream _) (by simp [enabled, left]) .inl
        case isTrue drained =>
          split
          case isTrue shut =>
            exact .carry _ _ false true up (.inr sane) (stream _) (by simp [drained])
              fun _ => .inr ⟨rfl, shut⟩
          case isFalse =>
            exact .carry _ _ false _ up (.inr sane) (stream _) (by simp [drained]) .inl

theorem Moves.sound (moves : conn.Moves message next) (sound : conn.Sound inLoop message) :
    next.Sound inLoop [] := by
  obtain ⟨idle, state, writing, accepted, stream, flushed⟩ := sound
  cases moves with
  | none nothing =>
    refine ⟨idle, state, writing, accepted, ?_, flushed⟩
    intro sane up
    simpa [nothing.resolve_right up] using stream sane up
  | fail => exact ⟨idle, state, writing, accepted, nofun, fun here closed =>
      ⟨(flushed here closed).1, .inl rfl⟩⟩
  | carry taken buf isWriting closed up sane split active closing =>
    have whole (sane : conn.fault = false) :
        conn.accepted ++ taken ++ (buf.peek ++ conn.queued) = conn.sent := by
      rw [← stream sane up, ← split]
      simp
    refine ⟨idle, state, by simp [Writing, up, active], ?_, ?_, ?_⟩
    · rcases sane with rfl | sane
      · simpa using accepted
      · exact ⟨_, whole sane⟩
    · intro sane _
      simpa [queued] using whole sane
    · intro here isClosed
      rcases closing isClosed with before | ⟨free, disconnecting⟩
      · obtain ⟨shut, all⟩ := flushed here before
        refine ⟨shut, ?_⟩
        cases failed : conn.fault with
        | true => exact .inl rfl
        | false =>
          have all := all.resolve_left (by simp [failed])
          have none := whole failed
          rw [List.append_assoc, ← all, List.append_right_eq_self, List.append_eq_nil_iff] at none
          exact .inr (by simp [none.1, all])
      · have shut : conn.shut := by grind
        refine ⟨shut, ?_⟩
        cases failed : conn.fault with
        | true => exact .inl rfl
        | false =>
          have all := whole failed
          right
          simpa [queued, idle here, show buf.peek = [] by simpa [free] using active] using all

theorem shutdownInLoop_sound (sound : conn.Sound inLoop [])
    (shut : inLoop → conn.state = .disconnecting) : conn.shutdownInLoop.Sound inLoop [] := by
  unfold shutdownInLoop
  split
  case isTrue => exact sound
  case isFalse free =>
    refine { sound with flushed := ?_ }
    intro here _
    have up : conn.state ≠ .disconnected := by simp [shut here]
    have drained : conn.outputBuffer.peek = [] := by
      by_contra more
      exact free (sound.writing.mpr ⟨up, more⟩)
    refine ⟨by simpa [shut here] using sound.state, ?_⟩
    cases failed : conn.fault with
    | true => exact .inl rfl
    | false => exact .inr (by simpa [queued, sound.idle here, drained] using sound.stream failed up)

theorem call_sound (functor : Functor) (sound : conn.Sound inLoop functor.message)
    (alive : ¬(conn.fault ∧ written.succeeds))
    (shut : inLoop → functor = .shutdownInLoop → conn.state = .disconnecting) :
    (conn.call functor written).Sound inLoop [] := by
  cases functor with
  | sendInLoop message => exact (sendInLoop_moves sound.writing alive message).sound sound
  | shutdownInLoop => exact shutdownInLoop_sound sound fun here => shut here rfl

theorem send_sound (sound : conn.Sound inLoop []) (alive : ¬(conn.fault ∧ written.succeeds))
    (message : Bytes) : (conn.send inLoop message written).Sound inLoop [] := by
  have longer := sound.accepted.trans (List.prefix_append conn.sent message)
  unfold send record
  by_cases shut : conn.shut
  · have down : conn.state ≠ .connected := by grind [sound.state]
    simpa [shut, down] using sound
  · have unclosed : inLoop → conn.closed = false := by grind [sound.flushed]
    rw [if_neg shut]
    split
    case isFalse down =>
      have ended : conn.state = .disconnected := by grind [sound.state]
      exact { sound with
        accepted := longer
        stream := fun _ up => absurd ended up
        flushed := by simp +contextual [unclosed] }
    case isTrue connected =>
      have stream : conn.fault = false → conn.accepted ++ (conn.outputBuffer.peek ++ conn.queued ++
          message) = conn.sent ++ message := by
        intro sane
        rw [← sound.stream sane (connected.trans_ne nofun)]
        simp
      unfold runInLoop
      split
      case isTrue here =>
        refine call_sound _ { sound with
          accepted := longer, stream := ?_, flushed := by simp [unclosed here] } alive nofun
        intro sane _
        simpa [queued, sound.idle here, Functor.message] using stream sane
      case isFalse elsewhere =>
        exact { sound with
          idle := fun here => absurd here elsewhere
          accepted := longer
          stream := fun sane _ => by simpa [queued, Functor.message] using stream sane
          flushed := fun here => absurd here elsewhere }

theorem shutdown_sound (sound : conn.Sound inLoop []) (alive : ¬(conn.fault ∧ written.succeeds)) :
    (conn.shutdown inLoop written).Sound inLoop [] := by
  unfold shutdown
  split
  case isFalse down =>
    exact { sound with
      state := by grind [sound.state]
      flushed := fun here closed => ⟨rfl, (sound.flushed here closed).2⟩ }
  case isTrue connected =>
    have shut : { conn with state := .disconnecting, shut := true }.Sound inLoop [] := { sound with
      state := .inr (.inl ⟨rfl, rfl⟩)
      writing := by simpa [Writing, connected] using sound.writing
      stream := fun sane _ => sound.stream sane (connected.trans_ne nofun)
      flushed := fun here closed => ⟨rfl, (sound.flushed here closed).2⟩ }
    unfold runInLoop
    split
    case isTrue here => exact call_sound _ shut alive fun _ _ => rfl
    case isFalse elsewhere =>
      exact { shut with
        idle := fun here => absurd here elsewhere
        stream := by simpa [queued, Functor.message] using shut.stream
        flushed := fun here => absurd here elsewhere }

theorem step_sound (event : Event × Written) (taken : conn.step inLoop event = some next)
    (sound : conn.Sound inLoop []) : next.Sound inLoop [] := by
  obtain ⟨event, written⟩ := event
  simp only [step] at taken
  split at taken
  case isTrue => contradiction
  case isFalse alive =>
    cases event with
    | send message =>
      obtain rfl := Option.some.inj taken
      exact send_sound sound alive message
    | shutdown =>
      obtain rfl := Option.some.inj taken
      exact shutdown_sound sound alive
    | writable =>
      obtain rfl := Option.some.inj taken
      exact (handleWrite_moves sound.writing alive).sound sound
    | run =>
      dsimp only at taken
      split at taken
      case h_1 => contradiction
      case h_2 functor rest waiting =>
        have elsewhere : ¬inLoop := fun here => nomatch waiting.symm.trans (sound.idle here)
        obtain rfl := Option.some.inj taken
        refine call_sound functor { sound with
          idle := fun here => absurd here elsewhere
          stream := by simpa [queued, waiting] using sound.stream } alive
          fun here => absurd here elsewhere
    | close =>
      dsimp only at taken
      split at taken
      case isTrue => contradiction
      case isFalse =>
        obtain rfl := Option.some.inj taken
        exact { sound with
          state := .inr (.inr rfl)
          writing := by simp [handleClose, Writing]
          stream := fun _ up => absurd rfl up }

end TcpConnection

end CodeReading.Muduo
