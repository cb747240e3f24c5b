import CodeReading.Machine
import CodeReading.NetLink.Rebuilding

/-!
# From a serializer to a deserializer

A serializer writes into a stream and a deserializer reads from it, each in calls with any
byte limit, and the stream takes and delivers in any portions. Elements are offered to the
serializer at any time. Whatever the calls, the bytes of the offered elements go through the
stream in order, and each element is handed over, as it was, with its last byte.
-/

namespace CodeReading.NetLink

open Element Option Serializer
open List (append_assoc append_nil length_append mem_append_right mem_singleton)

namespace Deserializer

/-- The elements to be received, with the bytes that are missing until the last of them. -/
inductive Expects : List Frame → List Element → Bytes → Prop
  | idle : Expects [] [] []
  | amid {root : Element} {stack : List Frame} {missing : Bytes} (reading : Reading root stack missing)
      (rest : List Element) : Expects stack (root :: rest) (missing ++ bytesAll rest)

theorem expects_start (elements : List Element) : Expects [] elements (bytesAll elements) := by
  cases elements with
  | nil => exact .idle
  | cons root rest =>
    have expects := Expects.amid (.ready (@Awaits.root root)) rest
    rwa [append_nil] at expects

variable {missing : Bytes} {pending : List Element}

theorem turn_expects (expects : Expects stack pending missing)
    (portable : ∀ element ∈ pending, element.Portable)
    (stream : input ++ coming = missing) (bytesLeft : Nat) (arrived : Nat × Nat) :
    ∃ next rest left, turn true stack input bytesLeft arrived = some next ∧
      pending = next.done.toList ++ rest ∧ Expects next.stack rest left ∧
      next.read <+: input ∧ missing = next.read ++ left ∧
      (0 < bytesLeft → 0 < arrived.1 → 0 < arrived.2 → input ≠ [] → next.read ≠ []) := by
  cases expects with
  | idle =>
    obtain ⟨rfl, -⟩ := List.append_eq_nil_iff.mp stream
    exact ⟨⟨[], [], none, false⟩, [], [], by rw [turn, nextElement, List.take_nil], rfl, .idle,
      List.nil_prefix, rfl, fun _ _ _ nothing => absurd rfl nothing⟩
  | @amid root _ missing reading rest =>
    obtain ⟨next, taken, reads, moves⟩ :=
      turn_reads (portable root (.head _)) reading stream bytesLeft arrived
    obtain ⟨none, left, bytes, goes⟩ | ⟨done, empty, bytes⟩ := reads.moved
    · refine ⟨next, root :: rest, left ++ bytesAll rest, taken, ?_, .amid goes rest, reads.taken, ?_,
        moves⟩
      · rw [none]
        rfl
      · rw [bytes, append_assoc]
    · refine ⟨next, rest, bytesAll rest, taken, ?_, ?_, reads.taken, ?_, moves⟩
      · rw [done]
        rfl
      · rw [empty]
        exact expects_start rest
      · rw [bytes]

/-- What a call keeps: it takes the beginning of what was missing from the input, and hands
over what is complete with it. -/
def Call.Reads (next call : Call) (pending : List Element) (missing : Bytes) : Prop :=
  ∃ handed rest read left, pending = handed ++ rest ∧
    next.received = call.received ++ handed ∧ Expects next.stack rest left ∧
    call.input = read ++ next.input ∧ missing = read ++ left

variable {call : Call}

theorem Call.Reads.refl (expects : Expects call.stack pending missing) :
    call.Reads call pending missing :=
  ⟨[], pending, [], missing, rfl, (append_nil _).symm, expects, rfl, rfl⟩

theorem after_reads (expects : Expects call.stack pending missing)
    (portable : ∀ element ∈ pending, element.Portable) (stream : call.input ++ coming = missing)
    (bytesLeft : Nat) (arrived : Nat × Nat) :
    ∃ first rest left, turn true call.stack call.input bytesLeft arrived = some first ∧
      pending = first.done.toList ++ rest ∧ Expects (call.after first).stack rest left ∧
      call.input = first.read ++ (call.after first).input ∧ missing = first.read ++ left ∧
      (0 < bytesLeft → 0 < arrived.1 → 0 < arrived.2 → call.input ≠ [] → first.read ≠ []) := by
  obtain ⟨first, rest, left, taken, split, following, ⟨after, input⟩, bytes, moves⟩ :=
    turn_expects expects portable stream bytesLeft arrived
  refine ⟨first, rest, left, taken, split, following, ?_, bytes, moves⟩
  rw [Call.after, ← input, List.drop_left]

theorem loop_reads (pushElement : List Element → Bool) (deserializeAll : Bool) (call : Call)
    (expects : Expects call.stack pending missing)
    (portable : ∀ element ∈ pending, element.Portable) (stream : call.input ++ coming = missing)
    (bytesLeft : Int) (arrivals : List (Nat × Nat)) :
    ∃ next, loop true pushElement deserializeAll call bytesLeft arrivals = some next ∧
      next.Reads call pending missing := by
  induction arrivals generalizing call pending missing bytesLeft with
  | nil =>
    rw [loop]
    split
    · obtain ⟨first, rest, left, taken, split, following, input, bytes, -⟩ :=
        after_reads expects portable stream
          (if deserializeAll then longMax else bytesLeft).toNat (0, 0)
      dsimp only
      rw [taken]
      exact ⟨_, rfl, _, _, _, _, split, rfl, following, input, bytes⟩
    · exact ⟨call, rfl, .refl expects⟩
  | cons arrived later ih =>
    rw [loop]
    split
    · obtain ⟨first, rest, left, taken, split, following, input, bytes, -⟩ :=
        after_reads expects portable stream
          (if deserializeAll then longMax else bytesLeft).toNat arrived
      dsimp only
      rw [taken, bind_some]
      split
      · have remaining : (call.after first).input ++ coming = left := by
          rw [bytes, input, append_assoc] at stream
          exact List.append_cancel_left stream
        obtain ⟨next, reached, handed, last, read, missing, parts, received, expects, taken, ends⟩ :=
          ih _ following
            (fun element mem => portable element (split ▸ mem_append_right _ mem))
            remaining ((if deserializeAll then longMax else bytesLeft) - first.read.length)
        refine ⟨next, reached, first.done.toList ++ handed, last, first.read ++ read, missing, ?_, ?_,
          expects, ?_, ?_⟩
        · rw [split, parts, append_assoc]
        · rw [received, Call.after, append_assoc]
        · rw [input, taken, append_assoc]
        · rw [bytes, ends, append_assoc]
      · exact ⟨_, rfl, _, _, _, _, split, rfl, following, input, bytes⟩
    · exact ⟨call, rfl, .refl expects⟩

theorem deserialize_moves
    (expects : Expects call.stack pending missing)
    (portable : ∀ element ∈ pending, element.Portable) (stream : call.input ++ coming = missing)
    (limit : 0 ≤ bytesLeft) (early : 0 < arrived.1)
    (late : 0 < arrived.2) {later : List (Nat × Nat)} (some : call.input ≠ [])
    (ran : deserialize true pushElement call bytesLeft (arrived :: later) = .some next) :
    next.input.length < call.input.length := by
  have positive := bound_pos limit
  rw [deserialize, loop, if_pos (bound_goes limit)] at ran
  generalize (if decide (bytesLeft = 0) = true then longMax else bytesLeft) = bound at ran positive
  obtain ⟨first, _, left, taken, split, following, input, bytes, moves⟩ :=
    after_reads expects portable stream bound.toNat arrived
  have shorter : (call.after first).input.length < call.input.length := by
    have read := List.length_pos_iff.mpr (moves positive early late some)
    rw [input, length_append]
    omega
  dsimp only at ran
  rw [taken, bind_some] at ran
  split at ran
  · have remaining : (call.after first).input ++ coming = left := by
      rw [bytes, input, append_assoc] at stream
      exact List.append_cancel_left stream
    obtain ⟨last, reached, handed, pending, read, missing, parts, received, expects, taken, ends⟩ :=
      loop_reads pushElement (bytesLeft = 0) _ following
        (fun element mem => portable element (split ▸ mem_append_right _ mem))
        remaining (bound - first.read.length) later
    obtain rfl : last = next := Option.some.inj (reached.symm.trans ran)
    rw [taken, length_append] at shorter
    omega
  · obtain rfl : call.after first = next := Option.some.inj ran
    exact shorter

/-- What follows on a path is an end of the tree. -/
theorem Awaits.suffix {root child : Element}
    (awaits : Awaits root stack child after) : child.bytes ++ after <:+ root.bytes := by
  induction awaits with
  | root => exact ⟨[], append_nil _⟩
  | @child below kind header elements after under index child found filled size ready
      ih =>
    obtain ⟨inside, rfl⟩ := List.getElem?_eq_some_iff.mp found
    refine List.IsSuffix.trans ?_ ih
    refine ⟨header ++ bytesAll (elements.take index), ?_⟩
    rw [← append_assoc _ _ after, ← bytesAll, ← List.drop_eq_getElem_cons inside,
      ← append_assoc, append_assoc header, ← bytesAll_append, List.take_append_drop, bytes]

/-- What is missing of a tree is an end of its bytes, and not nothing. -/
theorem Reading.missing_suffix (whole : root.Portable)
    (reading : Reading root stack missing) : missing <:+ root.bytes ∧ missing ≠ [] := by
  cases reading with
  | ready awaits =>
    exact ⟨awaits.suffix, List.append_ne_nil_of_left_ne_nil
      (bytes_ne_nil (awaits.portable whole).fits.here) _⟩
  | @amid below child part after place awaits begun started inside =>
    constructor
    · refine List.IsSuffix.trans ⟨child.own.take place, ?_⟩ awaits.suffix
      rw [← append_assoc, List.take_append_drop, bytes_eq, append_assoc]
    · refine List.append_ne_nil_of_left_ne_nil (List.ne_nil_of_length_pos ?_) _
      rw [List.length_drop]
      omega

theorem Expects.offer (expects : Expects stack pending missing) (element : Element) :
    Expects stack (pending ++ [element]) (missing ++ element.bytes) := by
  cases expects with
  | idle =>
    have start := expects_start [element]
    rwa [bytesAll, bytesAll, append_nil] at start
  | @amid root _ missing reading rest =>
    have more := Expects.amid reading (rest ++ [element])
    rwa [bytesAll_append, bytesAll, bytesAll, append_nil, ← append_assoc] at more

end Deserializer

/-- A serializer and a deserializer at the ends of a stream. What was offered and what was
read from the stream is kept for reference. -/
structure Link where
  queue : List Element := []
  writer : List Frame := []
  stream : Bytes := []
  reader : List Frame := []
  received : List Element := []
  offered : List Element := []
  consumed : Bytes := []

inductive Event where
  | offer (element : Element)
  | serialize (bytes : Int) (rooms : List (Nat × Nat))
  | deserialize (bytes : Int) (arrivals : List (Nat × Nat))

/-- What is offered can be read back. -/
def Event.Portable : Event → Prop
  | offer element => element.Portable
  | _ => True

/-- The elements that are offered along the way. -/
def offeredBy (events : List Event) : List Element :=
  events.flatMap fun
    | .offer element => [element]
    | _ => []

namespace Link

variable (pushElement : List Element → Bool)

def step (link : Link) : Event → Option Link
  | .offer element =>
    some { link with queue := link.queue ++ [element], offered := link.offered ++ [element] }
  | .serialize bytes rooms =>
    let call := Serializer.serialize link.writer link.queue bytes rooms
    some { link with
      queue := call.queue, writer := call.stack, stream := link.stream ++ call.written }
  | .deserialize bytes arrivals =>
    (Deserializer.deserialize true pushElement ⟨link.reader, link.stream, link.received⟩ bytes
      arrivals).map fun call =>
        { link with
          reader := call.stack, stream := call.input, received := call.received,
          consumed := link.consumed ++ link.stream.take (link.stream.length - call.input.length) }

def unwritten (link : Link) : Bytes := Serializer.left link.writer ++ bytesAll link.queue

/-- Both sides stand in the same stream of elements. -/
structure Sound (link : Link) : Prop where
  portable : ∀ element ∈ link.offered, element.Portable
  queued : ∀ element ∈ link.queue, element.Portable
  writing : Serializer.Standing link.writer
  bytes : bytesAll link.offered = link.consumed ++ (link.stream ++ link.unwritten)
  reading : ∃ pending, link.offered = link.received ++ pending ∧
    Deserializer.Expects link.reader pending (link.stream ++ link.unwritten)

variable {element : Element}

theorem forall_mem_snoc (all : ∀ mem ∈ elements, mem.Portable)
    (last : element.Portable) : ∀ mem ∈ elements ++ [element], mem.Portable := by
  intro mem inside
  cases List.mem_append.mp inside with
  | inl earlier => exact all mem earlier
  | inr here => exact mem_singleton.mp here ▸ last

variable {link : Link}

theorem offer_sound (sound : link.Sound) (portable : element.Portable) :
    Sound { link with queue := link.queue ++ [element], offered := link.offered ++ [element] } := by
  have unwritten_eq : left link.writer ++ bytesAll (link.queue ++ [element]) =
      link.unwritten ++ element.bytes := by
    rw [unwritten, bytesAll_append, bytesAll, bytesAll, append_nil, append_assoc]
  obtain ⟨pending, parts, expects⟩ := sound.reading
  refine ⟨forall_mem_snoc sound.portable portable, forall_mem_snoc sound.queued portable,
    sound.writing, ?_, pending ++ [element], ?_, ?_⟩
  · simp [unwritten, bytesAll_append, sound.bytes, bytesAll]
  · simp [parts]
  · have more := expects.offer element
    rw [append_assoc] at more
    simpa only [unwritten, unwritten_eq] using more

theorem serialize_sound (sound : link.Sound) (bytes : Int) (rooms : List (Nat × Nat)) :
    ∃ next, step pushElement link (.serialize bytes rooms) = some next ∧ next.Sound := by
  have writes := loop_writes (bytes = 0) sound.writing sound.queued bytes rooms
  have unwritten_eq := writes.bytes
  obtain ⟨pending, parts, expects⟩ := sound.reading
  rw [← unwritten] at unwritten_eq
  refine ⟨_, rfl, sound.portable, writes.portable, writes.standing, ?_, pending, parts, ?_⟩
  · rw [sound.bytes, unwritten_eq]
    simp [unwritten, Serializer.serialize]
  · rw [unwritten_eq, ← append_assoc] at expects
    exact expects

theorem deserialize_sound (sound : link.Sound) (bytes : Int) (arrivals : List (Nat × Nat)) :
    ∃ next, step pushElement link (.deserialize bytes arrivals) = some next ∧ next.Sound := by
  obtain ⟨pending, parts, expects⟩ := sound.reading
  have portable : ∀ element ∈ pending, element.Portable := fun element mem =>
    sound.portable element (parts ▸ mem_append_right _ mem)
  obtain ⟨call, ran, _, rest, read, left, split, received, following, input, missing⟩ :=
    Deserializer.loop_reads pushElement (bytes = 0) ⟨link.reader, link.stream, link.received⟩
      expects portable rfl bytes arrivals
  dsimp only at received input
  have left_eq : call.input ++ link.unwritten = left := by
    rw [input, append_assoc] at missing
    exact List.append_cancel_left missing
  have taken : link.stream.take (link.stream.length - call.input.length) = read := by
    rw [input, length_append, Nat.add_sub_cancel, List.take_left]
  refine ⟨_, congrArg (Option.map _) ran, sound.portable, sound.queued, sound.writing, ?_, rest, ?_,
    ?_⟩
  · dsimp [unwritten]
    rw [taken, sound.bytes, missing, ← left_eq, unwritten, append_assoc]
  · dsimp only
    rw [parts, split, received, append_assoc]
  · rw [← left_eq] at following
    exact following

theorem step_sound (portable : event.Portable) (sound : link.Sound) :
    ∃ next, step pushElement link event = some next ∧ next.Sound := by
  cases event with
  | offer element => exact ⟨_, rfl, offer_sound sound portable⟩
  | serialize bytes rooms => exact serialize_sound pushElement sound bytes rooms
  | deserialize bytes arrivals => exact deserialize_sound pushElement sound bytes arrivals

theorem start_sound : Sound {} where
  portable := fun _ impossible => absurd impossible List.not_mem_nil
  queued := fun _ impossible => absurd impossible List.not_mem_nil
  writing := .nil
  bytes := rfl
  reading := ⟨[], rfl, .idle⟩

theorem run_offered (ran : Machine.run (step pushElement) link events = some final) :
    final.offered = link.offered ++ offeredBy events := by
  induction events generalizing link with
  | nil =>
    obtain rfl : link = final := some.inj ran
    exact (append_nil _).symm
  | cons event rest ih =>
    obtain ⟨_, taken, later⟩ := Machine.run_cons _ ran
    have split : offeredBy (event :: rest) = offeredBy [event] ++ offeredBy rest := by
      simp [offeredBy]
    rw [ih later, split, ← append_assoc]
    congr 1
    cases event with
    | offer element =>
      cases taken
      rfl
    | serialize bytes rooms =>
      cases taken
      exact (append_nil _).symm
    | deserialize bytes arrivals =>
      obtain ⟨_, -, rfl⟩ := map_eq_some_iff.mp taken
      exact (append_nil _).symm

/-- What went through the stream is the beginning of the offered elements' bytes, and each
element was handed over with the last of its own. -/
structure Exact (link : Link) : Prop where
  written : link.consumed ++ link.stream <+: bytesAll link.offered
  handed : ∃ pending part, link.offered = link.received ++ pending ∧
    link.consumed = bytesAll link.received ++ part ∧
    match pending with
    | [] => part = [] ∧ link.stream = []
    | next :: _ => part <+: next.bytes ∧ part ≠ next.bytes

/-- A call that the stream does not stop at once moves something, as long as there is
something to move. -/
structure Moving (link : Link) : Prop where
  writes : link.consumed ++ link.stream ≠ bytesAll link.offered → ∀ bytes, 0 ≤ bytes →
    ∀ room rooms, 0 < room.1 → 0 < room.2 →
    ∃ next, step pushElement link (.serialize bytes (room :: rooms)) = some next ∧
      next.consumed = link.consumed ∧ link.stream.length < next.stream.length
  reads : link.stream ≠ [] → ∀ bytes, 0 ≤ bytes → ∀ arrived later, 0 < arrived.1 → 0 < arrived.2 →
    ∃ next, step pushElement link (.deserialize bytes (arrived :: later)) = some next ∧
      link.consumed.length < next.consumed.length

theorem Sound.exact (sound : link.Sound) : link.Exact := by
  have bytes := sound.bytes
  obtain ⟨pending, parts, expects⟩ := sound.reading
  refine ⟨⟨link.unwritten, by rw [bytes, append_assoc]⟩, pending, ?_⟩
  rw [parts, bytesAll_append] at bytes
  generalize missing_eq : link.stream ++ link.unwritten = missing at expects bytes
  generalize link.reader = stack at expects
  cases expects with
  | idle =>
    rw [bytesAll, append_nil, append_nil] at bytes
    exact ⟨[], parts, by rw [append_nil, bytes], rfl, (List.append_eq_nil_iff.mp missing_eq).1⟩
  | @amid root _ missing reading rest =>
    have mem : root ∈ link.offered := parts ▸ mem_append_right _ (.head _)
    obtain ⟨⟨part, whole⟩, some⟩ := reading.missing_suffix (sound.portable root mem)
    rw [bytesAll, ← whole, ← append_assoc, ← append_assoc, ← append_assoc] at bytes
    have consumed := List.append_cancel_right (List.append_cancel_right bytes)
    refine ⟨part, parts, consumed.symm, ⟨missing, whole⟩, fun all => some ?_⟩
    rw [← whole] at all
    exact List.self_eq_append_right.mp all

theorem Sound.moving (sound : link.Sound) : link.Moving pushElement where
  writes unfinished bytes limit room rooms first second := by
    refine ⟨_, rfl, rfl, ?_⟩
    have left : link.unwritten ≠ [] := by
      intro nothing
      rw [sound.bytes, nothing, append_nil] at unfinished
      exact unfinished rfl
    have written := serialize_moves sound.writing sound.queued limit first second rooms left
    dsimp only
    rw [length_append]
    exact Nat.lt_add_of_pos_right (List.length_pos_iff.mpr written)
  reads some bytes limit arrived later first second := by
    obtain ⟨_, taken, -⟩ := deserialize_sound pushElement sound bytes (arrived :: later)
    obtain ⟨_, parts, expects⟩ := sound.reading
    obtain ⟨_, ran, rfl⟩ := map_eq_some_iff.mp taken
    have shorter := Deserializer.deserialize_moves expects
      (fun element mem => sound.portable element (parts ▸ mem_append_right _ mem)) rfl
      limit first second some ran
    refine ⟨_, taken, ?_⟩
    dsimp only at shorter ⊢
    rw [length_append, List.length_take]
    omega

/-- However the two sides are called and however the stream takes and delivers, the elements
arrive as they were offered, and calls that are not stopped bring them there. -/
theorem link_transfers (events : List Event)
    (portable : ∀ element ∈ offeredBy events, element.Portable) :
    ∃ final, Machine.run (step pushElement) {} events = some final ∧
      final.offered = offeredBy events ∧ final.Exact ∧ final.Moving pushElement := by
  have all : ∀ event ∈ events, event.Portable := by
    intro event mem
    cases event with
    | offer element =>
      exact portable element (List.mem_flatMap.mpr ⟨_, mem, List.mem_singleton_self element⟩)
    | _ => trivial
  obtain ⟨final, ran, sound⟩ := Machine.guarded_runs (step pushElement)
    (fun _ event => event.Portable) Sound (fun _ _ => step_sound pushElement) start_sound
    (Machine.guarded_of_forall _ all _)
  exact ⟨final, ran, run_offered pushElement ran, sound.exact, sound.moving pushElement⟩

section

/-- `[{"k": true}]`. -/
def sample : Element := array [map [string [107], ofBool true]]

theorem sample_everywhere (root : condition sample)
    (inner : condition (map [string [107], ofBool true])) (key : condition (string [107]))
    (value : condition (ofBool true)) : Everywhere condition sample := by
  refine .intro _ root fun child mem => ?_
  obtain rfl := mem_singleton.mp mem
  refine .intro _ inner fun child mem => ?_
  obtain rfl | mem := List.mem_cons.mp mem
  · exact leaf_everywhere key rfl
  · obtain rfl := mem_singleton.mp mem
    exact leaf_everywhere value rfl

theorem sample_portable : sample.Portable where
  fits := sample_everywhere (array_fits _ (by decide)) (map_fits _ (by decide))
    (string_fits _ (by decide)) (ofBool_fits true)
  pairs := sample_everywhere trivial
    (show ContainerKind.map.length _ < 2 ^ 31 by decide) trivial trivial
  height := by decide

/-- Limits and portions that stop both sides inside of the tree. -/
def sampleEvents : List Event :=
  [.offer sample, .serialize 2 [(1, 0), (1, 1)], .deserialize 0 [(1, 0), (1, 0)],
    .serialize 0 [(1, 1), (0, 0)], .deserialize 1 [(1, 1)], .deserialize 3 [(0, 1)],
    .serialize 0 [(9, 9), (9, 9)], .deserialize 0 [(9, 1), (9, 9), (9, 9)]]

theorem sample_transfers :
    ∃ final, Machine.run (step fun _ => true) {} sampleEvents = some final ∧
      final.received = [sample] ∧ final.Exact := by
  obtain ⟨final, ran, -, exact, -⟩ := link_transfers (fun _ => true) sampleEvents
    fun _ mem => mem_singleton.mp mem ▸ sample_portable
  have arrived : (Machine.run (step fun _ => true) {} sampleEvents).map received = some [sample] :=
    rfl
  rw [ran] at arrived
  exact ⟨final, ran, some.inj arrived, exact⟩

/-- A map of 2^31 pairs of nil. -/
def largeMap : Element := map (List.replicate (2 ^ 32) (primitive Tag.nil))

theorem largeMap_eq : largeMap = container .map [0xDF, 0x80, 0, 0, 0]
    (primitive Tag.nil :: List.replicate (2 ^ 32 - 1) (primitive Tag.nil)) := by
  have pairs : 2 ^ 32 / 2 % 2 ^ 32 = 2 ^ 31 := by decide
  have all : min (2 ^ 32 / 2 * 2) (2 ^ 32) = 2 ^ 32 - 1 + 1 := by decide
  have header : Tag.map32 :: storeUint32 (2 ^ 31) = [0xDF, 0x80, 0, 0, 0] := by decide
  simp only [largeMap, map, List.length_replicate, List.take_replicate, pairs, all]
  rw [if_neg (by decide), if_neg (by decide), header, List.replicate_succ]

theorem map_children (mem : child ∈ (map elements).children) : child ∈ elements :=
  List.mem_of_mem_take mem

/-- Reading a map of 2^31 pairs writes outside of its vector: in 32 bits twice its length is
0. An element that is handed over in a `unique_ptr` of its own is empty after the first
call, and then no call writes the rest of it. That call is limited to one byte and writes
two. -/
theorem largeMap_overruns :
    (Everywhere Fits largeMap ∧ ContainerKind.map.length largeMap.own = 2 ^ 31 ∧
      Machine.run (step fun _ => true) {}
        [.offer largeMap, .serialize 6 [(5, 5), (1, 1)],
          .deserialize 0 [(1, 1), (4, 4), (1, 1)]] = none) ∧
    ∃ stack, Serializer.serializeElement [] (string [97, 98]) 1 [(1, 1)] = (stack, null, [0xA2, 97]) ∧
      Serializer.left stack = [98] ∧ ∀ bytesLeft rooms,
        Serializer.serializeElement stack null bytesLeft rooms = (stack, null, []) := by
  refine ⟨⟨?_, ?_, ?_⟩, ?_⟩
  · refine .intro _ (map_fits _ ?_) fun child mem => ?_
    · rw [List.length_replicate]
      decide
    · have nil := List.eq_of_mem_replicate (map_children mem)
      exact nil ▸ leaf_everywhere (.primitive _ rfl) rfl
  · rw [largeMap_eq]
    rfl
  · rw [largeMap_eq]
    rfl
  · exact ⟨[⟨string [97, 98], 1⟩], rfl, rfl, fun _ _ => rfl⟩

end

end Link

end CodeReading.NetLink
