import CodeReading.NetLink.Tree

/-!
# The serializer

`Serializer::serialize` writes the elements that it pulls, one turn of its loop after the
other. What it was in the middle of is on a stack, the root at the bottom: for a container
that is suspended the position is the index of the child that is being written. The
elements do not change, so a stack element holds the element that its pointer leads to,
and `rootElement`, which only keeps the tree alive, is left out. Elements are pulled from a
queue. Byte counts are not bounded.

Whatever the limits and the room in the stream, a call writes the beginning of the bytes
that were left, and leaves the others.
-/

namespace CodeReading.NetLink

/-- `StackElement`: an element and the position in it. -/
structure Frame where
  element : Element
  pos : Int

/-- The child after the current one. -/
def Frame.nextChild (frame : Frame) : Option Element :=
  frame.element.getElementsVector.bind fun container => container[(frame.pos + 1).toNat]?

def longMax : Int := 2 ^ 63 - 1

namespace Serializer

open Element List

/-- A stack element for an element that is to be written. -/
def begin (element : Element) : Frame := ⟨element, element.startSerialize⟩

/-- Going down from the top of the stack, the first container with another child continues
with that; if there is none, the stack is empty. -/
def advance : List Frame → List Frame
  | [] => []
  | frame :: below =>
    match frame.nextChild with
    | some child => begin child :: ⟨frame.element, frame.pos + 1⟩ :: below
    | none => advance below

/-- The stack up to the index of its top, as 32 bits hold it. -/
def indexed (stack : List Frame) : List Frame :=
  stack.drop (stack.length - 1 - (stack.length - 1) % 2 ^ 32)

/-- What a turn of the loop does: the stack, the queue, the bytes written, and whether the
loop goes on. -/
structure Turn where
  stack : List Frame
  queue : List Element
  written : Bytes
  again : Bool

/-- Finish an element: begin with the first child, or move on. -/
def finish (top : Frame) (below : List Frame) : List Frame :=
  match top.element.getElementsVector with
  | some (child :: _) => begin child :: top :: below
  | _ => advance (indexed (top :: below))

/-- A turn, when the top of the stack is an element. -/
def work (top : Frame) (below : List Frame) (queue : List Element) (bytesLeft : Nat)
    (room : Nat × Nat) : Turn :=
  let (written, pos) := top.element.serialize top.pos bytesLeft room
  let top := ⟨top.element, pos⟩
  if written = [] then ⟨top :: below, queue, [], false⟩
  else if pos < top.element.getEndPos then ⟨top :: below, queue, written, true⟩
  else ⟨finish top below, queue, written, true⟩

def turn (stack : List Frame) (queue : List Element) (bytesLeft : Nat) (room : Nat × Nat) : Turn :=
  match stack, queue with
  | top :: below, queue => work top below queue bytesLeft room
  | [], [] => ⟨[], [], [], false⟩
  | [], .null :: queue => ⟨[], queue, [], false⟩
  | [], root :: queue => work (begin root) [] queue bytesLeft room

/-- The loop. The stream has room for so much in each of its turns, and then none. -/
def loop (deserializeAll : Bool) (stack : List Frame) (queue : List Element) (bytesLeft : Int) :
    List (Nat × Nat) → Turn
  | [] =>
    if 0 < bytesLeft ∨ deserializeAll then
      turn stack queue (if deserializeAll then longMax else bytesLeft).toNat (0, 0)
    else ⟨stack, queue, [], false⟩
  | room :: rooms =>
    if 0 < bytesLeft ∨ deserializeAll then
      let bytesLeft := if deserializeAll then longMax else bytesLeft
      let first := turn stack queue bytesLeft.toNat room
      if first.again then
        let rest := loop deserializeAll first.stack first.queue (bytesLeft - first.written.length)
          rooms
        { rest with written := first.written ++ rest.written }
      else first
    else ⟨stack, queue, [], false⟩

def serialize (stack : List Frame) (queue : List Element) (bytesLeft : Int)
    (rooms : List (Nat × Nat)) : Turn :=
  loop (bytesLeft = 0) stack queue bytesLeft rooms

/-- `serialize(element, bytesLeft)`: an element is pulled once, and is then `null`. -/
def serializeElement (stack : List Frame) (element : Element) (bytesLeft : Int)
    (rooms : List (Nat × Nat)) : List Frame × Element × Bytes :=
  match element with
  | .null => (stack, .null, [])
  | element =>
    let call := serialize stack [element] bytesLeft rooms
    (call.stack, call.queue.headD .null, call.written)

/-! ## What is left to write -/

/-- The bytes of the children after the current one. -/
def later (frame : Frame) : Bytes := bytesAll (frame.element.children.drop (frame.pos + 1).toNat)

/-- The bytes that a stack stands for. -/
def left : List Frame → Bytes
  | [] => []
  | top :: below =>
    top.element.own.drop (top.pos - top.element.startSerialize).toNat ++
      bytesAll top.element.children ++ below.flatMap later

/-- The elements of a suspended stack can be indexed and continued. -/
inductive Suspended : List Frame → Prop
  | nil : Suspended []
  | cons {frame : Frame} {below : List Frame} (under : Suspended below) (started : 0 ≤ frame.pos)
      (portable : frame.element.Portable) (low : frame.element.height + below.length ≤ 2 ^ 32) :
      Suspended (frame :: below)

/-- The top of the stack is in the middle of its own bytes. -/
inductive Standing : List Frame → Prop
  | nil : Standing []
  | cons {element : Element} {place : Nat} {below : List Frame} (under : Suspended below)
      (portable : element.Portable) (low : element.height + below.length ≤ 2 ^ 32)
      (inside : place < element.own.length) :
      Standing (⟨element, element.startSerialize + place⟩ :: below)

theorem begin_standing (under : Suspended below) (portable : element.Portable)
    (low : element.height + below.length ≤ 2 ^ 32) : Standing (begin element :: below) := by
  have standing := Standing.cons under portable low portable.fits.here.own_pos
  rwa [Int.natCast_zero, Int.add_zero] at standing

theorem left_begin (element : Element) (below : List Frame) :
    left (begin element :: below) = element.bytes ++ below.flatMap later := by
  rw [left, begin, Int.sub_self, Int.toNat_zero, drop_zero, bytes_eq]

theorem left_cons (element : Element) (place : Nat) (below : List Frame) :
    left (⟨element, element.startSerialize + place⟩ :: below) =
      element.own.drop place ++ bytesAll element.children ++ below.flatMap later := by
  have index : (element.startSerialize + place - element.startSerialize).toNat = place := by omega
  simp only [left, index]

theorem nextChild_eq (frame : Frame) :
    frame.nextChild = frame.element.children[(frame.pos + 1).toNat]? := by
  rw [Frame.nextChild, children]
  cases frame.element.getElementsVector <;> rfl

variable {stack : List Frame}

/-- Leaving the children that are done, a suspended stack goes on with the bytes of the
others. -/
theorem advance_suspended (suspended : Suspended stack) :
    Standing (advance stack) ∧ left (advance stack) = stack.flatMap later := by
  induction suspended with
  | nil => exact ⟨.nil, rfl⟩
  | @cons frame below under started portable low ih =>
    rw [advance, flatMap_cons]
    cases found : frame.nextChild with
    | none =>
      rw [nextChild_eq, getElem?_eq_none_iff] at found
      rw [later, drop_eq_nil_of_le found, bytesAll, nil_append]
      exact ih
    | some child =>
      rw [nextChild_eq, getElem?_eq_some_iff] at found
      obtain ⟨inside, rfl⟩ := found
      have mem := getElem_mem inside
      have smaller := child_height mem
      dsimp only
      constructor
      · refine begin_standing (.cons under (by dsimp only; omega) portable low)
          (portable.child mem) ?_
        rw [length_cons]
        omega
      · have following : (frame.pos + 1 + 1).toNat = (frame.pos + 1).toNat + 1 := by omega
        rw [left_begin, flatMap_cons, later, later, following,
          drop_eq_getElem_cons inside, bytesAll, append_assoc]

theorem indexed_of_low (low : stack.length ≤ 2 ^ 32) : indexed stack = stack := by
  have same : (stack.length - 1) % 2 ^ 32 = stack.length - 1 := by omega
  rw [indexed, same, Nat.sub_self, drop_zero]

/-- An element that is written itself goes on with its children, and then with what is
suspended. -/
theorem finish_suspended (suspended : Suspended (⟨element, element.getEndPos⟩ :: below)) :
    Standing (finish ⟨element, element.getEndPos⟩ below) ∧
      left (finish ⟨element, element.getEndPos⟩ below) =
        bytesAll element.children ++ below.flatMap later := by
  have whole := suspended
  cases suspended with
  | cons under started portable low =>
    have positive := height_pos element
    dsimp only at started portable low
    unfold finish
    split
    · next child rest vector =>
      cases element with
      | container kind header elements =>
        obtain rfl : elements = child :: rest := Option.some.inj vector
        have mem : child ∈ (container kind header (child :: rest)).children := (.head _)
        have smaller := child_height mem
        constructor
        · refine begin_standing whole (portable.child mem) ?_
          rw [length_cons]
          omega
        · exact (left_begin _ _).trans (append_assoc _ _ _).symm
      | _ => nomatch vector
    · next childless =>
      have none : element.children = [] := by
        rw [children]
        cases vector : element.getElementsVector with
        | none => rfl
        | some elements =>
          cases elements with
          | nil => rfl
          | cons child rest => exact absurd vector (childless child rest)
      rw [indexed_of_low (by rw [length_cons]; omega)]
      obtain ⟨standing, bytes⟩ := advance_suspended whole
      refine ⟨standing, bytes.trans ?_⟩
      rw [flatMap_cons, later, none, drop_nil]

/-- What a turn keeps: it writes the beginning of what was left. -/
structure Turn.Writes (turn : Turn) (before : Bytes) : Prop where
  standing : Standing turn.stack
  portable : ∀ element ∈ turn.queue, element.Portable
  bytes : before = turn.written ++ (left turn.stack ++ bytesAll turn.queue)

theorem work_writes (standing : Standing (top :: below))
    (portable : ∀ element ∈ queue, element.Portable) (bytesLeft : Nat) (room : Nat × Nat) :
    (work top below queue bytesLeft room).Writes (left (top :: below) ++ bytesAll queue) ∧
      (0 < bytesLeft → 0 < room.1 → 0 < room.2 →
        (work top below queue bytesLeft room).written ≠ []) := by
  cases standing with
  | @cons element place _ under own low inside =>
    have fits := own.fits.here
    obtain ⟨count, within, written, _⟩ := fits.serialize_own inside bytesLeft room
    have size : ((element.own.drop place).take count).length = count := by
      rw [length_take, length_drop]
      omega
    have cut (more : Bytes) : element.own.drop place ++ more =
        (element.own.drop place).take count ++ (element.own.drop (place + count) ++ more) := by
      rw [← drop_drop, ← append_assoc, take_append_drop]
    have ended : element.startSerialize + (place + count : Nat) < element.getEndPos ↔
        place + count < element.own.length := by
      rw [fits.own_length, startSerialize]
      omega
    rw [left_cons, work]
    simp only [written]
    split
    · next nothing =>
      rw [nothing, length_nil] at size
      subst size
      refine ⟨⟨.cons under own low inside, portable, ?_⟩, by omega⟩
      rw [Nat.add_zero, left_cons, nil_append]
    · next something =>
      split
      · next continues =>
        refine ⟨⟨.cons under own low (ended.mp continues), portable, ?_⟩, fun _ _ _ => something⟩
        simp only [left_cons, append_assoc, cut]
      · next done =>
        have last : place + count = element.own.length := Nat.le_antisymm within (by omega)
        have end_eq : element.startSerialize + (place + count : Nat) = element.getEndPos := by
          rw [last, fits.own_length, startSerialize]
          omega
        rw [end_eq]
        obtain ⟨standing, bytes⟩ :=
          finish_suspended (.cons under (Int.natCast_nonneg element.getEndPos) own low)
        refine ⟨⟨standing, portable, ?_⟩, fun _ _ _ => something⟩
        simp [bytes, cut, last]

theorem turn_writes (standing : Standing stack) (portable : ∀ element ∈ queue, element.Portable)
    (bytesLeft : Nat) (room : Nat × Nat) :
    (turn stack queue bytesLeft room).Writes (left stack ++ bytesAll queue) ∧
      (0 < bytesLeft → 0 < room.1 → 0 < room.2 → left stack ++ bytesAll queue ≠ [] →
        (turn stack queue bytesLeft room).written ≠ []) := by
  cases stack with
  | cons top below =>
    obtain ⟨writes, moves⟩ := work_writes standing portable bytesLeft room
    exact ⟨writes, fun some first second _ => moves some first second⟩
  | nil =>
    cases queue with
    | nil => exact ⟨⟨.nil, portable, rfl⟩, fun _ _ _ nothing => absurd rfl nothing⟩
    | cons root queue =>
      have rootPortable := portable root (.head _)
      have begun : Standing [begin root] := begin_standing .nil rootPortable rootPortable.height
      obtain ⟨writes, moves⟩ := work_writes begun
        (fun element mem => portable element (.tail _ mem)) bytesLeft room
      rw [left_begin, flatMap_nil, append_nil] at writes
      cases root with
      | null => nomatch rootPortable.fits.here
      | _ => exact ⟨writes, fun some first second _ => moves some first second⟩

theorem loop_writes (deserializeAll : Bool) (standing : Standing stack)
    (portable : ∀ element ∈ queue, element.Portable) (bytesLeft : Int) (rooms : List (Nat × Nat)) :
    (loop deserializeAll stack queue bytesLeft rooms).Writes (left stack ++ bytesAll queue) := by
  induction rooms generalizing stack queue bytesLeft with
  | nil =>
    rw [loop]
    split
    · exact (turn_writes standing portable _ _).1
    · exact ⟨standing, portable, rfl⟩
  | cons room rooms ih =>
    rw [loop]
    split
    · generalize (if deserializeAll then longMax else bytesLeft) = limit
      have first := (turn_writes standing portable limit.toNat room).1
      dsimp only
      split
      · have rest := ih first.standing first.portable
          (limit - (turn stack queue limit.toNat room).written.length)
        refine { rest with bytes := ?_ }
        rw [first.bytes, rest.bytes, append_assoc]
      · exact first
    · exact ⟨standing, portable, rfl⟩

variable {bytesLeft : Int}

theorem bound_goes (limit : 0 ≤ bytesLeft) : 0 < bytesLeft ∨ decide (bytesLeft = 0) = true := by
  rw [decide_eq_true_eq]
  omega

theorem bound_pos (limit : 0 ≤ bytesLeft) :
    0 < (if decide (bytesLeft = 0) = true then longMax else bytesLeft).toNat := by
  split
  · exact (by decide : 0 < longMax.toNat)
  · next limited =>
    rw [decide_eq_true_eq] at limited
    omega

/-- A call with room for its first turn writes something, as long as something is left. -/
theorem serialize_moves (standing : Standing stack) (portable : ∀ element ∈ queue, element.Portable)
    (limit : 0 ≤ bytesLeft) (first : 0 < room.1) (second : 0 < room.2)
    (rooms : List (Nat × Nat)) (some : left stack ++ bytesAll queue ≠ []) :
    (serialize stack queue bytesLeft (room :: rooms)).written ≠ [] := by
  have positive := bound_pos limit
  rw [serialize, loop, if_pos (bound_goes limit)]
  generalize (if decide (bytesLeft = 0) = true then longMax else bytesLeft) = bound at positive ⊢
  have moves := (turn_writes standing portable bound.toNat room).2 positive first second some
  dsimp only
  split
  · exact append_ne_nil_of_left_ne_nil moves _
  · exact moves

theorem sizeFrom_le (index len : Nat)
    (each : ∀ child ∈ elements, child.getSizeInBytes ≤ child.bytes.length) :
    sizeFrom index len elements ≤ (bytesAll (elements.drop index)).length := by
  induction elements generalizing index len with
  | nil => cases index <;> cases len <;> exact Nat.zero_le _
  | cons child rest ih =>
    obtain ⟨here, later⟩ := forall_mem_cons.mp each
    cases len with
    | zero => cases index <;> exact Nat.zero_le _
    | succ len =>
      cases index with
      | zero =>
        rw [sizeFrom, drop_zero, bytesAll, length_append]
        exact Nat.add_le_add here (ih 0 len later)
      | succ index => exact ih index len later

/-- The sum for a container leaves its first element out, and nothing is counted twice. -/
theorem getSizeInBytes_le (fits : Everywhere Fits element) :
    element.getSizeInBytes ≤ element.own.length + (bytesAll element.children.tail).length := by
  induction fits with
  | intro element here under ih =>
    rw [here.own_length]
    cases element with
    | container kind header elements =>
      refine (Nat.mod_le _ _).trans (Nat.add_le_add_left ?_ _)
      rw [← drop_one]
      refine sizeFrom_le 1 _ fun child mem => (ih child mem).trans ?_
      rw [bytes_eq, length_append]
      cases child.children with
      | nil => exact le_rfl
      | cons first rest => simp [bytesAll]
    | _ => exact (Nat.mod_le _ _).trans (Nat.le_add_right _ _)

/-- The size of an element is the number of the bytes that are written for it if and only if it has
no children and 32 bits hold that number. -/
theorem getSizeInBytes_written {element : Element} (portable : element.Portable) (bytesLeft : Int)
    (rooms : List (Nat × Nat)) :
    let call := serialize [] [element] bytesLeft rooms
    call.stack = [] → call.queue = [] →
      (element.getSizeInBytes = call.written.length ↔
        element.children = [] ∧ element.bytes.length < 2 ^ 32) := by
  intro call stackDone queueDone
  have fits := portable.fits.here
  have writes : element.bytes ++ [] = call.written ++ (left call.stack ++ bytesAll call.queue) :=
    (loop_writes (bytesLeft = 0) .nil (forall_mem_singleton.mpr portable) bytesLeft rooms).bytes
  rw [stackDone, queueDone, append_nil, left, bytesAll, append_nil, append_nil] at writes
  rw [← writes]
  constructor
  · intro counts
    have low : element.getSizeInBytes < 2 ^ 32 := by
      cases element <;> exact Nat.mod_lt _ (by decide)
    refine ⟨?_, counts ▸ low⟩
    have most := getSizeInBytes_le portable.fits
    rw [counts, bytes_eq, length_append] at most
    cases isChildren : element.children with
    | nil => rfl
    | cons first rest =>
      have isFirst : first ∈ element.children := isChildren ▸ .head _
      have starts := length_pos_of_ne_nil (bytes_ne_nil (portable.fits.child isFirst).here)
      rw [isChildren, bytesAll, length_append, tail_cons] at most
      omega
  · rintro ⟨childless, small⟩
    rw [bytes_eq, childless, bytesAll, append_nil, fits.own_length] at small ⊢
    cases fits with
    | container kind header elements =>
      obtain rfl : elements = [] := childless
      exact Nat.mod_eq_of_lt small
    | _ => exact Nat.mod_eq_of_lt small

theorem getSizeInBytes_string : (string [97, 98]).getSizeInBytes =
    (serialize [] [string [97, 98]] 0 [(1, 1), (0, 1)]).written.length :=
  (getSizeInBytes_written ⟨leaf_everywhere (string_fits [97, 98] (by decide)) rfl,
    leaf_everywhere trivial rfl, by decide⟩ 0 [(1, 1), (0, 1)] rfl rfl).mpr ⟨rfl, by decide⟩

/-- The first element of a container is left out. -/
theorem getSizeInBytes_omits :
    let call := serialize [] [array [ofBool true]] 0 [(1, 1), (1, 1)]
    call.stack = [] ∧ call.queue = [] ∧ call.written.length = 2 ∧
      (array [ofBool true]).getSizeInBytes = 1 :=
  ⟨rfl, rfl, rfl, rfl⟩

end Serializer

end CodeReading.NetLink
