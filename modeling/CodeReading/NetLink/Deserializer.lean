import CodeReading.NetLink.Serializer

/-!
# The deserializer

`Deserializer::deserialize` builds elements from the bytes of a stream. On its stack is the
path from the root to the element that is being read; for a container the position is the
index of its child on the path. The pointers of the stack lead into the tree of the root.
Here a stack element holds its element, and what changes in it is written back to the
slot of its parent when it leaves the stack. A root that is done is handed over.

A vector that is too small for its container has no slot for a child. Writing outside of
it is undefined, and so is looking for a slot in an element that is no container; then
there is no result.
-/

namespace CodeReading.NetLink

namespace Deserializer

open Element

/-- The parent with the child in its slot. -/
def put (parent : Frame) (child : Element) : Frame :=
  match parent.element with
  | container kind header elements =>
    ⟨container kind header (elements.set parent.pos.toNat child), parent.pos⟩
  | _ => parent

/-- The parent has a slot for the child at its position. -/
def hasSlot (parent : Frame) : Bool :=
  match parent.element.getElementsVector with
  | some elements => 0 ≤ parent.pos ∧ parent.pos < elements.length
  | none => false

/-- Whether a container has another child after the current one. -/
def hasNext (frame : Frame) : Bool :=
  match frame.element.getElementsVector with
  | some elements => frame.pos + 1 < elements.length
  | none => false

/-- Pop all done containers from the stack: the root, if none is left, and the stack. The
first so many are above the index at which the code begins. -/
def popDone : Nat → Frame → List Frame → Option Element × List Frame
  | _, frame, [] =>
    if hasNext frame then (none, [⟨frame.element, frame.pos + 1⟩]) else (some frame.element, [])
  | 0, frame, parent :: below =>
    if hasNext frame then (none, ⟨frame.element, frame.pos + 1⟩ :: parent :: below)
    else popDone 0 (put parent frame.element) below
  | above + 1, frame, parent :: below => popDone above (put parent frame.element) below

/-- What a turn of the loop does: the stack, the bytes read, a root that is done, and whether
the loop goes on if the root is not wanted. -/
structure Turn where
  stack : List Frame
  read : Bytes
  done : Option Element
  again : Bool

/-- The end of an element that is on the stack, or whose parent is on top of it. -/
def elementDone (top : Frame) (below : List Frame) (read : Bytes) : Turn :=
  let (done, stack) := popDone (below.length - below.length % 2 ^ 32) top below
  ⟨stack, read, done, true⟩

/-- A turn that begins with the first byte of an element. -/
def nextElement (hierarchy : Bool) (stack : List Frame) (input : Bytes) (arrived : Nat) :
    Option Turn :=
  match input.take arrived with
  | [] => some ⟨stack, [], none, false⟩
  | nextByte :: _ =>
    let (element, pos) := (select hierarchy nextByte).startDeserialize nextByte
    let pending := if pos < element.getEndPos then some element else element.containerDeserialized
    match stack with
    | [] =>
      match pending with
      | some element => some ⟨[⟨element, pos⟩], [nextByte], none, true⟩
      | none => some ⟨[], [nextByte], some element, true⟩
    | top :: below =>
      if hasSlot top then
        match pending with
        | some element => some ⟨⟨element, pos⟩ :: put top element :: below, [nextByte], none, true⟩
        | none => some (elementDone (put top element) below [nextByte])
      else none

def turn (hierarchy : Bool) (stack : List Frame) (input : Bytes) (bytesLeft : Nat)
    (arrived : Nat × Nat) : Option Turn :=
  match stack with
  | top :: below =>
    if top.pos < top.element.getEndPos then
      let (element, pos, read) := top.element.deserialize top.pos input bytesLeft arrived
      if read = [] then some ⟨⟨element, pos⟩ :: below, [], none, false⟩
      else if pos < element.getEndPos then some ⟨⟨element, pos⟩ :: below, read, none, true⟩
      else
        match element.containerDeserialized with
        | some element => some ⟨⟨element, pos⟩ :: below, read, none, true⟩
        | none => some (elementDone ⟨element, pos⟩ below read)
    else nextElement hierarchy stack input arrived.1
  | [] => nextElement hierarchy [] input arrived.1

/-- What a call does: the stack, the input that is left, and what was handed over. -/
structure Call where
  stack : List Frame
  input : Bytes
  received : List Element

def Call.after (call : Call) (turn : Turn) : Call :=
  ⟨turn.stack, call.input.drop turn.read.length, call.received ++ turn.done.toList⟩

/-- The loop. In each of its turns so many bytes of the input have arrived, and then none.
The callback is asked with all that was handed over whether it has enough. -/
def loop (hierarchy : Bool) (pushElement : List Element → Bool) (deserializeAll : Bool)
    (call : Call) (bytesLeft : Int) : List (Nat × Nat) → Option Call
  | [] =>
    if 0 < bytesLeft ∨ deserializeAll then
      let bytesLeft := if deserializeAll then longMax else bytesLeft
      (turn hierarchy call.stack call.input bytesLeft.toNat (0, 0)).map call.after
    else some call
  | arrived :: later =>
    if 0 < bytesLeft ∨ deserializeAll then
      let bytesLeft := if deserializeAll then longMax else bytesLeft
      (turn hierarchy call.stack call.input bytesLeft.toNat arrived).bind fun first =>
        let call := call.after first
        if first.again ∧ ¬(first.done.isSome ∧ pushElement call.received) then
          loop hierarchy pushElement deserializeAll call (bytesLeft - first.read.length) later
        else some call
    else some call

def deserialize (hierarchy : Bool) (pushElement : List Element → Bool) (call : Call)
    (bytesLeft : Int) (arrivals : List (Nat × Nat)) : Option Call :=
  loop hierarchy pushElement (bytesLeft = 0) call bytesLeft arrivals

end Deserializer

end CodeReading.NetLink
