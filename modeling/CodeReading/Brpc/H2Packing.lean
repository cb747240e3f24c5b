import CodeReading.Brpc.H2Context

/-!
# Packing a message

`PackH2Message` writes a message as frames of its stream: the block of headers in a HEADERS
frame and CONTINUATION frames, the body in DATA frames, and the trailers in one HEADERS frame,
whatever their size is. A deferred WINDOW_UPDATE of the connection goes with them.
-/

namespace CodeReading.Brpc

open List

/-- A frame to be written. -/
structure H2Frame where
  type : Nat
  flags : Nat
  payload : Bytes

open H2Frame

namespace H2Frame

def bytes (streamId : Nat) (frame : H2Frame) : Bytes :=
  serializeFrameHead frame.payload.length frame.type frame.flags streamId ++ frame.payload

def endStream (frame : H2Frame) : Bool := frame.flags % 2 == 1

def endHeaders (frame : H2Frame) : Bool := frame.flags / 4 % 2 == 1

end H2Frame

section

variable (maxFrameSize : Nat)

end

/-- What is written for a message, as frames that the peer takes: a block of headers, a body and
trailers. One frame ends the stream, the last HEADERS or DATA frame. -/
structure Packed (maxFrameSize streamId : Nat) (headers trailers data written : Bytes)
    (opening body closing : List H2Frame) : Prop where
  frames : written = (opening ++ (body ++ closing)).flatMap (H2Frame.bytes streamId)
  short : ∀ frame ∈ opening ++ (body ++ closing),
    frame.payload.length ≤ maxFrameSize ∧ frame.payload.length < 2 ^ 24
  types : (∃ first rest, opening = first :: rest ∧ first.type = 1 ∧
      ∀ frame ∈ rest, frame.type = 9) ∧
    (∀ frame ∈ body, frame.type = 0) ∧ ∀ frame ∈ closing, frame.type = 1
  payloads : opening.flatMap H2Frame.payload = headers ∧ body.flatMap H2Frame.payload = data ∧
    closing.flatMap H2Frame.payload = trailers
  endHeaders : opening.filter H2Frame.endHeaders = opening.getLast?.toList
  endStream : ∃ final, (opening ++ (body ++ closing)).filter H2Frame.endStream = [final] ∧
    ((opening ++ (body ++ closing)).filter (·.type ≤ 1)).getLast? = some final

/-- A buffer in frames. A flag stands on the last one or on none. -/
structure Cut (maxFrameSize type flags : Nat) (buffer : Bytes) (frames : List H2Frame) : Prop where
  whole : frames.flatMap H2Frame.payload = buffer
  short : ∀ frame ∈ frames, frame.type = type ∧ frame.payload.length ≤ maxFrameSize
  flagged : ∀ flag : Nat → Bool, flag 0 = false → frames.filter (fun frame => flag frame.flags) =
    if flag flags then frames.getLast?.toList else []

variable {type flags : Nat} {buffer : Bytes}

end CodeReading.Brpc
