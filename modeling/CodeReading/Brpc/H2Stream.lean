import CodeReading.Brpc.Hpacker
import CodeReading.Brpc.HttpHeader

/-!
# The header block of a stream

A header block comes in one HEADERS frame and any number of CONTINUATION frames.
`H2StreamContext` decodes every fragment when it arrives. What the decoder leaves of a
fragment is kept and decoded again together with the next one.

A literal that is cut off is refused by the decoder, and an integer that is cut off is
consumed by it, so nothing of a header is ever left to be kept. A block is received as it
would be in one frame when it is cut between representations.
-/

namespace CodeReading.Brpc

/-- How a frame is not received: a `CHECK` of the decoder fails, or the answer is
`H2_PROTOCOL_ERROR`. -/
inductive Fault where
  | check
  | protocolError
deriving DecidableEq, Repr

structure H2StreamContext where
  header : HttpHeader := {}
  streamEnded : Bool := false
  parsedLength : Nat := 0
  remainingHeaderFragment : Bytes := []

def frameHeadSize : Nat := 9

/-- The loop of `ConsumeHeaders`. The result has what is left of the bytes. -/
def consumeTurns : Nat → HPacker → HttpHeader → Bytes →
    Except Fault (HPacker × HttpHeader × Bytes)
  | 0, packer, header, source => .ok (packer, header, source)
  | turns + 1, packer, header, source =>
      if source.isEmpty then .ok (packer, header, source)
      else
        match packer.decode source with
        | none => .error .check
        | some (_, .malformed) => .error .protocolError
        | some (packer, .incomplete rest) => .ok (packer, header, rest)
        | some (packer, .parsed _ pair rest) =>
            match header.set pair with
            | none => .error .protocolError
            | some header => consumeTurns turns packer header rest

/-- `ConsumeHeaders`. Every turn takes some bytes. -/
def consumeHeaders (packer : HPacker) (header : HttpHeader) (source : Bytes) :
    Except Fault (HPacker × HttpHeader × Bytes) :=
  consumeTurns (source.length + 1) packer header source

namespace H2StreamContext

/-- The stream and the coder of its connection after a frame, and whether `OnEndStream` was
called for it. -/
abbrev Received := Except Fault (HPacker × H2StreamContext × Bool)

/-- `OnHeaders`, for a fragment in a payload of a given size. -/
def onHeaders (packer : HPacker) (stream : H2StreamContext) (payloadSize : Nat)
    (fragment : Bytes) (endHeaders endStream : Bool) : Received :=
  match consumeHeaders packer stream.header fragment with
  | .error fault => .error fault
  | .ok (packer, header, left) =>
      let stream := { stream with
        header := header
        parsedLength := stream.parsedLength + frameHeadSize + payloadSize
        remainingHeaderFragment := stream.remainingHeaderFragment ++ left }
      if endHeaders then
        if left.length ≠ 0 then .error .protocolError else .ok (packer, stream, endStream)
      else .ok (packer, { stream with streamEnded := stream.streamEnded || endStream }, false)

def onContinuation (packer : HPacker) (stream : H2StreamContext) (payload : Bytes)
    (endHeaders : Bool) : Received :=
  let fragment := stream.remainingHeaderFragment ++ payload
  match consumeHeaders packer stream.header fragment with
  | .error fault => .error fault
  | .ok (packer, header, left) =>
      let stream := { stream with
        header := header
        parsedLength := stream.parsedLength + frameHeadSize + payload.length
        remainingHeaderFragment := fragment.drop (fragment.length - left.length) }
      if endHeaders then
        if left.length ≠ 0 then .error .protocolError
        else .ok (packer, stream, stream.streamEnded)
      else .ok (packer, stream, false)

/-- CONTINUATION frames, of which the last ends the headers. -/
def continueBlock (packer : HPacker) (stream : H2StreamContext) : Bytes → List Bytes → Received
  | payload, [] => onContinuation packer stream payload true
  | payload, next :: rest =>
      (onContinuation packer stream payload false).bind fun received =>
        continueBlock received.1 received.2.1 next rest

/-- A block in a HEADERS frame and CONTINUATION frames. -/
def receiveBlock (packer : HPacker) (stream : H2StreamContext) (endStream : Bool)
    (fragment : Bytes) : List Bytes → Received
  | [] => onHeaders packer stream fragment.length fragment true endStream
  | next :: rest =>
      (onHeaders packer stream fragment.length fragment false endStream).bind fun received =>
        continueBlock received.1 received.2.1 next rest

end H2StreamContext

end CodeReading.Brpc
