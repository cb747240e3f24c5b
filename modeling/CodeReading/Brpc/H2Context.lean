import CodeReading.Brpc.H2Stream

/-!
# The streams of a connection

A connection keeps its pending streams, the settings of both sides and the windows. A GOAWAY of
the peer ends the streams above the one it names. The bytes that an iterator has left are a list
here. Reading a byte where none is left is undefined and has no result.

Whether a write to the socket succeeds is decided outside.
-/

namespace CodeReading.Brpc

def loadUint8 : Bytes → Option (Nat × Bytes)
  | [] => none
  | byte :: rest => some (byte.toNat, rest)

def loadUint16 (it : Bytes) : Option (Nat × Bytes) :=
  (loadUint8 it).bind fun (high, it) => (loadUint8 it).map fun (low, it) => (high * 256 + low, it)

def loadUint32 (it : Bytes) : Option (Nat × Bytes) :=
  (loadUint16 it).bind fun (high, it) =>
    (loadUint16 it).map fun (low, it) => (high * 65536 + low, it)

def saveUint16 (value : Nat) : Bytes := [(value / 256).toUInt8, value.toUInt8]

def saveUint32 (value : Nat) : Bytes := saveUint16 (value / 65536) ++ saveUint16 value

def toUint32 (value : Int) : Nat := (value % 2 ^ 32).toNat

structure H2Settings where
  headerTableSize : Nat := defaultHeaderTableSize
  enablePush : Bool := false
  maxConcurrentStreams : Nat := 2 ^ 32 - 1
  streamWindowSize : Nat := 256 * 1024
  connectionWindowSize : Nat := 1024 * 1024
  maxFrameSize : Nat := 16384
  maxHeaderListSize : Nat := 2 ^ 32 - 1
deriving DecidableEq, Repr

namespace H2Settings

def maxWindowSize : Nat := 2 ^ 31 - 1

end H2Settings

namespace H2Error

def protocolError : Nat := 1
def frameSizeError : Nat := 6

end H2Error

/-- `H2FrameHead`. The type is the byte of the frame. -/
structure H2FrameHead where
  payloadSize : Nat
  type : Nat
  flags : Nat
  streamId : Nat
deriving DecidableEq, Repr

def serializeFrameHead (payloadSize type flags streamId : Nat) : Bytes :=
  [(payloadSize / 65536).toUInt8, (payloadSize / 256).toUInt8, payloadSize.toUInt8, type.toUInt8,
    flags.toUInt8] ++ saveUint32 streamId

/-- The members of `H2StreamContext` that `OnData` and the windows need besides the header. -/
structure H2Stream extends H2StreamContext where
  streamId : Nat
  remoteWindowLeft : BitVec 64
  deferredWindowUpdate : Int := 0

/-- A message of a handler, or an error with the stream it is about, which is 0 for the
connection. -/
inductive H2ParseResult where
  | message (stream : Option H2Stream)
  | error (code streamId : Nat)

inductive H2ConnectionState where
  | uninitialized
  | ready
  | goAway
deriving DecidableEq, Repr

/-- What is decided outside: whether a write succeeds after the ones before it, and whether the
data of a stream is taken by `OnBody`. -/
structure Outside where
  write : List Bytes → Bytes → Bool
  onBody : Nat → Bytes → Bool

/-- `H2Context`, with what was written to its socket and whether that is logged off. -/
structure H2Context where
  clientSide : Bool
  written : List Bytes := []
  logOff : Bool := false
  remoteWindowLeft : BitVec 64 := BitVec.ofNat 64 H2Settings.maxWindowSize
  connState : H2ConnectionState := .uninitialized
  lastReceivedStreamId : Int := -1
  goawayStreamId : Int := -1
  remoteSettings : H2Settings :=
    { connectionWindowSize := 0, streamWindowSize := H2Settings.maxWindowSize }
  remoteSettingsReceived : Bool := false
  localSettings : H2Settings := {}
  unackLocalSettings : H2Settings := {}
  hpacker : HPacker
  pendingStreams : FlatMap Nat H2Stream := []
  deferredWindowUpdate : Int := 0

namespace H2Context

variable (outside : Outside) (ctx : H2Context)

def writeAck (data : Bytes) : H2Context × Bool :=
  ({ ctx with written := ctx.written ++ [data] }, outside.write ctx.written data)

def findStream (streamId : Nat) : Option H2Stream :=
  ctx.pendingStreams.seek (fun left right => left = right) streamId

/-- `TryToInsertStream`: 0 on success, -1 on an existing stream, 1 after a GOAWAY. -/
def tryToInsertStream (stream : H2Stream) : H2Context × Int :=
  if ctx.goawayStreamId ≥ 0 ∧ (stream.streamId : Int) > ctx.goawayStreamId then (ctx, 1)
  else if (ctx.findStream stream.streamId).isSome then (ctx, -1)
  else ({ ctx with pendingStreams := ctx.pendingStreams ++ [(stream.streamId, stream)] }, 0)

def deferWindowUpdate (size : Int) : H2Context :=
  if size ≤ 0 then ctx
  else
    let acc := ctx.deferredWindowUpdate + size
    if acc ≥ (ctx.localSettings.streamWindowSize / 2 : Nat) then
      let released := { ctx with deferredWindowUpdate := 0 }
      if acc > 0 then
        (released.writeAck outside (serializeFrameHead 4 8 0 0 ++ saveUint32 (toUint32 acc))).1
      else released
    else { ctx with deferredWindowUpdate := acc }

def removeStreamAndDeferWU (streamId : Nat) : H2Context × Option H2Stream :=
  match ctx.findStream streamId with
  | none => (ctx, none)
  | some stream =>
      let removed := { ctx with
        pendingStreams := ctx.pendingStreams.erase (fun left right => left = right) streamId }
      (removed.deferWindowUpdate outside stream.deferredWindowUpdate,
        some { stream with deferredWindowUpdate := 0 })

def removeGoAwayStreams (goawayStreamId : Int) : H2Context × List H2Stream :=
  let gone := fun element : Nat × H2Stream =>
    decide (goawayStreamId = 0 ∨ (element.1 : Int) > goawayStreamId)
  ({ ctx with
      goawayStreamId := goawayStreamId
      pendingStreams := ctx.pendingStreams.filter fun element => !gone element },
    (ctx.pendingStreams.filter gone).map Prod.snd)

end H2Context

/-- The context, what is left of the bytes, and the result of a handler. -/
abbrev Handled := Option (H2Context × Bytes × H2ParseResult)

namespace H2Context

variable (ctx : H2Context) (it : Bytes) (head : H2FrameHead)

/-- `H2Context::OnGoAway`. All streams but the first are processed in threads of their own. -/
def onGoAway : Handled :=
  if head.payloadSize < 8 then some (ctx, it, .error H2Error.frameSizeError 0)
  else if head.streamId ≠ 0 then some (ctx, it, .error H2Error.protocolError 0)
  else if head.flags ≠ 0 then some (ctx, it, .error H2Error.protocolError 0)
  else
    (loadUint32 (it.drop (head.payloadSize - 8))).bind fun (lastStreamId, it) =>
      (loadUint32 it).map fun (_, it) =>
        if ctx.clientSide then
          let removed := { ctx with logOff := true }.removeGoAwayStreams (toInt lastStreamId)
          (removed.1, it, .message (removed.2.head?.map fun stream =>
            { stream with header := { stream.header with statusCode := 503 } }))
        else (ctx, it, .message none)

end H2Context

end CodeReading.Brpc
