import CodeReading.Brpc.IndexTable

/-!
# The header of an HTTP message

`HttpHeader` as far as `H2StreamContext::ConsumeHeaders` sets it from decoded headers. The
names that begin with a colon are reserved; each sets a field of its own, and an unknown one
is an error. All other headers go into a map that ignores the case of names.

Most of these functions read a string up to its first zero byte.
-/

namespace CodeReading.Brpc

inductive HttpMethod where
  | delete | get | head | post | put | connect | options | trace | copy | lock | mkcol | move
  | propfind | proppatch | search | unlock | report | mkactivity | checkout | merge | msearch
  | notify | subscribe | unsubscribe | patch | purge | mkcalendar
deriving DecidableEq, Repr

def methodPairs : List (HttpMethod × Bytes) :=
  [(.delete, bytes "DELETE"), (.get, bytes "GET"), (.head, bytes "HEAD"), (.post, bytes "POST"),
    (.put, bytes "PUT"), (.connect, bytes "CONNECT"), (.options, bytes "OPTIONS"),
    (.trace, bytes "TRACE"), (.copy, bytes "COPY"), (.lock, bytes "LOCK"),
    (.mkcol, bytes "MKCOL"), (.move, bytes "MOVE"), (.propfind, bytes "PROPFIND"),
    (.proppatch, bytes "PROPPATCH"), (.search, bytes "SEARCH"), (.unlock, bytes "UNLOCK"),
    (.report, bytes "REPORT"), (.mkactivity, bytes "MKACTIVITY"),
    (.checkout, bytes "CHECKOUT"), (.merge, bytes "MERGE"), (.msearch, bytes "M-SEARCH"),
    (.notify, bytes "NOTIFY"), (.subscribe, bytes "SUBSCRIBE"),
    (.unsubscribe, bytes "UNSUBSCRIBE"), (.patch, bytes "PATCH"), (.purge, bytes "PURGE"),
    (.mkcalendar, bytes "MKCALENDAR")]

/-- `Str2HttpMethod`. The source looks only at the methods with the first letter of the
string; the others could not be equal. -/
def str2HttpMethod (methodStr : Bytes) : Option HttpMethod :=
  (methodPairs.find? fun pair => lower pair.2 == lower (cString methodStr)).map Prod.fst

def isDigit (byte : UInt8) : Bool := decide (48 ≤ byte ∧ byte ≤ 57)

/-- The characters that `strtol` skips. -/
def isSpace (byte : UInt8) : Bool := decide (byte = 32 ∨ 9 ≤ byte ∧ byte ≤ 13)

/-- `strtol` with base ten on a `long` of 64 bits: the number, and the rest of the string.
Without a digit the rest is all of the string. -/
def strtol (text : Bytes) : Int × Bytes :=
  let text := cString text
  let unspaced := text.dropWhile isSpace
  let negative := unspaced.head? = some 45
  let unsigned := if negative ∨ unspaced.head? = some 43 then unspaced.tail else unspaced
  let digits := unsigned.takeWhile isDigit
  if digits.isEmpty then (0, text)
  else
    let number : Int := digits.foldl (fun number digit => number * 10 + (digit.toNat - 48)) 0
    (max (-2 ^ 63) (min (2 ^ 63 - 1) (if negative then -number else number)),
      unsigned.dropWhile isDigit)

/-- A number narrowed to an `int`. -/
def toInt (number : Int) : Int := number.bmod (2 ^ 32)

/-- The loop of `SplitHostAndPort`, from the last byte on. The result is the port and the
number of bytes that belong to it with its colon. -/
def portLoop : Bytes → UInt64 → UInt64 → Nat → Option (UInt64 × Nat)
  | [], _, _, _ => none
  | byte :: rest, portRaw, multiply, taken =>
      if isDigit byte then
        portLoop rest (portRaw + (byte - 48).toUInt64 * multiply) (multiply * 10) (taken + 1)
      else if byte = 58 then some (portRaw, taken + 1)
      else none

/-- The fields of `URI` that are set here. The map of queries is made from the query later. -/
structure Uri where
  scheme : Bytes := []
  host : Bytes := []
  port : Int := -1
  path : Bytes := []
  query : Bytes := []
  fragment : Bytes := []
deriving DecidableEq, Repr

/-- `URI::SetHostAndPort`. The first byte is never taken for the colon. -/
def Uri.setHostAndPort (uri : Uri) (host : Bytes) : Uri :=
  match portLoop host.reverse.dropLast 0 1 0 with
  | some (port, taken) =>
      { uri with host := host.take (host.length - taken), port := toInt port.toNat }
  | none => { uri with host := host, port := -1 }

def Uri.setH2Path (uri : Uri) (h2Path : Bytes) : Uri :=
  let text := cString h2Path
  let inPath : UInt8 → Bool := fun byte => byte != 63 && byte != 35
  let afterPath := text.dropWhile inPath
  let hasQuery := afterPath.head? = some 63
  let query := if hasQuery then afterPath.tail.takeWhile (· != 35) else []
  let afterQuery := if hasQuery then afterPath.tail.dropWhile (· != 35) else afterPath
  { uri with
    path := text.takeWhile inPath
    query := query
    fragment := if afterQuery.head? = some 35 then afterQuery.tail else [] }

structure HttpHeader where
  headers : FlatMap Bytes Bytes := []
  uri : Uri := {}
  statusCode : Int := 200
  method : HttpMethod := .get
  contentType : Bytes := []
deriving DecidableEq, Repr

/-- What `ConsumeHeaders` does with a decoded header. It is undefined where the header is
refused. -/
def HttpHeader.set (header : HttpHeader) (pair : Header) : Option HttpHeader :=
  let name := cString pair.name
  if name.head? = some 58 then
    if name = bytes ":authority" then
      some { header with uri := header.uri.setHostAndPort pair.value }
    else if name = bytes ":method" then
      (str2HttpMethod pair.value).map fun method => { header with method := method }
    else if name = bytes ":path" then some { header with uri := header.uri.setH2Path pair.value }
    else if name = bytes ":scheme" then
      some { header with uri := { header.uri with scheme := pair.value } }
    else if name = bytes ":status" then
      let status := strtol pair.value
      if status.2.isEmpty then some { header with statusCode := toInt status.1 } else none
    else none
  else if name = bytes "content-type" then some { header with contentType := pair.value }
  else
    some { header with headers := FlatMap.assign sameName pair.name pair.value header.headers }

end CodeReading.Brpc
