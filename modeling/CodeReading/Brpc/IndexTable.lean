import CodeReading.Brpc.BoundedQueue
import CodeReading.Brpc.FlatMap
import CodeReading.Brpc.HpackTables

/-!
# The index table of HPACK

`IndexTable` holds headers in a bounded queue and evicts the oldest ones so that their sizes
stay within a limit. The table of an encoder also has two maps from headers and from names
to the latest time they were added, by which the encoder finds an index; the decoder counts
the index from the newest header of its queue.

An operation that is undefined fails at a `CHECK` or reads a header that is not there.
-/

namespace CodeReading.Brpc

def asciiTolower (byte : UInt8) : UInt8 := if 65 ≤ byte ∧ byte ≤ 90 then byte + 32 else byte

/-- `brpc::tolower`. -/
def lower (text : Bytes) : Bytes := text.map asciiTolower

/-- A `char` is signed; in a sum of type `size_t` its sign is extended. -/
def extend (byte : UInt8) : UInt64 :=
  if byte < 128 then byte.toUInt64 else byte.toUInt64 - 256

def caseIgnoredHash (text : Bytes) : UInt64 :=
  text.foldl (fun result byte => result * 101 + extend (asciiTolower byte)) 0

/-- `butil::DefaultHasher<std::string>`. -/
def defaultHash (text : Bytes) : UInt64 :=
  text.foldl (fun result byte => result * 101 + extend byte) 0

def headerHash (header : Header) : UInt64 :=
  caseIgnoredHash header.name * 101 + defaultHash header.value

/-- The part of a string that `c_str` functions see. -/
def cString (text : Bytes) : Bytes := text.takeWhile fun byte => byte != 0

/-- `butil::CaseIgnoredEqual`, which compares with `strcasecmp`. -/
def caseIgnoredEqual (left right : Bytes) : Bool :=
  left.length == right.length && lower (cString left) == lower (cString right)

def headerEqualTo (left right : Header) : Bool :=
  caseIgnoredEqual left.name right.name && left.value == right.value

/-- When `_name_index` takes two names for one. -/
def sameName (left right : Bytes) : Bool :=
  caseIgnoredHash left == caseIgnoredHash right && caseIgnoredEqual left right

/-- When `_header_index` takes two headers for one. -/
def sameHeader (left right : Header) : Bool :=
  headerHash left == headerHash right && headerEqualTo left right

structure IndexTable where
  startIndex : Nat
  needIndexes : Bool
  addTimes : Nat
  maxSize : Nat
  size : Nat
  headerQueue : BoundedQueue Header
  headerIndex : FlatMap Header Nat
  nameIndex : FlatMap Bytes Nat

def headerSize (header : Header) : Nat := header.name.length + header.value.length + 32

/-- A number that goes through an `int` into an unsigned number of 64 bits. -/
def throughInt (number : Nat) : Nat :=
  if number % 2 ^ 32 < 2 ^ 31 then number % 2 ^ 32 else number % 2 ^ 32 + 2 ^ 64 - 2 ^ 32

namespace IndexTable

section

variable (table : IndexTable)

def headerAt (index : Nat) : Option Header :=
  if index < table.startIndex then none else table.headerQueue.bottom (index - table.startIndex)

/-- The index of what was added at a time, as the 32 bits of an `int`. The latest has the
smallest. -/
def indexOf : Option Nat → Nat
  | none => 0
  | some added => (table.startIndex + (table.addTimes + 2 ^ 64 - added) - 1) % 2 ^ 32

def getIndexOfHeader (header : Header) : Nat :=
  table.indexOf (FlatMap.seek sameHeader table.headerIndex header)

def getIndexOfName (name : Bytes) : Nat :=
  table.indexOf (FlatMap.seek sameName table.nameIndex name)

def endIndex : Nat := table.startIndex + table.headerQueue.count

def removeHeaderFromIndexes (header : Header) (expected : Nat) : Option IndexTable :=
  let withoutHeader :=
    if header.value.isEmpty then some table
    else (FlatMap.seek sameHeader table.headerIndex header).map fun added =>
      if added = expected then
        { table with headerIndex := FlatMap.erase sameHeader table.headerIndex header }
      else table
  withoutHeader.bind fun table =>
    (FlatMap.seek sameName table.nameIndex header.name).map fun added =>
      if added = expected then
        { table with nameIndex := FlatMap.erase sameName table.nameIndex header.name }
      else table

def popHeader : Option IndexTable :=
  table.headerQueue.top.bind fun header =>
    let expected := table.addTimes - table.headerQueue.count
    let removed :=
      if table.needIndexes then table.removeHeaderFromIndexes header expected else some table
    removed.map fun removed =>
      { removed with
        size := removed.size - headerSize header
        headerQueue := removed.headerQueue.pop }

end

def popWhile (excess : IndexTable → Bool) : Nat → IndexTable → Option IndexTable
  | 0, table => if excess table then none else some table
  | turns + 1, table =>
      if excess table then table.popHeader.bind (popWhile excess turns) else some table

/-- The end of `AddHeader`: the header is pushed and, for an encoder, entered into the maps. -/
def pushHeader (table : IndexTable) (header : Header) : Option IndexTable :=
  if table.headerQueue.full then none
  else
    let id := throughInt table.addTimes
    let pushed := { table with
      size := table.size + headerSize header
      headerQueue := table.headerQueue.push header
      addTimes := table.addTimes + 1 }
    if table.needIndexes then
      some { pushed with
        headerIndex :=
          if header.value.isEmpty then table.headerIndex
          else FlatMap.assign sameHeader header id table.headerIndex
        nameIndex := FlatMap.assign sameName header.name id table.nameIndex }
    else some pushed

def addHeader (table : IndexTable) (header : Header) : Option IndexTable :=
  if header.name.isEmpty then none
  else
    (popWhile (fun table => decide (table.size ≠ 0 ∧
      table.size + headerSize header > table.maxSize)) table.headerQueue.count table).bind
      fun popped =>
        if headerSize header > popped.maxSize then some popped else popped.pushHeader header

def resetMaxSize (table : IndexTable) (newMaxSize : Nat) : Option IndexTable :=
  if newMaxSize > table.maxSize then some { table with maxSize := newMaxSize }
  else if newMaxSize < table.maxSize then
    popWhile (fun table => decide (table.size > table.maxSize)) table.headerQueue.count
      { table with maxSize := newMaxSize }
  else some table

def addHeaders (table : IndexTable) : List Header → Option IndexTable
  | [] => some table
  | header :: rest => (table.addHeader header).bind fun next => next.addHeaders rest

/-- `IndexTable::Init`. A map can not be made for no buckets at all. The memory that the
queue asks for is taken to be there. -/
def init (maxSize startIndex : Nat) (staticTable : List Header) (needIndexes : Bool) :
    Option IndexTable :=
  let numHeaders := if staticTable.isEmpty then maxSize / (32 + 2) else staticTable.length
  if needIndexes ∧ numHeaders = 0 then none
  else
    addHeaders
      { startIndex := startIndex
        needIndexes := needIndexes
        addTimes := 0
        maxSize := if staticTable.isEmpty then maxSize else 2 ^ 32 - 1
        size := 0
        headerQueue := .ofCapacity Header numHeaders
        headerIndex := []
        nameIndex := [] }
      staticTable.reverse

end IndexTable

end CodeReading.Brpc
