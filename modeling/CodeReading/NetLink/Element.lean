import Mathlib.Algebra.Order.Ring.Int
import Mathlib.Data.List.Basic

/-!
# MsgPack elements

An element is a resumable reader and writer of its own bytes: a position counts from the
start of its header, which is negative, to its end. A container has a header only; its
children are elements of their own in its vector.

A buffer holds the bytes written to it so far, so the header of an element that is being
read grows to its length. The code asks for the end of an element whose header is still
incomplete, but only at a negative position, where any end is as good. An empty
`unique_ptr` is `null`. Floating-point numbers are their bits.
-/

namespace CodeReading.NetLink

abbrev Bytes := List UInt8

section

/-- The least significant bytes of a number, the most significant of them first. -/
def storeUint : Nat → Nat → Bytes
  | 0, _ => []
  | width + 1, source => storeUint width (source / 256) ++ [source.toUInt8]

def loadUint (width : Nat) (source : Bytes) : Nat :=
  (source.take width).foldl (fun target byte => target * 256 + byte.toNat) 0

def storeUint8 (source : Nat) : Bytes := storeUint 1 source

def storeUint16 (source : Nat) : Bytes := storeUint 2 source

def storeUint32 (source : Nat) : Bytes := storeUint 4 source

def storeUint64 (source : Nat) : Bytes := storeUint 8 source

/-- `storeInt8` and its like: two's complement. -/
def storeInt (width : Nat) (source : Int) : Bytes :=
  storeUint width (source % 256 ^ width).toNat

def loadUint8 (source : Bytes) : Nat := loadUint 1 source

def loadUint16 (source : Bytes) : Nat := loadUint 2 source

def loadUint32 (source : Bytes) : Nat := loadUint 4 source

@[simp] theorem storeUint_length (width source : Nat) :
    (storeUint width source).length = width := by
  induction width generalizing source with
  | zero => rfl
  | succ width ih =>
    rw [storeUint, List.length_append, ih]
    rfl

theorem foldl_storeUint (width source : Nat) :
    (storeUint width source).foldl (fun target byte => target * 256 + byte.toNat) 0 =
      source % 256 ^ width := by
  induction width generalizing source with
  | zero => exact (Nat.mod_one source).symm
  | succ width ih =>
    have low : source.toUInt8.toNat = source % 256 := UInt8.toNat_ofNat'
    rw [storeUint, List.foldl_append, ih, List.foldl_cons, List.foldl_nil, low,
      Nat.pow_succ', Nat.mod_mul]
    omega

theorem loadUint_storeUint {width source : Nat} (fits : source < 256 ^ width := by omega) :
    loadUint width (storeUint width source) = source := by
  rw [loadUint, List.take_of_length_le (Nat.le_of_eq (storeUint_length width source)), foldl_storeUint,
    Nat.mod_eq_of_lt fits]

end

/-! ## The values of `Type` -/

namespace Tag

def fixmap : UInt8 := 0x80
def fixarray : UInt8 := 0x90
def fixstr : UInt8 := 0xA0
def nil : UInt8 := 0xC0
def undefined : UInt8 := 0xC1
def boolFalse : UInt8 := 0xC2
def boolTrue : UInt8 := 0xC3
def bin8 : UInt8 := 0xC4
def bin16 : UInt8 := 0xC5
def bin32 : UInt8 := 0xC6
def ext8 : UInt8 := 0xC7
def ext16 : UInt8 := 0xC8
def ext32 : UInt8 := 0xC9
def float32 : UInt8 := 0xCA
def float64 : UInt8 := 0xCB
def uint8 : UInt8 := 0xCC
def uint16 : UInt8 := 0xCD
def uint32 : UInt8 := 0xCE
def uint64 : UInt8 := 0xCF
def int8 : UInt8 := 0xD0
def int16 : UInt8 := 0xD1
def int32 : UInt8 := 0xD2
def int64 : UInt8 := 0xD3
def fixext8 : UInt8 := 0xD4
def fixext16 : UInt8 := 0xD5
def fixext32 : UInt8 := 0xD6
def fixext64 : UInt8 := 0xD7
def fixext128 : UInt8 := 0xD8
def str8 : UInt8 := 0xD9
def str16 : UInt8 := 0xDA
def str32 : UInt8 := 0xDB
def array16 : UInt8 := 0xDC
def array32 : UInt8 := 0xDD
def map16 : UInt8 := 0xDE
def map32 : UInt8 := 0xDF
def fixint : UInt8 := 0xE0

end Tag

/-- The classes derived from `Data`. -/
inductive DataKind where
  | binary
  | extended
  | string
deriving DecidableEq, Repr

/-- The classes derived from `ArrayHeader` and `MapHeader`. -/
inductive ContainerKind where
  | array
  | map
deriving DecidableEq, Repr

/-! ## Headers -/

section

open Tag

/-- The first byte of a header, `header[0]`. -/
def firstByte (header : Bytes) : UInt8 := header.headD 0

namespace DataKind

def headerLength : DataKind → UInt8 → Nat
  | binary, type =>
    if type = bin8 then 2
    else if type = bin16 then 3
    else if type = bin32 then 5
    else 0
  | extended, type =>
    if type = fixext8 ∨ type = fixext16 ∨ type = fixext32 ∨ type = fixext64 ∨ type = fixext128
    then 1
    else if type = ext8 then 2
    else if type = ext16 then 3
    else if type = ext32 then 5
    else 0
  | string, type =>
    if fixstr ≤ type ∧ type < nil then 1
    else if type = str8 then 2
    else if type = str16 then 3
    else if type = str32 then 5
    else 0

/-- `getEndPos`: how many bytes follow the header. -/
def endPos : DataKind → Bytes → Nat
  | binary, header =>
    if firstByte header = bin8 then loadUint8 (header.drop 1)
    else if firstByte header = bin16 then loadUint16 (header.drop 1)
    else if firstByte header = bin32 then loadUint32 (header.drop 1)
    else 0
  | extended, header =>
    if firstByte header = fixext8 then 2
    else if firstByte header = fixext16 then 3
    else if firstByte header = fixext32 then 5
    else if firstByte header = fixext64 then 9
    else if firstByte header = fixext128 then 17
    else if firstByte header = ext8 then loadUint8 (header.drop 1) + 1
    else if firstByte header = ext16 then loadUint16 (header.drop 1) + 1
    -- only here is the sum taken in 32 bits
    else if firstByte header = ext32 then (loadUint32 (header.drop 1) + 1) % 2 ^ 32
    else 0
  | string, header =>
    if fixstr ≤ firstByte header ∧ firstByte header < nil then
      (firstByte header).toNat - fixstr.toNat
    else if firstByte header = str8 then loadUint8 (header.drop 1)
    else if firstByte header = str16 then loadUint16 (header.drop 1)
    else if firstByte header = str32 then loadUint32 (header.drop 1)
    else 0

end DataKind

namespace ContainerKind

def headerLength : ContainerKind → UInt8 → Nat
  | array, type =>
    if fixarray ≤ type ∧ type < fixstr then 1
    else if type = array16 then 3
    else if type = array32 then 5
    else 0
  | map, type =>
    if fixmap ≤ type ∧ type < fixarray then 1
    else if type = map16 then 3
    else if type = map32 then 5
    else 0

/-- `getLength`: the number of entries, which are pairs in a map. -/
def length : ContainerKind → Bytes → Nat
  | array, header =>
    if fixarray ≤ firstByte header ∧ firstByte header < fixstr then
      (firstByte header).toNat - fixarray.toNat
    else if firstByte header = array16 then loadUint16 (header.drop 1)
    else if firstByte header = array32 then loadUint32 (header.drop 1)
    else 0
  | map, header =>
    if fixmap ≤ firstByte header ∧ firstByte header < fixarray then
      (firstByte header).toNat - fixmap.toNat
    else if firstByte header = map16 then loadUint16 (header.drop 1)
    else if firstByte header = map32 then loadUint32 (header.drop 1)
    else 0

/-- The elements that so many entries stand for. -/
def members : ContainerKind → Nat → Nat
  | array, length => length
  | map, length => length * 2

/-- The size of the vector that `containerDeserialized` makes. For a map it is the product
of two 32-bit numbers. -/
def vectorSize : ContainerKind → Nat → Nat
  | array, length => length
  | map, length => length * 2 % 2 ^ 32

end ContainerKind

/-- `Number::getEndPos`, by the first byte. -/
def numberEndPos (type : UInt8) : Nat :=
  if type < 0x80 ∨ 0xE0 ≤ type then 1
  else if type = uint8 ∨ type = int8 then 2
  else if type = uint16 ∨ type = int16 then 3
  else if type = float32 ∨ type = uint32 ∨ type = int32 then 5
  else if type = float64 ∨ type = uint64 ∨ type = int64 then 9
  else 0

end

/-! ## Elements -/

inductive Element where
  | null
  | primitive (type : UInt8)
  | number (data : Bytes)
  | data (kind : DataKind) (header : Bytes) (data : Option Bytes)
  | containerHeader (kind : ContainerKind) (header : Bytes)
  | container (kind : ContainerKind) (header : Bytes) (elements : List Element)

namespace Element

def getHeaderLength : Element → Nat
  | data kind header _ => kind.headerLength (firstByte header)
  | containerHeader kind header => kind.headerLength (firstByte header)
  | container kind header _ => kind.headerLength (firstByte header)
  | _ => 0

def getEndPos : Element → Nat
  | primitive _ => 1
  | number buffer => numberEndPos (firstByte buffer)
  | data kind header _ => kind.endPos header
  | _ => 0

def getElementsVector : Element → Option (List Element)
  | container _ _ elements => some elements
  | _ => none

mutual

/-- `getSizeInBytes`, as 32 bits hold it. What has no header has a header length of 0, and a
header ends at 0. -/
def getSizeInBytes : Element → Nat
  | container kind header elements =>
    (kind.headerLength (firstByte header) + sizeFrom 1 (elements.length % 2 ^ 32) elements) %
      2 ^ 32
  | element => (element.getHeaderLength + element.getEndPos) % 2 ^ 32

/-- The sizes of the elements from one index to another, which are summed up for a container. -/
def sizeFrom : Nat → Nat → List Element → Nat
  | index + 1, len + 1, _ :: rest => sizeFrom index len rest
  | 0, len + 1, element :: rest => element.getSizeInBytes + sizeFrom 0 len rest
  | _, _, _ => 0

end

/-- `startSerialize`; elements without a header start at 0. -/
def startSerialize (element : Element) : Int := -(element.getHeaderLength : Int)

/-- `Header::serialize`: what the stream takes of the rest of the header, where `room` is
what it has room for. -/
def serializeHeader (length : Nat) (header : Bytes) (pos : Int) (bytes room : Nat) : Bytes × Int :=
  if pos < 0 then
    let written := (header.drop (length + pos).toNat).take (min (min bytes (-pos).toNat) room)
    (written, pos + written.length)
  else ([], pos)

/-- `serialize`: the bytes written, with the new position. The stream has one room for a
header or an element without one, and another for the data after a header. After a header
the data is measured by the limit as it was before it. -/
def serialize (element : Element) (pos : Int) (bytes : Nat) (room : Nat × Nat) : Bytes × Int :=
  match element with
  | null => ([], pos)
  | primitive type => if 0 < bytes ∧ pos = 0 ∧ 0 < room.1 then ([type], pos + 1) else ([], pos)
  | number buffer =>
    let written := (buffer.drop pos.toNat).take
      (min (min bytes (numberEndPos (firstByte buffer) - pos).toNat) room.1)
    (written, pos + written.length)
  | data kind header buffer =>
    let (first, pos) :=
      serializeHeader (kind.headerLength (firstByte header)) header pos bytes room.1
    match buffer with
    | some buffer =>
      if 0 ≤ pos then
        let written := (buffer.drop pos.toNat).take
          (min (min bytes (kind.endPos header - pos).toNat) room.2)
        (first ++ written, pos + written.length)
      else (first, pos)
    | none => (first, pos)
  | containerHeader kind header =>
    serializeHeader (kind.headerLength (firstByte header)) header pos bytes room.1
  | container kind header _ =>
    serializeHeader (kind.headerLength (firstByte header)) header pos bytes room.1

/-- `new Number()` and its like, as the first byte decides. -/
def select (hierarchy : Bool) (nextByte : UInt8) : Element :=
  let collection (kind : ContainerKind) : Element :=
    if hierarchy then container kind [] [] else containerHeader kind []
  if nextByte < Tag.fixmap ∨ Tag.fixint ≤ nextByte then number []
  else if nextByte < Tag.fixarray then collection .map
  else if nextByte < Tag.fixstr then collection .array
  else if nextByte < Tag.nil then data .string [] none
  else if nextByte = Tag.nil ∨ nextByte = Tag.undefined ∨ nextByte = Tag.boolFalse ∨
      nextByte = Tag.boolTrue then primitive Tag.nil
  else if nextByte = Tag.bin8 ∨ nextByte = Tag.bin16 ∨ nextByte = Tag.bin32 then
    data .binary [] none
  else if nextByte = Tag.ext8 ∨ nextByte = Tag.ext16 ∨ nextByte = Tag.ext32 ∨
      nextByte = Tag.fixext8 ∨ nextByte = Tag.fixext16 ∨ nextByte = Tag.fixext32 ∨
      nextByte = Tag.fixext64 ∨ nextByte = Tag.fixext128 then data .extended [] none
  else if nextByte = Tag.str8 ∨ nextByte = Tag.str16 ∨ nextByte = Tag.str32 then
    data .string [] none
  else if nextByte = Tag.array16 ∨ nextByte = Tag.array32 then collection .array
  else if nextByte = Tag.map16 ∨ nextByte = Tag.map32 then collection .map
  else number []

/-- `startDeserialize`: the element with its first byte, and its position. -/
def startDeserialize (element : Element) (firstByte : UInt8) : Element × Int :=
  match element with
  | null => (null, 0)
  | primitive _ => (primitive firstByte, 1)
  | number _ => (number [firstByte], 1)
  | data kind _ buffer => (data kind [firstByte] buffer, 1 - (kind.headerLength firstByte : Int))
  | containerHeader kind _ =>
    (containerHeader kind [firstByte], 1 - (kind.headerLength firstByte : Int))
  | container kind _ elements =>
    (container kind [firstByte] elements, 1 - (kind.headerLength firstByte : Int))

/-- The buffer after some bytes were copied to a place in it. -/
def copyTo (buffer : Bytes) (place : Nat) (bytes : Bytes) : Bytes :=
  buffer.take place ++ bytes ++ buffer.drop (place + bytes.length)

/-- `sgetn` where so many of the bytes of the input have arrived. -/
def sgetn (input : Bytes) (bytes arrived : Nat) : Bytes := input.take (min bytes arrived)

/-- `Header::deserialize`: the header, the position and the bytes read. -/
def deserializeHeader (length : Nat) (header : Bytes) (pos : Int) (input : Bytes)
    (bytes arrived : Nat) : Bytes × Int × Bytes :=
  if pos < 0 then
    let read := sgetn input (min bytes (-pos).toNat) arrived
    (copyTo header (length + pos).toNat read, pos + read.length, read)
  else (header, pos, [])

/-- The part of `Data::deserialize` after the header: the buffer, which is made when there is
something to read, the position and the bytes read. -/
def deserializeContent (length : Nat) (buffer : Option Bytes) (pos : Int) (input : Bytes)
    (bytes arrived : Nat) : Option Bytes × Int × Bytes :=
  if 0 < length then
    let read := sgetn input (min bytes (length - pos).toNat) arrived
    (some (copyTo (buffer.getD []) pos.toNat read), pos + read.length, read)
  else (buffer, pos, [])

/-- `deserialize`: the element, the position and the bytes read. As for `serialize`, the
header and the data find different numbers of bytes arrived. -/
def deserialize (element : Element) (pos : Int) (input : Bytes) (bytes : Nat)
    (arrived : Nat × Nat) : Element × Int × Bytes :=
  match element with
  | null => (null, pos, [])
  | primitive type => (primitive type, pos, [])
  | number buffer =>
    let read := sgetn input (min bytes (numberEndPos (firstByte buffer) - pos).toNat) arrived.1
    (number (copyTo buffer pos.toNat read), pos + read.length, read)
  | data kind header buffer =>
    let (header, pos, first) := deserializeHeader (kind.headerLength (firstByte header)) header pos
      input bytes arrived.1
    if 0 ≤ pos then
      let (buffer, pos, second) := deserializeContent (kind.endPos header) buffer pos
        (input.drop first.length) bytes arrived.2
      (data kind header buffer, pos, first ++ second)
    else (data kind header buffer, pos, first)
  | containerHeader kind header =>
    let (header, pos, read) := deserializeHeader (kind.headerLength (firstByte header)) header pos
      input bytes arrived.1
    (containerHeader kind header, pos, read)
  | container kind header elements =>
    let (header, pos, read) := deserializeHeader (kind.headerLength (firstByte header)) header pos
      input bytes arrived.1
    (container kind header elements, pos, read)

/-- `containerDeserialized`: the element with its vector, if it returns true. -/
def containerDeserialized : Element → Option Element
  | container kind header _ =>
    if 0 < kind.length header then
      some (container kind header
        (List.replicate (kind.vectorSize (kind.length header)) null))
    else none
  | _ => none

/-! ## The constructors -/

def ofBool (value : Bool) : Element := primitive (if value then Tag.boolTrue else Tag.boolFalse)

def binary (bytes : Bytes) : Element :=
  data .binary
    (if bytes.length ≤ 0xFF then Tag.bin8 :: storeUint8 bytes.length
      else if bytes.length ≤ 0xFFFF then Tag.bin16 :: storeUint16 bytes.length
      else Tag.bin32 :: storeUint32 bytes.length)
    (if 0 < bytes.length then some bytes else none)

def extended (type : UInt8) (bytes : Bytes) : Element :=
  data .extended
    (if bytes.length = 1 then [Tag.fixext8]
      else if bytes.length = 2 then [Tag.fixext16]
      else if bytes.length = 4 then [Tag.fixext32]
      else if bytes.length = 8 then [Tag.fixext64]
      else if bytes.length = 16 then [Tag.fixext128]
      else if bytes.length ≤ 0xFF then Tag.ext8 :: storeUint8 bytes.length
      else if bytes.length ≤ 0xFFFF then Tag.ext16 :: storeUint16 bytes.length
      else Tag.ext32 :: storeUint32 bytes.length)
    (some (type :: bytes))

def string (bytes : Bytes) : Element :=
  data .string
    (if bytes.length < 0x20 then [Tag.fixstr + bytes.length.toUInt8]
      else if bytes.length ≤ 0xFF then Tag.str8 :: storeUint8 bytes.length
      else if bytes.length ≤ 0xFFFF then Tag.str16 :: storeUint16 bytes.length
      else Tag.str32 :: storeUint32 bytes.length)
    (if 0 < bytes.length then some bytes else none)

/-- `Number(uint64_t)`. -/
def ofUint64 (value : Nat) : Element :=
  number
    (if value < 0x80 then [value.toUInt8]
      else if value ≤ 0xFF then Tag.uint8 :: storeUint8 value
      else if value ≤ 0xFFFF then Tag.uint16 :: storeUint16 value
      else if value ≤ 0xFFFFFFFF then Tag.uint32 :: storeUint32 value
      else Tag.uint64 :: storeUint64 value)

/-- `Number(int64_t)`. -/
def ofInt64 (value : Int) : Element :=
  number
    (if -0x20 ≤ value ∧ value < 0x80 then storeInt 1 value
      else if -0x80 ≤ value ∧ value < 0x80 then Tag.int8 :: storeInt 1 value
      else if -0x8000 ≤ value ∧ value < 0x8000 then Tag.int16 :: storeInt 2 value
      else if -0x80000000 ≤ value ∧ value < 0x80000000 then Tag.int32 :: storeInt 4 value
      else Tag.int64 :: storeInt 8 value)

def ofFloat (bits : Nat) : Element := number (Tag.float32 :: storeUint32 bits)

def ofDouble (bits : Nat) : Element := number (Tag.float64 :: storeUint64 bits)

/-- `Array(elements)`. The size is narrowed to 32 bits. -/
def array (elements : List Element) : Element :=
  let length := elements.length % 2 ^ 32
  container .array
    (if length < 0x10 then [Tag.fixarray + length.toUInt8]
      else if length ≤ 0xFFFF then Tag.array16 :: storeUint16 length
      else Tag.array32 :: storeUint32 length)
    elements

/-- `Map(elements)`, keys and values alternating. The number of pairs is narrowed to 32
bits, and a key without a value is dropped. -/
def map (elements : List Element) : Element :=
  let length := elements.length / 2 % 2 ^ 32
  container .map
    (if length < 0x10 then [Tag.fixmap + length.toUInt8]
      else if length ≤ 0xFFFF then Tag.map16 :: storeUint16 length
      else Tag.map32 :: storeUint32 length)
    (elements.take (elements.length / 2 * 2))

end Element

end CodeReading.NetLink
