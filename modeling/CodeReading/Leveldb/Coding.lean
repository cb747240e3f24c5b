import Mathlib.Algebra.Order.Ring.Int
import Mathlib.Data.List.Basic

/-!
# Bytes, statuses and little-endian words

The log and the descriptor are byte strings. A slice of the source is a list of
bytes here; pointer arithmetic is list surgery, and nothing depends on where a
buffer lives. Statuses keep the message the code attaches, because a reader's
report and a failed open are told apart by it.
-/

namespace CodeReading.Leveldb

open BitVec

/-- A slice or a file image. -/
abbrev Bytes := List UInt8

/-- The outcome classes of `leveldb::Status` that the modelled code builds. -/
inductive Status where
  | ok
  | notFound
  | corruption (message : String)
  | invalidArgument (message : String)
  | ioError (message : String)
deriving DecidableEq, Repr

/-- `EncodeFixed32`: least significant byte first. -/
def encodeFixed32 (value : UInt32) : Bytes :=
  [value.toUInt8, (value >>> 8).toUInt8, (value >>> 16).toUInt8, (value >>> 24).toUInt8]

/-- `EncodeFixed64`: least significant byte first. -/
def encodeFixed64 (value : UInt64) : Bytes :=
  [value.toUInt8, (value >>> 8).toUInt8, (value >>> 16).toUInt8, (value >>> 24).toUInt8,
    (value >>> 32).toUInt8, (value >>> 40).toUInt8, (value >>> 48).toUInt8, (value >>> 56).toUInt8]

/-- `EncodeVarint32`: seven bits at a time, the high bit set on all bytes but the
last. -/
def encodeVarint32 (v : UInt32) : Bytes :=
  if v < (1 : UInt32) <<< 7 then [v.toUInt8]
  else if v < (1 : UInt32) <<< 14 then [(v ||| 128).toUInt8, (v >>> 7).toUInt8]
  else if v < (1 : UInt32) <<< 21 then [(v ||| 128).toUInt8, (v >>> 7 ||| 128).toUInt8, (v >>> 14).toUInt8]
  else if v < (1 : UInt32) <<< 28 then
    [(v ||| 128).toUInt8, (v >>> 7 ||| 128).toUInt8, (v >>> 14 ||| 128).toUInt8, (v >>> 21).toUInt8]
  else
    [(v ||| 128).toUInt8, (v >>> 7 ||| 128).toUInt8, (v >>> 14 ||| 128).toUInt8,
      (v >>> 21 ||| 128).toUInt8, (v >>> 28).toUInt8]

/-- `PutLengthPrefixedSlice`; the size is narrowed to 32 bits, as by the call. -/
def putLengthPrefixedSlice (value : Bytes) : Bytes :=
  encodeVarint32 (UInt32.ofNat value.length) ++ value

theorem encodeVarint32_pos (v : UInt32) : 0 < (encodeVarint32 v).length := by
  unfold encodeVarint32
  split
  · exact Nat.succ_pos _
  split
  · exact Nat.succ_pos _
  split
  · exact Nat.succ_pos _
  split <;> exact Nat.succ_pos _

/-- `DecodeFixed32` on the first four bytes. A missing byte reads as zero, which
no caller reaches because headers are measured before they are parsed. -/
def decodeFixed32 (bytes : Bytes) : UInt32 :=
  (bytes.getD 0 0).toUInt32 ||| ((bytes.getD 1 0).toUInt32 <<< 8) |||
    ((bytes.getD 2 0).toUInt32 <<< 16) ||| ((bytes.getD 3 0).toUInt32 <<< 24)

/-- Four bytes are read back as the word they were cut from, whatever follows.
Each bit of the word lies in exactly one of the four bytes. -/
theorem decodeFixed32_encodeFixed32 (value : UInt32) (rest : Bytes) :
    decodeFixed32 (encodeFixed32 value ++ rest) = value := by
  apply UInt32.toBitVec_inj.mp
  simp only [decodeFixed32, encodeFixed32, List.cons_append, List.getD_cons_zero,
    List.getD_cons_succ, UInt32.toBitVec_or, UInt32.toBitVec_shiftLeft,
    UInt32.toBitVec_shiftRight, UInt8.toBitVec_toUInt32, UInt32.toBitVec_toUInt8]
  ext index inside
  simp only [UInt32.toBitVec_ofNat, ofNat_eq_ofNat, reduceMod,
    ushiftRight_eq', toNat_ofNat, Nat.reducePow, Nat.reduceMod,
    shiftLeft_eq', getElem_or, getElem_setWidth,
    getLsbD_setWidth, getElem_shiftLeft, getLsbD_ushiftRight]
  grind

end CodeReading.Leveldb
