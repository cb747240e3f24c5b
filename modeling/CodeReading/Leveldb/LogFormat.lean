import CodeReading.Leveldb.Crc32c

/-!
# Physical records of a log file

A log is a sequence of 32 KiB blocks. A physical record is a seven byte header,
holding a masked checksum, a two byte length and a type, followed by its
payload; it never crosses a block boundary. Fewer than seven bytes left in a
block are a zero-filled trailer.

`layout` places a list of fragments from a given offset in the current block,
the way both ends of the log understand it. It mentions neither the writer's
fragmentation nor the reader's resynchronization, so each is related to it once.
-/

namespace CodeReading.Leveldb.Log

def kBlockSize : Nat := 32768

/-- `kHeaderSize`: checksum (4 bytes), length (2 bytes), type (1 byte). -/
def kHeaderSize : Nat := 4 + 2 + 1

/-- `RecordType`. Zero is reserved for preallocated files. -/
inductive RecordType where
  | zeroType
  | fullType
  | firstType
  | middleType
  | lastType
deriving DecidableEq, Repr

/-- The value stored in the seventh header byte. -/
def RecordType.code : RecordType → Nat
  | .zeroType => 0
  | .fullType => 1
  | .firstType => 2
  | .middleType => 3
  | .lastType => 4

def kMaxRecordType : Nat := 4

/-- The type as the checksum sees it. -/
def RecordType.byte (type : RecordType) : UInt8 := UInt8.ofNat type.code

/-- The seven bytes `EmitPhysicalRecord` puts in front of a payload. The checksum
covers the type byte and the payload, starting from the type's own checksum. -/
def header (type : RecordType) (payload : Bytes) : Bytes :=
  encodeFixed32 (Crc32c.mask (Crc32c.extend (Crc32c.value [type.byte]) payload)) ++
    [UInt8.ofNat (payload.length % 256), UInt8.ofNat (payload.length / 256), type.byte]

/-- Such a header with any byte in the place of the type. -/
def stamped (byte : UInt8) (payload : Bytes) : Bytes :=
  encodeFixed32 (Crc32c.mask (Crc32c.extend (Crc32c.value [byte]) payload)) ++
    [UInt8.ofNat (payload.length % 256), UInt8.ofNat (payload.length / 256), byte]

structure Fragment where
  type : RecordType
  payload : Bytes
deriving DecidableEq, Repr

open Fragment

def Fragment.bytes (fragment : Fragment) : Bytes :=
  header fragment.type fragment.payload ++ fragment.payload

/-- Room the fragment takes in its block. -/
def Fragment.size (fragment : Fragment) : Nat := kHeaderSize + fragment.payload.length

@[simp] theorem header_length (type : RecordType) (payload : Bytes) :
    (header type payload).length = kHeaderSize := rfl

@[simp] theorem fragment_bytes_length (fragment : Fragment) :
    fragment.bytes.length = fragment.size := by
  simp [bytes, size]

theorem fragment_size_pos (fragment : Fragment) : kHeaderSize ≤ fragment.size := by
  simp [size]

variable {offset : Nat}

theorem fragment_short {fragment : Fragment} (fits : offset + fragment.size ≤ kBlockSize) :
    fragment.payload.length < 65536 := by
  simp only [size, kBlockSize, kHeaderSize] at fits
  omega

/-- The bytes of an empty record, the shortest one there is. -/
theorem header_empty : header .fullType [] = [0x05, 0x2b, 0x28, 0x43, 0, 0, 1] := by
  decide +kernel

/-- The zero bytes that close a block in which no header fits any more. A block
that is exactly full has an empty trailer. -/
def trailer (offset : Nat) : Bytes :=
  if kBlockSize - offset < kHeaderSize then List.replicate (kBlockSize - offset) 0 else []

/-- Where the next physical record starts: at once, or at the next block. -/
def slot (offset : Nat) : Nat :=
  if kBlockSize - offset < kHeaderSize then 0 else offset

theorem slot_room (offset : Nat) : slot offset + kHeaderSize ≤ kBlockSize := by
  unfold slot
  split
  · decide
  · simp only [kHeaderSize] at *
    omega

/-- The file image of consecutive fragments, the first one at `offset` of the
current block. -/
def layout : Nat → List Fragment → Bytes
  | _, [] => []
  | offset, fragment :: rest =>
      trailer offset ++ fragment.bytes ++ layout (slot offset + fragment.size) rest

/-- The block offset after the last of the fragments. -/
def finish : Nat → List Fragment → Nat
  | offset, [] => offset
  | offset, fragment :: rest => finish (slot offset + fragment.size) rest

/-- No fragment crosses the end of its block. -/
def Fits : Nat → List Fragment → Prop
  | _, [] => True
  | offset, fragment :: rest =>
      slot offset + fragment.size ≤ kBlockSize ∧ Fits (slot offset + fragment.size) rest

theorem layout_append (offset : Nat) (left right : List Fragment) :
    layout offset (left ++ right) = layout offset left ++ layout (finish offset left) right := by
  induction left generalizing offset with
  | nil => rfl
  | cons fragment rest ih => simp [layout, finish, ih]

theorem finish_append (offset : Nat) (left right : List Fragment) :
    finish offset (left ++ right) = finish (finish offset left) right := by
  induction left generalizing offset with
  | nil => rfl
  | cons fragment rest ih => simp [finish, ih]

theorem fits_append :
    Fits offset (left ++ right) ↔ Fits offset left ∧ Fits (finish offset left) right := by
  induction left generalizing offset with
  | nil => simp [Fits, finish]
  | cons fragment rest ih => simp [Fits, finish, ih, and_assoc]

theorem finish_le (inside : offset ≤ kBlockSize) (fits : Fits offset fragments) :
    finish offset fragments ≤ kBlockSize := by
  induction fragments generalizing offset with
  | nil => exact inside
  | cons fragment rest ih => exact ih fits.1 fits.2

/-- The trailer carries the offset to the block boundary, so trailer and slot
agree on the position modulo the block size. -/
theorem trailer_slot (offset : Nat) (inside : offset ≤ kBlockSize) :
    (offset + (trailer offset).length) % kBlockSize = slot offset % kBlockSize := by
  unfold trailer slot
  split
  · simp [Nat.add_sub_cancel' inside]
  · simp

/-- The block offset is the file length modulo the block size, whatever mixture
of fragments and trailers produced it. -/
theorem layout_length (inside : offset ≤ kBlockSize) (fits : Fits offset fragments) :
    (offset + (layout offset fragments).length) % kBlockSize =
      finish offset fragments % kBlockSize := by
  induction fragments generalizing offset with
  | nil => simp [layout, finish]
  | cons fragment rest ih =>
    have tail := ih fits.1 fits.2
    have head := trailer_slot offset inside
    simp only [layout, finish, List.length_append, fragment_bytes_length]
    rw [← tail]
    have regroup : offset + ((trailer offset).length + fragment.size +
        (layout (slot offset + fragment.size) rest).length) =
        (offset + (trailer offset).length) + (fragment.size +
          (layout (slot offset + fragment.size) rest).length) := by omega
    rw [regroup, Nat.add_mod, head, ← Nat.add_mod]
    congr 1
    omega

section

variable (leftInside : left ≤ kBlockSize) (rightInside : right ≤ kBlockSize)
  (same : left % kBlockSize = right % kBlockSize)
include leftInside rightInside same

/-- Offsets that agree modulo the block size place the next fragment alike: a
full block and the beginning of the next one are the same position. -/
theorem slot_congr : slot left = slot right ∧ trailer left = trailer right := by
  simp only [slot, trailer, kBlockSize, kHeaderSize] at *
  rcases Nat.lt_or_ge left 32768 with leftSmall | leftFull
  · rcases Nat.lt_or_ge right 32768 with rightSmall | rightFull
    · have equal : left = right := by omega
      subst equal
      exact ⟨rfl, rfl⟩
    · have zero : left = 0 := by omega
      have full : right = 32768 := by omega
      subst zero full
      simp
  · have full : left = 32768 := by omega
    rcases Nat.lt_or_ge right 32768 with rightSmall | rightFull
    · have zero : right = 0 := by omega
      subst zero full
      simp
    · have equal : left = right := by omega
      subst equal
      exact ⟨rfl, rfl⟩

/-- Consequently whole layouts depend on the offset only modulo the block size. -/
theorem layout_congr (fragments : List Fragment) : layout left fragments = layout right fragments ∧
      (Fits left fragments ↔ Fits right fragments) ∧
      finish left fragments % kBlockSize = finish right fragments % kBlockSize := by
  obtain ⟨slots, trailers⟩ := slot_congr leftInside rightInside same
  cases fragments with
  | nil => exact ⟨rfl, Iff.rfl, same⟩
  | cons fragment rest => simp [layout, Fits, finish, slots, trailers]

end

end CodeReading.Leveldb.Log
