import Mathlib.Data.List.Basic
import Mathlib.Algebra.Order.Ring.Int

/-!
# The buffer of a connection

The bytes that wait lie between two indices of a vector. Reading moves the first index, writing the
second one. When the room behind the second index does not suffice, the vector grows or the bytes
are moved to its front.
-/

namespace CodeReading.Muduo

open List

abbrev Bytes := List UInt8

section

variable (storage data : Bytes) (start size : Nat)

/-- `std::copy` of some bytes to an index of the vector. -/
def copyTo : Bytes := storage.take start ++ data ++ storage.drop (start + data.length)

/-- `resize` of the vector. -/
def resize : Bytes := storage.take size ++ replicate (size - storage.length) 0

variable {storage data start size}

theorem copyTo_take (within : start ≤ storage.length) :
    (copyTo storage data start).take (start + data.length) = storage.take start ++ data :=
  take_left' (by simp [within])

theorem copyTo_length (within : start ≤ storage.length) :
    (copyTo storage data start).length = max (start + data.length) storage.length := by
  simp only [copyTo, length_append, length_take, length_drop]
  omega

theorem resize_length (storage : Bytes) (size : Nat) : (resize storage size).length = size := by
  simp only [resize, length_append, length_take, length_replicate]
  omega

theorem resize_take (less : start ≤ size) (within : start ≤ storage.length) :
    (resize storage size).take start = storage.take start := by
  rw [resize, take_append_of_le_length (by simp; omega), take_take, Nat.min_eq_left less]

end

def kCheapPrepend : Nat := 8

def kInitialSize : Nat := 1024

/-- The vector with its two indices, in the order that the class promises. -/
structure Buffer where
  buffer : Bytes
  readerIndex : Nat
  writerIndex : Nat
  prepended : kCheapPrepend ≤ readerIndex
  ordered : readerIndex ≤ writerIndex
  within : writerIndex ≤ buffer.length

namespace Buffer

def new : Buffer where
  buffer := replicate (kCheapPrepend + kInitialSize) 0
  readerIndex := kCheapPrepend
  writerIndex := kCheapPrepend
  prepended := le_rfl
  ordered := le_rfl
  within := by simp

variable (buf : Buffer) (len : Nat) (data : Bytes)

def readableBytes : Nat := buf.writerIndex - buf.readerIndex

def writableBytes : Nat := buf.buffer.length - buf.writerIndex

def prependableBytes : Nat := buf.readerIndex

/-- The readable bytes from `peek` on. -/
def peek : Bytes := (buf.buffer.take buf.writerIndex).drop buf.readerIndex

def retrieveAll : Buffer where
  buffer := buf.buffer
  readerIndex := kCheapPrepend
  writerIndex := kCheapPrepend
  prepended := le_rfl
  ordered := le_rfl
  within := buf.prepended.trans (buf.ordered.trans buf.within)

def retrieve : Buffer :=
  if less : len < buf.readableBytes then
    { buf with
      readerIndex := buf.readerIndex + len
      prepended := buf.prepended.trans (Nat.le_add_right _ _)
      ordered := Nat.add_le_of_le_sub' buf.ordered less.le }
  else buf.retrieveAll

theorem peek_length : buf.peek.length = buf.readableBytes := by
  simp [peek, readableBytes, buf.within]

/-- The vector grows, or the readable bytes move to its front. -/
def makeSpace : Buffer :=
  if buf.writableBytes + buf.prependableBytes < len + kCheapPrepend then
    { buf with
      buffer := resize buf.buffer (buf.writerIndex + len)
      within := (Nat.le_add_right _ _).trans (resize_length _ _).ge }
  else
    { buffer := copyTo buf.buffer buf.peek kCheapPrepend
      readerIndex := kCheapPrepend
      writerIndex := kCheapPrepend + buf.peek.length
      prepended := le_rfl
      ordered := Nat.le_add_right _ _
      within := (le_max_left _ _).trans
        (copyTo_length (buf.prepended.trans (buf.ordered.trans buf.within))).ge }

def ensureWritableBytes : Buffer :=
  if buf.writableBytes < len then buf.makeSpace len else buf

def append : Buffer :=
  let buf := buf.ensureWritableBytes data.length
  { buf with
    buffer := copyTo buf.buffer data buf.writerIndex
    writerIndex := buf.writerIndex + data.length
    ordered := buf.ordered.trans (Nat.le_add_right _ _)
    within := (le_max_left _ _).trans (copyTo_length buf.within).ge }

variable {buf len}

@[simp] theorem new_peek : new.peek = [] := rfl

theorem retrieve_peek : (buf.retrieve len).peek = buf.peek.drop len := by
  unfold retrieve
  split
  case isTrue => simp [peek, drop_drop]
  case isFalse enough =>
    rw [drop_eq_nil_of_le (buf.peek_length ▸ Nat.le_of_not_lt enough)]
    simp [peek, retrieveAll]

theorem makeSpace_peek : (buf.makeSpace len).peek = buf.peek := by
  unfold makeSpace
  split
  case isTrue => simp only [peek, resize_take (Nat.le_add_right _ _) buf.within]
  case isFalse =>
    have room : kCheapPrepend ≤ buf.buffer.length :=
      buf.prepended.trans (buf.ordered.trans buf.within)
    rw [peek, copyTo_take room]
    exact drop_left' (by simp [room])

/-- The assertion of `ensureWritableBytes`, and that it moves bytes without changing them. -/
theorem ensureWritableBytes_spec : len ≤ (buf.ensureWritableBytes len).writableBytes ∧
    (buf.ensureWritableBytes len).peek = buf.peek := by
  unfold ensureWritableBytes
  split
  case isFalse enough => exact ⟨Nat.le_of_not_lt enough, rfl⟩
  case isTrue short =>
    refine ⟨?_, makeSpace_peek⟩
    unfold makeSpace
    split
    case isTrue => simp [writableBytes, resize_length]
    case isFalse enough =>
      have ordered := buf.ordered
      have within := buf.within
      simp only [writableBytes, prependableBytes] at enough
      simp only [writableBytes, copyTo_length (buf.prepended.trans (ordered.trans within)),
        peek_length, readableBytes]
      omega

theorem append_peek : (buf.append data).peek = buf.peek ++ data := by
  have ready : (buf.ensureWritableBytes data.length).peek = buf.peek := ensureWritableBytes_spec.2
  rw [append, peek, copyTo_take (Buffer.within _), drop_append_of_le_length, ← ready, peek]
  simp [Buffer.ordered, Buffer.within]

end Buffer

end CodeReading.Muduo
