import CodeReading.Leveldb.Coding

/-!
# Write batches

A batch is a header, with a sequence number and a count, and a sequence of encoded
updates. Batches built by `Put`, `Delete` and `Append` keep the count equal to the
number of updates, so the model keeps the updates and derives the bytes. The count
is an `int`; that it does not wrap is carried by the type.
-/

namespace CodeReading.Leveldb

open List

/-- One operation of a batch, as the handler of `Iterate` sees it. -/
inductive Update (Key Value : Type) where
  | put (key : Key) (value : Value)
  | delete (key : Key)
deriving DecidableEq, Repr

/-- An update on the slices that a batch stores. -/
abbrev ByteUpdate := Update Bytes Bytes

/-- What `Put` and `Delete` append to the representation. -/
def Update.encode : ByteUpdate → Bytes
  | .put key value => 1 :: (putLengthPrefixedSlice key ++ putLengthPrefixedSlice value)
  | .delete key => 0 :: putLengthPrefixedSlice key

/-- `kHeader`: eight bytes of sequence number and four of count. -/
def kHeader : Nat := 12

/-- A `WriteBatch`, without the sequence number that its leader stamps on it. -/
structure WriteBatch where
  updates : List ByteUpdate
  bounded : updates.length < 2 ^ 31
deriving DecidableEq, Repr

/-- The representation `rep_` of updates under a sequence number. -/
def batchContents (sequence : Nat) (updates : List ByteUpdate) : Bytes :=
  encodeFixed64 (UInt64.ofNat sequence) ++ encodeFixed32 (UInt32.ofNat updates.length) ++
    updates.flatMap Update.encode

/-- `WriteBatchInternal::ByteSize`. It does not depend on the sequence number. -/
def WriteBatch.byteSize (batch : WriteBatch) : Nat := (batchContents 0 batch.updates).length

theorem encode_length (update : ByteUpdate) : 2 ≤ update.encode.length := by
  cases update with
  | put key _ | delete key =>
    have keyed := encodeVarint32_pos (UInt32.ofNat key.length)
    simp only [Update.encode, putLengthPrefixedSlice, length_cons, length_append]
    omega

theorem encoded_length (updates : List ByteUpdate) :
    2 * updates.length ≤ (updates.flatMap Update.encode).length := by
  induction updates with
  | nil => exact Nat.le_refl _
  | cons update rest ih =>
    have head := encode_length update
    simp only [flatMap_cons, length_append, length_cons]
    omega

theorem byteSize_updates (batch : WriteBatch) :
    kHeader + 2 * batch.updates.length ≤ batch.byteSize := by
  have body := encoded_length batch.updates
  have head : (encodeFixed64 (UInt64.ofNat 0) ++
      encodeFixed32 (UInt32.ofNat batch.updates.length)).length = kHeader := rfl
  rw [WriteBatch.byteSize, batchContents, length_append, head]
  omega

/-- `MemTable::Add`: one update under its sequence number. -/
structure Entry (Key Value : Type) where
  sequence : Nat
  update : Update Key Value
deriving DecidableEq, Repr

abbrev ByteEntry := Entry Bytes Bytes

variable {Key Value : Type}

/-- What `MemTableInserter` adds for a batch: the sequence number grows with every
update. -/
def number : Nat → List (Update Key Value) → List (Entry Key Value)
  | _, [] => []
  | sequence, update :: rest => ⟨sequence, update⟩ :: number (sequence + 1) rest

theorem number_append (sequence : Nat) (left right : List (Update Key Value)) :
    number sequence (left ++ right) =
      number sequence left ++ number (sequence + left.length) right := by
  induction left generalizing sequence with
  | nil => rfl
  | cons update rest ih =>
    simp only [cons_append, number, ih, length_cons]
    rw [Nat.add_assoc, Nat.add_comm 1]

@[simp] theorem number_length (sequence : Nat) (updates : List (Update Key Value)) :
    (number sequence updates).length = updates.length := by
  induction updates generalizing sequence with
  | nil => rfl
  | cons update rest ih => simp [number, ih]

theorem number_bounds {sequence : Nat} (mem : entry ∈ number sequence updates) :
    sequence ≤ entry.sequence ∧ entry.sequence < sequence + updates.length := by
  induction updates generalizing sequence with
  | nil => cases mem
  | cons update rest ih =>
    rcases mem_cons.mp mem with rfl | later
    · simp
    · have bounds := ih later
      simp only [length_cons]
      omega

end CodeReading.Leveldb
