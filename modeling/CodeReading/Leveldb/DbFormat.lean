import Mathlib.Algebra.Order.Ring.Int
import Mathlib.Data.List.Basic
import Mathlib.Data.Prod.Lex

/-!
# Internal keys

An internal key is a user key with a sequence number and a value type. The two
are packed into one number, eight low bits for the type, and the order of
`InternalKeyComparator` is increasing in the user key and decreasing in that
number. The user comparator is any linear order on the user keys.

Iterators over tables and memtables yield internal keys with their values, here
called items. `lookup` is what both `MemTable::Get` and a table read through
`SaveValue` do with the item a seek arrives at.
-/

namespace CodeReading.Leveldb

/-- `ValueType`, with the codes that are stored. -/
inductive ValueType where
  | deletion
  | value
deriving DecidableEq, Repr

def ValueType.code : ValueType → Nat
  | .deletion => 0
  | .value => 1

/-- `kValueTypeForSeek`: the type with the highest code. -/
def kValueTypeForSeek : ValueType := .value

/-- `kMaxSequenceNumber`: the type takes the eight low bits of a word of 64. -/
def kMaxSequenceNumber : Nat := 2 ^ 56 - 1

def packSequenceAndType (sequence : Nat) (type : ValueType) : Nat :=
  sequence * 256 + type.code

/-- `InternalKey`, parsed. -/
@[ext] structure InternalKey (Key : Type) where
  userKey : Key
  sequence : Nat
  type : ValueType
deriving DecidableEq, Repr

open InternalKey

variable {Key : Type}

/-- The number that the last eight bytes of an encoded key hold. -/
def InternalKey.tag (key : InternalKey Key) : Nat := packSequenceAndType key.sequence key.type

theorem code_le (type : ValueType) : type.code ≤ 1 := by cases type <;> decide

variable {left right : InternalKey Key}

theorem tag_injective (sameUser : left.userKey = right.userKey) (sameTag : left.tag = right.tag) :
    left = right := by
  have leftCode := code_le left.type
  have rightCode := code_le right.type
  simp only [tag, packSequenceAndType] at sameTag
  have sameSequence : left.sequence = right.sequence := by omega
  have sameCode : left.type.code = right.type.code := by omega
  have sameType : left.type = right.type := by
    cases leftType : left.type <;> cases rightType : right.type <;>
      simp [leftType, rightType, ValueType.code] at sameCode ⊢
  exact InternalKey.ext sameUser sameSequence sameType

/-- The position of a key in the order: increasing user key, decreasing tag. -/
def InternalKey.rank (key : InternalKey Key) : Key ×ₗ ℕᵒᵈ :=
  toLex (key.userKey, OrderDual.toDual key.tag)

theorem rank_injective : Function.Injective (@InternalKey.rank Key) := by
  intro left right same
  have both : (left.userKey, OrderDual.toDual left.tag) =
      (right.userKey, OrderDual.toDual right.tag) := toLex.injective same
  have user := congrArg Prod.fst both
  have tagged := OrderDual.toDual.injective (congrArg Prod.snd both)
  exact tag_injective user tagged

variable [LinearOrder Key]

/-- The order of `InternalKeyComparator::Compare`. -/
instance : LinearOrder (InternalKey Key) := LinearOrder.lift' InternalKey.rank rank_injective

theorem InternalKey.lt_iff (left right : InternalKey Key) :
    left < right ↔
      left.userKey < right.userKey ∨ left.userKey = right.userKey ∧ right.tag < left.tag := by
  change left.rank < right.rank ↔ _
  rw [rank, rank, Prod.Lex.toLex_lt_toLex]
  rfl

theorem InternalKey.le_iff (left right : InternalKey Key) :
    left ≤ right ↔
      left.userKey < right.userKey ∨ left.userKey = right.userKey ∧ right.tag ≤ left.tag := by
  change left.rank ≤ right.rank ↔ _
  rw [rank, rank, Prod.Lex.toLex_le_toLex]
  rfl

theorem userKey_mono (le : left ≤ right) : left.userKey ≤ right.userKey := by
  rcases (le_iff left right).mp le with less | ⟨same, _⟩
  · exact less.le
  · exact same.le

theorem lt_of_userKey_lt (less : left.userKey < right.userKey) : left < right :=
  (lt_iff left right).mpr (.inl less)

/-- Among the keys of one user key the order is that of decreasing age. -/
theorem sequence_anti (le : left ≤ right) (same : left.userKey = right.userKey) :
    right.sequence ≤ left.sequence := by
  have leftCode := code_le left.type
  have rightCode := code_le right.type
  rcases (le_iff left right).mp le with less | ⟨_, tagged⟩
  · exact absurd same less.ne
  · simp only [tag, packSequenceAndType] at tagged
    omega

theorem lt_of_newer (same : left.userKey = right.userKey) (newer : right.sequence < left.sequence) :
    left < right := by
  have rightCode := code_le right.type
  refine (lt_iff left right).mpr (.inr ⟨same, ?_⟩)
  simp only [tag, packSequenceAndType]
  omega

/-- `LookupKey::internal_key`: where the entries of a user key that a snapshot can
see begin. -/
def lookupKey (userKey : Key) (sequence : Nat) : InternalKey Key :=
  ⟨userKey, sequence, kValueTypeForSeek⟩

/-- A lookup key comes before exactly the keys of later user keys and the entries
of its own that are not newer than the snapshot. -/
theorem lookupKey_le (userKey : Key) (sequence : Nat) (key : InternalKey Key) :
    lookupKey userKey sequence ≤ key ↔
      userKey < key.userKey ∨ userKey = key.userKey ∧ key.sequence ≤ sequence := by
  have code := code_le key.type
  have seek : kValueTypeForSeek.code = 1 := rfl
  rw [le_iff]
  constructor
  · rintro (less | ⟨same, tagged⟩)
    · exact .inl less
    · refine .inr ⟨same, ?_⟩
      simp only [tag, packSequenceAndType, lookupKey] at tagged
      omega
  · rintro (less | ⟨same, _⟩)
    · exact .inl less
    · refine .inr ⟨same, ?_⟩
      simp only [tag, packSequenceAndType, lookupKey]
      omega

/-- What an iterator yields: an internal key and the value under it. -/
@[ext] structure Item (Key Value : Type) where
  key : InternalKey Key
  value : Value
deriving DecidableEq, Repr

variable {Value : Type}

/-- `SaverState`, with the value saved. A table that cannot be read is `corrupt`. -/
inductive SaverState (Value : Type) where
  | notFound
  | found (value : Value)
  | deleted
  | corrupt
deriving DecidableEq, Repr

/-- `SaveValue`, and the same comparison in `MemTable::Get`: the item a seek
arrived at counts only when it belongs to the user key. -/
def saveValue (userKey : Key) (item : Item Key Value) : SaverState Value :=
  if item.key.userKey = userKey then
    match item.key.type with
    | .value => .found item.value
    | .deletion => .deleted
  else .notFound

/-- A seek to the lookup key in sorted items, and what is saved there. -/
def lookup (items : List (Item Key Value)) (userKey : Key) (sequence : Nat) :
    SaverState Value :=
  match items.find? (fun item => decide (lookupKey userKey sequence ≤ item.key)) with
  | some item => saveValue userKey item
  | none => .notFound

/-- The items of a memtable or a table: strictly increasing internal keys. -/
def Sorted (items : List (Item Key Value)) : Prop :=
  items.Pairwise fun left right => left.key < right.key

end CodeReading.Leveldb
