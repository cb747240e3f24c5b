import CodeReading.Cursor
import CodeReading.Leveldb.MemTable
import Mathlib.Data.List.Dedup

/-!
# The iterator of the database

`DBIter` walks over an iterator of internal keys and shows one entry per user key: the
newest that its snapshot sees, unless it is a deletion. Moving forward, the inner iterator
stands on the entry shown. Moving backward, the entry shown is saved, and the inner
iterator stands before everything visible of that user key. A change of direction has to
pass from one position to the other.

The loops run over the inner iterator, which may be any, so they are given a limit. A
limit above the number of entries is never reached.
-/

namespace CodeReading.Leveldb

open Cursor List

variable {State Key Value : Type} [LinearOrder Key]

inductive Direction where
  | forward
  | reverse
deriving DecidableEq, Repr

/-- `DBIter`. The saved key and value are strings that are empty when cleared, here absent.
The sampling of reads is left out. -/
structure DbIter (State Key Value : Type) where
  iter : State
  savedKey : Option Key
  savedValue : Option Value
  direction : Direction
  valid : Bool

section

variable (inner : Iterator State (InternalKey Key) (Item Key Value)) (sequence limit : Nat)

/-- The loop of `FindNextUserEntry`. The key to skip past is absent as long as nothing is
skipped. The result tells whether an entry was found. -/
def findNextUserEntry : Nat → State → Option Key → State × Bool
  | 0, iter, _ => (iter, false)
  | limit + 1, iter, skip =>
      match inner.entry iter with
      | none => (iter, false)
      | some item =>
          if item.key.sequence ≤ sequence then
            match item.key.type with
            | .deletion => findNextUserEntry limit (inner.next iter) (some item.key.userKey)
            | .value =>
                if skip.any fun key => decide (item.key.userKey ≤ key) then
                  findNextUserEntry limit (inner.next iter) skip
                else (iter, true)
          else findNextUserEntry limit (inner.next iter) skip

/-- The search for the next entry, once the inner iterator has been moved. -/
def DbIter.scanForward (it : DbIter State Key Value) (iter : State) (skip : Option Key) :
    DbIter State Key Value :=
  let found := findNextUserEntry inner sequence limit iter skip
  { it with iter := found.1, savedKey := none, direction := .forward, valid := found.2 }

def DbIter.next (it : DbIter State Key Value) : DbIter State Key Value :=
  match it.direction with
  | .reverse =>
      let iter :=
        if (inner.entry it.iter).isSome then inner.next it.iter else inner.seekToFirst it.iter
      if (inner.entry iter).isSome then it.scanForward inner sequence limit iter it.savedKey
      else { it with iter := iter, savedKey := none, direction := .forward, valid := false }
  | .forward =>
      let saved := (inner.entry it.iter).map fun item => item.key.userKey
      let iter := inner.next it.iter
      if (inner.entry iter).isSome then it.scanForward inner sequence limit iter saved
      else { it with iter := iter, savedKey := none, valid := false }

/-- What the loop of `FindPrevUserEntry` keeps. -/
structure PrevScan (State Key Value : Type) where
  iter : State
  valueType : ValueType
  savedKey : Option Key
  savedValue : Option Value

def findPrevLoop : Nat → PrevScan State Key Value → PrevScan State Key Value
  | 0, scan => scan
  | limit + 1, scan =>
      match inner.entry scan.iter with
      | none => scan
      | some item =>
          if item.key.sequence ≤ sequence then
            if scan.valueType ≠ .deletion ∧
                scan.savedKey.any fun key => decide (item.key.userKey < key) then scan
            else
              match item.key.type with
              | .deletion => findPrevLoop limit ⟨inner.prev scan.iter, .deletion, none, none⟩
              | .value => findPrevLoop limit
                  ⟨inner.prev scan.iter, .value, some item.key.userKey, some item.value⟩
          else findPrevLoop limit { scan with iter := inner.prev scan.iter }

def DbIter.findPrevUserEntry (it : DbIter State Key Value) : DbIter State Key Value :=
  let scan := findPrevLoop inner sequence limit ⟨it.iter, .deletion, it.savedKey, it.savedValue⟩
  match scan.valueType with
  | .deletion => ⟨scan.iter, none, none, .forward, false⟩
  | .value => ⟨scan.iter, scan.savedKey, scan.savedValue, it.direction, true⟩

/-- The loop of `Prev` that leaves the entries of the current user key. The result tells
whether it arrived at another one. -/
def leaveKey (saved : Option Key) : Nat → State → State × Bool
  | 0, iter => (iter, false)
  | limit + 1, iter =>
      let moved := inner.prev iter
      match inner.entry moved with
      | none => (moved, false)
      | some item =>
          if saved.any fun key => decide (item.key.userKey < key) then (moved, true)
          else leaveKey saved limit moved

def DbIter.prev (it : DbIter State Key Value) : DbIter State Key Value :=
  match it.direction with
  | .forward =>
      let saved := (inner.entry it.iter).map fun item => item.key.userKey
      let left := leaveKey inner saved limit it.iter
      if left.2 then
        DbIter.findPrevUserEntry inner sequence limit
          { it with iter := left.1, savedKey := saved, direction := .reverse }
      else { it with iter := left.1, savedKey := none, savedValue := none, valid := false }
  | .reverse => it.findPrevUserEntry inner sequence limit

/-- `DBIter::Seek`. The encoded key that is sought stands in `saved_key_` for a while; no
user key is there then. -/
def DbIter.seek (target : Key) (it : DbIter State Key Value) : DbIter State Key Value :=
  let iter := inner.seek (lookupKey target sequence) it.iter
  let cleared : DbIter State Key Value :=
    { it with iter := iter, savedKey := none, savedValue := none, direction := .forward }
  if (inner.entry iter).isSome then cleared.scanForward inner sequence limit iter none
  else { cleared with valid := false }

def DbIter.seekToFirst (it : DbIter State Key Value) : DbIter State Key Value :=
  let iter := inner.seekToFirst it.iter
  let cleared : DbIter State Key Value :=
    { it with iter := iter, savedValue := none, direction := .forward }
  if (inner.entry iter).isSome then cleared.scanForward inner sequence limit iter none
  else { cleared with valid := false }

def DbIter.seekToLast (it : DbIter State Key Value) : DbIter State Key Value :=
  DbIter.findPrevUserEntry inner sequence limit
    { it with iter := inner.seekToLast it.iter, savedValue := none, direction := .reverse }

/-- `DBIter::Valid`, `key` and `value`. -/
def DbIter.entry (it : DbIter State Key Value) : Option (Key × Value) :=
  if it.valid then
    match it.direction with
    | .forward => (inner.entry it.iter).map fun item => (item.key.userKey, item.value)
    | .reverse => it.savedKey.bind fun key => it.savedValue.map fun value => (key, value)
  else none

def dbIterator : Iterator (DbIter State Key Value) Key (Key × Value) where
  entry := DbIter.entry inner
  seekToFirst := DbIter.seekToFirst inner sequence limit
  seekToLast := DbIter.seekToLast inner sequence limit
  seek := DbIter.seek inner sequence limit
  next := DbIter.next inner sequence limit
  prev := DbIter.prev inner sequence limit

end

def DbIter.start (iter : State) : DbIter State Key Value := ⟨iter, none, none, .forward, false⟩

section

/-- The sorted map that a snapshot sees: every user key whose newest visible entry is a
value, with that value. -/
def snapshotEntries (items : List (Item Key Value)) (sequence : Nat) : List (Key × Value) :=
  (items.map fun item => item.key.userKey).dedup.filterMap fun userKey =>
    (view items userKey sequence).map fun value => (userKey, value)

variable {items : List (Item Key Value)} {sequence : Nat}

theorem view_member (seen : view items userKey sequence = some value) :
    ∃ item, newest items userKey sequence = some item ∧ item.key.type = .value ∧
      item.value = value := by
  obtain ⟨item, found, content⟩ := Option.bind_eq_some_iff.mp seen
  refine ⟨item, found, ?_⟩
  rw [Item.content] at content
  split at content
  · rename_i isValue
    exact ⟨isValue, Option.some.inj content⟩
  · cases content

theorem snapshotEntries_mem :
    (userKey, value) ∈ snapshotEntries items sequence ↔
      view items userKey sequence = some value := by
  rw [snapshotEntries, mem_filterMap]
  constructor
  · rintro ⟨_, _, found⟩
    obtain ⟨_, seen, same⟩ := Option.map_eq_some_iff.mp found
    obtain ⟨rfl, rfl⟩ := Prod.mk.inj same
    exact seen
  · intro seen
    refine ⟨userKey, ?_, by rw [seen]; rfl⟩
    obtain ⟨item, found, _⟩ := view_member seen
    obtain ⟨mem, ⟨rfl, _⟩, _⟩ := newest_some found
    exact mem_dedup.mpr (mem_map_of_mem mem)

theorem snapshotEntries_ordered (sorted : Sorted items) :
    (snapshotEntries items sequence).Pairwise fun left right => left.1 < right.1 := by
  have weakly : (items.map fun item => item.key.userKey).Pairwise fun left right => left ≤ right :=
    pairwise_map.mpr (sorted.imp fun less => userKey_mono less.le)
  have ordered : (items.map fun item => item.key.userKey).dedup.Pairwise
      fun left right => left < right := by
    have both := (weakly.sublist (dedup_sublist _)).and (nodup_dedup _)
    exact both.imp fun pair => lt_of_le_of_ne pair.1 pair.2
  refine pairwise_filterMap.mpr (ordered.imp ?_)
  intro left right less _ leftFound _ rightFound
  obtain ⟨_, _, rfl⟩ := Option.map_eq_some_iff.mp leftFound
  obtain ⟨_, _, rfl⟩ := Option.map_eq_some_iff.mp rightFound
  exact less

end

end CodeReading.Leveldb
