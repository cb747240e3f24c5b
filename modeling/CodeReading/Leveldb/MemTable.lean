import CodeReading.Leveldb.DbFormat
import CodeReading.Leveldb.WriteBatch
import Mathlib.Data.List.MinMax
import Mathlib.Data.List.Sort

/-!
# What a snapshot sees, and memtables

`newest` says what a user key reads as in any collection of items: of the entries
that the snapshot sees, the one with the greatest sequence number. It does not
depend on how the items are stored. A seek in sorted items arrives at exactly that
entry, which is the specification of `lookup`.

A memtable keeps its items in the order of internal keys. `insertInto` adds what a
batch holds, one sequence number per update.
-/

namespace CodeReading.Leveldb

open List

variable {Key Value : Type}

/-- What an entry stands for: its value, or nothing when it is a deletion. -/
def Item.content (item : Item Key Value) : Option Value :=
  match item.key.type with
  | .value => some item.value
  | .deletion => none

/-- What `MemTableInserter` hands to `MemTable::Add` for an update. A deletion
carries the empty slice as its value. -/
def Entry.item [Inhabited Value] (entry : Entry Key Value) : Item Key Value :=
  match entry.update with
  | .put key value => ⟨⟨key, entry.sequence, .value⟩, value⟩
  | .delete key => ⟨⟨key, entry.sequence, .deletion⟩, default⟩

@[simp] theorem item_sequence [Inhabited Value] (entry : Entry Key Value) :
    entry.item.key.sequence = entry.sequence := by
  obtain ⟨sequence, update⟩ := entry
  cases update <;> rfl

variable [LinearOrder Key]

/-- The entries of a user key that a snapshot sees. -/
def visible (userKey : Key) (sequence : Nat) (item : Item Key Value) : Bool :=
  decide (item.key.userKey = userKey ∧ item.key.sequence ≤ sequence)

def newest (items : List (Item Key Value)) (userKey : Key) (sequence : Nat) :
    Option (Item Key Value) :=
  (items.filter (visible userKey sequence)).argmin Item.key

/-- The view of a snapshot: the value of the newest entry it sees, if that is not a
deletion. -/
def view (items : List (Item Key Value)) (userKey : Key) (sequence : Nat) : Option Value :=
  (newest items userKey sequence).bind Item.content

theorem visible_iff (userKey : Key) (sequence : Nat) (item : Item Key Value) :
    visible userKey sequence item = true ↔
      item.key.userKey = userKey ∧ item.key.sequence ≤ sequence := by
  simp [visible]

variable {items : List (Item Key Value)} {sequence : Nat} {userKey : Key}

theorem newest_none : newest items userKey sequence = none ↔
      ∀ item ∈ items, ¬ (item.key.userKey = userKey ∧ item.key.sequence ≤ sequence) := by
  rw [newest, argmin_eq_none, filter_eq_nil_iff]
  constructor
  · intro unseen item member seen
    exact unseen item member ((visible_iff userKey sequence item).mpr seen)
  · intro unseen item member seen
    exact unseen item member ((visible_iff userKey sequence item).mp seen)

variable {item : Item Key Value}

theorem newest_some (found : newest items userKey sequence = some item) :
    item ∈ items ∧ (item.key.userKey = userKey ∧ item.key.sequence ≤ sequence) ∧
      ∀ other ∈ items, other.key.userKey = userKey → other.key.sequence ≤ sequence →
        item.key ≤ other.key := by
  have member := mem_filter.mp (argmin_mem found)
  refine ⟨member.1, (visible_iff userKey sequence item).mp member.2, ?_⟩
  intro other inside same older
  apply le_of_mem_argmin _ found
  exact mem_filter.mpr ⟨inside, (visible_iff userKey sequence other).mpr ⟨same, older⟩⟩

/-- No two different items share an internal key. -/
def Distinct (items : List (Item Key Value)) : Prop :=
  ∀ left ∈ items, ∀ right ∈ items, left.key = right.key → left = right

theorem newest_eq (distinct : Distinct items) (member : item ∈ items)
    (same : item.key.userKey = userKey) (older : item.key.sequence ≤ sequence)
    (least : ∀ other ∈ items, other.key.userKey = userKey → other.key.sequence ≤ sequence → item.key
      ≤ other.key) : newest items userKey sequence = some item := by
  cases found : newest items userKey sequence with
  | none => exact absurd ⟨same, older⟩ (newest_none.mp found item member)
  | some other =>
    obtain ⟨inside, ⟨sameUser, olderToo⟩, below⟩ := newest_some found
    have keys : other.key = item.key :=
      le_antisymm (below item member same older) (least other inside sameUser olderToo)
    rw [distinct other inside item member keys]

theorem sorted_distinct (sorted : Sorted items) : Distinct items :=
  inj_on_of_nodup_map (pairwise_map.mpr (sorted.imp ne_of_lt))

/-- What the reader is told about the newest entry. -/
def SaverState.ofNewest : Option (Item Key Value) → SaverState Value
  | none => .notFound
  | some item =>
      match item.key.type with
      | .value => .found item.value
      | .deletion => .deleted

theorem lookup_newest (sorted : Sorted items) (userKey : Key) (sequence : Nat) :
    lookup items userKey sequence = SaverState.ofNewest (newest items userKey sequence) := by
  induction items with
  | nil => rfl
  | cons head rest ih =>
    obtain ⟨before, later⟩ := pairwise_cons.mp sorted
    have first : ∀ other ∈ head :: rest, head.key ≤ other.key := by
      intro other member
      rcases mem_cons.mp member with rfl | behind
      · exact le_refl _
      · exact (before other behind).le
    have reaches := lookupKey_le userKey sequence head.key
    by_cases reached : lookupKey userKey sequence ≤ head.key
    · rw [lookup, find?_cons, decide_eq_true reached]
      rcases reaches.mp reached with beyond | ⟨same, older⟩
      · have nothing : newest (head :: rest) userKey sequence = none := by
          rw [newest_none]
          rintro other member ⟨sameUser, _⟩
          exact (beyond.trans_le (userKey_mono (first other member))).ne' sameUser
        rw [nothing]
        exact if_neg beyond.ne'
      · rw [newest_eq (sorted_distinct sorted) (.head _) same.symm older
          fun other member _ _ => first other member]
        exact if_pos same.symm
    · -- a seek passes over an entry that the snapshot does not see
      have unseen : ¬ visible userKey sequence head = true := by
        rintro seen
        obtain ⟨same, older⟩ := (visible_iff userKey sequence head).mp seen
        exact reached (reaches.mpr (Or.inr ⟨same.symm, older⟩))
      rw [lookup, find?_cons, decide_eq_false reached, newest, filter_cons_of_neg unseen]
      exact ih later

/-- A memtable: what its iterator yields. -/
abbrev MemTable (Key Value : Type) := List (Item Key Value)

def MemTable.add (mem : MemTable Key Value) (item : Item Key Value) : MemTable Key Value :=
  mem.orderedInsert (fun left right => left.key ≤ right.key) item

/-- `WriteBatchInternal::InsertInto`: the updates of a batch with a sequence number. -/
def insertInto [Inhabited Value] (sequence : Nat) (updates : List (Update Key Value))
    (mem : MemTable Key Value) : MemTable Key Value :=
  ((number sequence updates).map Entry.item).foldl MemTable.add mem

theorem add_perm (mem : MemTable Key Value) (item : Item Key Value) :
    (mem.add item).Perm (item :: mem) :=
  perm_orderedInsert _ item mem

theorem foldl_add_perm (mem : MemTable Key Value) (items : List (Item Key Value)) :
    (items.foldl MemTable.add mem).Perm (mem ++ items) := by
  induction items generalizing mem with
  | nil => simp
  | cons item rest ih =>
    rw [foldl_cons]
    refine (ih (mem.add item)).trans ?_
    refine ((add_perm mem item).append_right rest).trans ?_
    exact perm_middle.symm

theorem insertInto_perm [Inhabited Value] (sequence : Nat) (updates : List (Update Key Value))
    (mem : MemTable Key Value) :
    (insertInto sequence updates mem).Perm
      (mem ++ (number sequence updates).map Entry.item) :=
  foldl_add_perm mem _

theorem add_ordered {mem : MemTable Key Value} (item : Item Key Value)
    (ordered : mem.Pairwise fun left right => left.key ≤ right.key) :
    (mem.add item).Pairwise fun left right => left.key ≤ right.key := by
  exact List.Pairwise.orderedInsert item mem ordered

theorem add_sorted {mem : MemTable Key Value} (sorted : Sorted mem)
    (fresh : ∀ other ∈ mem, other.key ≠ item.key) : Sorted (mem.add item) := by
  have weakly := add_ordered item (sorted.imp fun less => less.le)
  have apart : (mem.add item).Pairwise fun left right => left.key ≠ right.key := by
    refine ((add_perm mem item).symm.pairwise ?_ fun differ => differ.symm)
    refine pairwise_cons.mpr ⟨fun other member => (fresh other member).symm, ?_⟩
    exact sorted.imp fun less => less.ne
  exact (weakly.and apart).imp fun both => lt_of_le_of_ne both.1 both.2

theorem insertInto_sorted [Inhabited Value] {sequence : Nat} {mem : MemTable Key Value}
    (sorted : Sorted mem) (older : ∀ item ∈ mem, item.key.sequence < sequence) :
    Sorted (insertInto sequence updates mem) := by
  induction updates generalizing sequence mem with
  | nil => exact sorted
  | cons update rest ih =>
    apply ih
    · apply add_sorted sorted
      intro other member same
      have before := older other member
      rw [same, item_sequence] at before
      exact lt_irrefl _ before
    · intro item member
      rcases mem_cons.mp ((add_perm _ _).mem_iff.mp member) with rfl | old
      · simp
      · have before := older item old
        omega

end CodeReading.Leveldb
