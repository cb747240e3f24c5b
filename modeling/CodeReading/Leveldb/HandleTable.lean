import Mathlib.Algebra.Order.Ring.Int
import Mathlib.Data.Finset.Option
import Mathlib.Data.Finset.Card
import Mathlib.Data.List.Nodup
import Mathlib.Data.UInt

/-!
# The hash table of the cache

`HandleTable` is an array of chains of handles. The chain of a handle is chosen by the low
bits of its hash. A handle of the same hash and key is replaced in its place, a new one goes
to the end of its chain. When there are more handles than chains, the array is doubled and
every handle is pushed onto its new chain.

A handle is known by its number. What the table reads through the pointer, the hash and the
key, comes from a function that is undefined where nothing is allocated, so that following
a dangling pointer is a failure.
-/

namespace CodeReading.Leveldb

open List Function
open Finset (mem_insert mem_sdiff sdiff_empty)

/-- `HandleTable`. The chains are given by their position in `list_`. -/
structure HandleTable where
  length : UInt32
  elems : UInt32
  list : Nat → List Nat

namespace HandleTable

/-- The position `hash & (length - 1)`. -/
def slot (length hash : UInt32) : Nat := (hash &&& (length - 1)).toNat

section

variable {Key : Type} [DecidableEq Key] (label : Nat → Option (UInt32 × Key))

/-- `FindPointer` in one chain: the handles before the slot it returns, and those from the
slot on. -/
def findPointer (key : Key) (hash : UInt32) : List Nat → Option (List Nat × List Nat)
  | [] => some ([], [])
  | handle :: chain =>
      (label handle).bind fun found =>
        if found.1 ≠ hash ∨ key ≠ found.2 then
          (findPointer key hash chain).map fun cut => (handle :: cut.1, cut.2)
        else some ([], handle :: chain)

section

variable (table : HandleTable)

def lookup (key : Key) (hash : UInt32) : Option (Option Nat) :=
  (findPointer label key hash (table.list (slot table.length hash))).map fun cut => cut.2.head?

/-- The loop of `Resize` that chooses the new length. Doubled thirty times, a number of 32
bits is zero, and the loop does not end. -/
def newLength (elems : UInt32) : Nat → UInt32 → Option UInt32
  | 0, _ => none
  | turns + 1, length => if length < elems then newLength elems turns (length * 2) else some length

/-- The loops of `Resize` that push the handles onto their new chains. -/
def rehash (length : UInt32) : List Nat → (Nat → List Nat) → Option (Nat → List Nat)
  | [], list => some list
  | handle :: rest, list =>
      (label handle).bind fun found =>
        let position := slot length found.1
        rehash length rest (Function.update list position (handle :: list position))

def handles : List Nat :=
  (List.range table.length.toNat).flatMap table.list

/-- `Resize`, with the assertion that the handles are as many as were counted. -/
def resize : Option HandleTable :=
  (newLength table.elems 30 4).bind fun length =>
    (rehash label length table.handles fun _ => []).bind fun list =>
      if table.elems.toNat = table.handles.length then some ⟨length, table.elems, list⟩ else none

/-- `HandleTable::Insert`. The result has the handle that was replaced. -/
protected def insert (handle : Nat) : Option (HandleTable × Option Nat) :=
  (label handle).bind fun found =>
    let position := slot table.length found.1
    (findPointer label found.2 found.1 (table.list position)).bind fun cut =>
      let list := Function.update table.list position (cut.1 ++ handle :: cut.2.tail)
      match cut.2.head? with
      | some old => some ({ table with list := list }, some old)
      | none =>
          let table : HandleTable := { table with list := list, elems := table.elems + 1 }
          if table.elems > table.length then (table.resize label).map fun resized => (resized, none)
          else some (table, none)

def remove (key : Key) (hash : UInt32) : Option (HandleTable × Option Nat) :=
  let position := slot table.length hash
  (findPointer label key hash (table.list position)).map fun cut =>
    match cut.2 with
    | [] => (table, none)
    | result :: rest =>
        ({ table with
            list := Function.update table.list position (cut.1 ++ rest)
            elems := table.elems - 1 }, some result)

end

end

/-- The table that the constructor makes by a first `Resize`. -/
def empty : HandleTable := ⟨4, 0, fun _ => []⟩

section

variable {Key : Type} {label : Nat → Option (UInt32 × Key)} {length : UInt32}
  {list : Nat → List Nat} {members : Finset Nat}

section

variable (label : Nat → Option (UInt32 × Key))

/-- The hash of the handle belongs to the position. -/
def Placed (length : UInt32) (handle position : Nat) : Prop :=
  ∃ found, label handle = some found ∧ slot length found.1 = position

/-- The chains hold the handles of the set, each where its hash says. -/
structure Chained (length : UInt32) (list : Nat → List Nat) (members : Finset Nat) : Prop where
  nodup : ∀ position, (list position).Nodup
  mem : ∀ position handle, handle ∈ list position ↔
    handle ∈ members ∧ Placed label length handle position

/-- The handles can be read, and no two have the same hash and key. -/
structure Labelled (members : Finset Nat) : Prop where
  known : ∀ handle ∈ members, ∃ found, label handle = some found
  unique : ∀ left ∈ members, ∀ right ∈ members, label left = label right → left = right

/-- The table holds the handles of the set. -/
structure Holds (table : HandleTable) (members : Finset Nat) : Prop where
  chained : Chained label table.length table.list members
  labelled : Labelled label members
  elems : table.elems.toNat = members.card
  positive : 0 < table.length.toNat

end

theorem slot_lt (positive : 0 < length.toNat) (hash : UInt32) :
    slot length hash < length.toNat := by
  have bound : slot length hash ≤ (length - 1).toNat := by
    rw [slot, UInt32.toNat_and]
    exact Nat.and_le_right
  have one : (1 : UInt32).toNat = 1 := rfl
  have less : (length - 1).toNat = length.toNat - 1 := by
    rw [UInt32.toNat_sub_of_le _ _ (by rw [UInt32.le_iff_toNat_le, one]; exact positive), one]
  omega

theorem placed_unique (first : Placed label length handle left)
    (second : Placed label length handle right) : left = right := by
  obtain ⟨_, isLabel, rfl⟩ := first
  obtain ⟨_, isOther, rfl⟩ := second
  rw [Option.some.inj (isLabel.symm.trans isOther)]

theorem chained_update (chained : Chained label length list members) (nodup : chain.Nodup)
    (here : ∀ handle, handle ∈ chain ↔ handle ∈ changed ∧ Placed label length handle position)
    (elsewhere : ∀ handle, ¬ Placed label length handle position →
      (handle ∈ changed ↔ handle ∈ members)) :
    Chained label length (update list position chain) changed := by
  constructor
  · intro other
    by_cases same : other = position
    · rw [same, update_self]
      exact nodup
    · rw [update_of_ne same]
      exact chained.nodup other
  · intro other handle
    by_cases same : other = position
    · rw [same, update_self]
      exact here handle
    · rw [update_of_ne same, chained.mem]
      constructor
      · rintro ⟨member, placed⟩
        exact ⟨(elsewhere handle fun atPosition => same (placed_unique placed atPosition)).mpr member,
          placed⟩
      · rintro ⟨member, placed⟩
        exact ⟨(elsewhere handle fun atPosition => same (placed_unique placed atPosition)).mp member,
          placed⟩

theorem chained_push (chained : Chained label length list members)
    (fresh : handle ∉ members) (isLabel : label handle = some found) :
    Chained label length
      (update list (slot length found.1) (handle :: list (slot length found.1)))
      (insert handle members) := by
  have placed : Placed label length handle (slot length found.1) := ⟨found, isLabel, rfl⟩
  apply chained_update chained
  · rw [nodup_cons, chained.mem]
    exact ⟨fun inChain => fresh inChain.1, chained.nodup _⟩
  · intro other
    rw [mem_cons, chained.mem, mem_insert]
    constructor
    · rintro (rfl | inChain)
      · exact ⟨.inl rfl, placed⟩
      · exact ⟨.inr inChain.1, inChain.2⟩
    · rintro ⟨rfl | member, atPosition⟩
      · exact .inl rfl
      · exact .inr ⟨member, atPosition⟩
  · intro other notPlaced
    rw [mem_insert]
    constructor
    · rintro (rfl | member)
      · exact absurd placed notPlaced
      · exact member
    · exact .inr

/-- Rehashing pushes the handles, whatever their order. -/
theorem rehash_chained (nodup : rest.Nodup)
    (known : ∀ handle ∈ rest, ∃ found, label handle = some found)
    (chained : Chained label length list members) (fresh : ∀ handle ∈ rest, handle ∉ members) :
    ∃ pushed, rehash label length rest list = some pushed ∧
      Chained label length pushed (members ∪ rest.toFinset) := by
  induction rest generalizing list members with
  | nil => exact ⟨list, rfl, by simpa using chained⟩
  | cons handle rest ih =>
    obtain ⟨notIn, nodupRest⟩ := nodup_cons.mp nodup
    obtain ⟨found, isLabel⟩ := known handle (.head _)
    have pushed := chained_push chained (fresh handle (.head _)) isLabel
    have freshRest : ∀ other ∈ rest, other ∉ insert handle members := by
      intro other member inserted
      cases mem_insert.mp inserted with
      | inl same => exact notIn (same ▸ member)
      | inr old => exact fresh other (.tail _ member) old
    have later := ih nodupRest
      (fun other member => known other (.tail _ member)) pushed freshRest
    rw [rehash, isLabel, toFinset_cons, Finset.union_insert, ← Finset.insert_union]
    exact later

/-- The handles in the order of the chains are those of the set, each once. -/
theorem handles_members {table : HandleTable} (chained : Chained label table.length table.list members)
    (known : ∀ handle ∈ members, ∃ found, label handle = some found)
    (positive : 0 < table.length.toNat) :
    table.handles.Nodup ∧ table.handles.toFinset = members := by
  constructor
  · rw [handles, nodup_flatMap]
    refine ⟨fun position _ => chained.nodup position, nodup_range.imp ?_⟩
    intro left right different handle inLeft inRight
    have leftPlaced := ((chained.mem left handle).mp inLeft).2
    exact different (placed_unique leftPlaced ((chained.mem right handle).mp inRight).2)
  · ext handle
    rw [mem_toFinset, handles, mem_flatMap]
    constructor
    · rintro ⟨position, _, inChain⟩
      exact ((chained.mem position handle).mp inChain).1
    · intro member
      obtain ⟨found, isLabel⟩ := known handle member
      exact ⟨slot table.length found.1, mem_range.mpr (slot_lt positive _),
        (chained.mem _ _).mpr ⟨member, found, isLabel, rfl⟩⟩

/-- The doubling ends while the count of handles is at most the greatest power of two. -/
theorem newLength_some {elems : UInt32} (few : elems.toNat ≤ 2 ^ 31) (turns : Nat)
    (power : length.toNat * 2 ^ turns = 2 ^ 31) :
    ∃ chosen, newLength elems (turns + 1) length = some chosen ∧ 0 < chosen.toNat := by
  induction turns generalizing length with
  | zero =>
    refine ⟨length, ?_, by omega⟩
    rw [newLength, if_neg]
    rw [UInt32.lt_iff_toNat_lt]
    omega
  | succ turns ih =>
    have half : length.toNat * 2 * 2 ^ turns = 2 ^ 31 := by
      rw [← power, pow_succ', Nat.mul_assoc]
    rw [newLength]
    have doubled : (length * 2).toNat = length.toNat * 2 := by
      rw [UInt32.toNat_mul]
      apply Nat.mod_eq_of_lt
      have two : (2 : UInt32).toNat = 2 := rfl
      have one : 1 ≤ 2 ^ turns := Nat.one_le_two_pow
      have bound : length.toNat * 2 ≤ 2 ^ 31 := by
        rw [← half]
        exact Nat.le_mul_of_pos_right _ one
      rw [two]
      omega
    split
    · apply ih
      rw [doubled, half]
    · refine ⟨length, rfl, ?_⟩
      by_contra none
      have zero : length.toNat = 0 := by omega
      rw [zero] at power
      omega

theorem resize_holds (holds : Holds label table members) (few : members.card ≤ 2 ^ 31) :
    ∃ resized, table.resize label = some resized ∧ Holds label resized members := by
  obtain ⟨nodup, all⟩ := handles_members holds.chained holds.labelled.known holds.positive
  have fewElems : table.elems.toNat ≤ 2 ^ 31 := holds.elems ▸ few
  obtain ⟨length, chosen, positive⟩ := newLength_some fewElems 29
    (show (4 : UInt32).toNat * 2 ^ 29 = 2 ^ 31 by decide)
  have known : ∀ handle ∈ table.handles, ∃ found, label handle = some found := by
    intro handle member
    apply holds.labelled.known
    rw [← all]
    exact mem_toFinset.mpr member
  have none : Chained label length (fun _ => []) ∅ := by
    constructor
    · intro _
      exact nodup_nil
    · simp
  obtain ⟨list, pushed, chained⟩ := rehash_chained nodup known none (by simp)
  rw [Finset.empty_union, all] at chained
  have counted : table.elems.toNat = table.handles.length := by
    rw [holds.elems, ← all, toFinset_card_of_nodup nodup]
  refine ⟨⟨length, table.elems, list⟩, ?_, chained, holds.labelled, holds.elems, positive⟩
  rw [resize, chosen, Option.bind_some, pushed, Option.bind_some, if_pos counted]

end

section

variable {Key : Type} [DecidableEq Key] {label : Nat → Option (UInt32 × Key)}

/-- What `FindPointer` finds in a chain: before the slot nothing matches, at the slot the
handle does, if there is one. -/
theorem findPointer_cut (key : Key) (hash : UInt32)
    (known : ∀ handle ∈ chain, ∃ found, label handle = some found) :
    ∃ before rest, findPointer label key hash chain = some (before, rest) ∧
      before ++ rest = chain ∧ (∀ handle ∈ before, label handle ≠ some (hash, key)) ∧
      ∀ handle ∈ rest.head?, label handle = some (hash, key) := by
  induction chain with
  | nil => exact ⟨[], [], rfl, rfl, by simp, by simp⟩
  | cons handle chain ih =>
    obtain ⟨found, isLabel⟩ := known handle (.head _)
    rw [findPointer, isLabel, Option.bind_some]
    split
    · rename_i differs
      obtain ⟨before, rest, cut, whole, earlier, here⟩ :=
        ih fun other member => known other (.tail _ member)
      refine ⟨handle :: before, rest, by rw [cut]; rfl, by rw [cons_append, whole], ?_, here⟩
      intro other member matching
      cases mem_cons.mp member with
      | inl same =>
        rw [same, isLabel] at matching
        cases matching
        simp at differs
      | inr inBefore => exact earlier other inBefore matching
    · rename_i agrees
      push Not at agrees
      refine ⟨[], handle :: chain, rfl, rfl, by simp, ?_⟩
      rintro _ ⟨⟩
      rw [isLabel, ← agrees.1, agrees.2]

/-- The slot for a key in a table: what `FindPointer` cuts the chain into, and that the
handle at the slot is the one of the key, if the table has one. -/
theorem findPointer_holds (holds : Holds label table members) (key : Key) (hash : UInt32) :
    ∃ before rest,
      findPointer label key hash (table.list (slot table.length hash)) = some (before, rest) ∧
      before ++ rest = table.list (slot table.length hash) ∧
      ∀ handle, rest.head? = some handle ↔
        handle ∈ members ∧ label handle = some (hash, key) := by
  have inChain := holds.chained.mem (slot table.length hash)
  obtain ⟨before, rest, cut, whole, earlier, here⟩ := findPointer_cut key hash
    fun handle member => holds.labelled.known handle ((inChain handle).mp member).1
  refine ⟨before, rest, cut, whole, ?_⟩
  intro handle
  constructor
  · intro isHead
    refine ⟨((inChain handle).mp ?_).1, here handle isHead⟩
    rw [← whole]
    exact mem_append_right _ (mem_of_mem_head? isHead)
  · rintro ⟨member, isLabel⟩
    have listed := (inChain handle).mpr ⟨member, (hash, key), isLabel, rfl⟩
    rw [← whole] at listed
    cases mem_append.mp listed with
    | inl inBefore => exact absurd isLabel (earlier handle inBefore)
    | inr inRest =>
      cases rest with
      | nil => cases inRest
      | cons first rest =>
        -- The first at the slot has the same label, so it is the same handle.
        have firstMember : first ∈ members := by
          refine ((inChain first).mp ?_).1
          rw [← whole]
          exact mem_append_right _ (.head _)
        have firstLabel := here first rfl
        rw [head?_cons, holds.labelled.unique first firstMember handle member
          (firstLabel.trans isLabel.symm)]

theorem lookup_holds (holds : Holds label table members) (key : Key) (hash : UInt32) :
    ∃ result, table.lookup label key hash = some result ∧
      ∀ handle, result = some handle ↔ handle ∈ members ∧ label handle = some (hash, key) := by
  obtain ⟨_, rest, cut, _, found⟩ := findPointer_holds holds key hash
  exact ⟨rest.head?, by rw [lookup, cut]; rfl, found⟩

omit [DecidableEq Key] in
theorem empty_holds (label : Nat → Option (UInt32 × Key)) : Holds label empty ∅ := by
  constructor
  · exact ⟨fun _ => nodup_nil, by simp [empty]⟩
  · exact ⟨by simp, by simp⟩
  · rfl
  · decide

omit [DecidableEq Key] in
/-- Only the labels of its own handles matter to a table. -/
theorem holds_congr (holds : Holds label table members)
    (same : ∀ handle ∈ members, other handle = label handle) : Holds other table members := by
  constructor
  · constructor
    · exact holds.chained.nodup
    · intro _ handle
      rw [holds.chained.mem]
      apply and_congr_right
      intro member
      rw [Placed, Placed, same handle member]
  · constructor
    · intro handle member
      rw [same handle member]
      exact holds.labelled.known handle member
    · intro left inLeft right inRight
      rw [same left inLeft, same right inRight]
      exact holds.labelled.unique left inLeft right inRight
  · exact holds.elems
  · exact holds.positive

omit [DecidableEq Key] in
theorem labelled_subset (labelled : Labelled label members)
    (subset : fewer ⊆ members) : Labelled label fewer := by
  constructor
  · intro handle member
    exact labelled.known handle (subset member)
  · intro left inLeft right inRight same
    exact labelled.unique left (subset inLeft) right (subset inRight) same

omit [DecidableEq Key] in
theorem labelled_insert (labelled : Labelled label members)
    (isLabel : label handle = some found) (apart : ∀ other ∈ members, label other ≠ some found) :
    Labelled label (insert handle members) := by
  constructor
  · intro other member
    cases mem_insert.mp member with
    | inl same => exact ⟨found, same ▸ isLabel⟩
    | inr old => exact labelled.known other old
  · intro left inLeft right inRight same
    cases mem_insert.mp inLeft with
    | inl leftIs =>
      cases mem_insert.mp inRight with
      | inl rightIs => rw [leftIs, rightIs]
      | inr old =>
        rw [leftIs, isLabel] at same
        exact absurd same.symm (apart right old)
    | inr oldLeft =>
      cases mem_insert.mp inRight with
      | inl rightIs =>
        rw [rightIs, isLabel] at same
        exact absurd same (apart left oldLeft)
      | inr oldRight => exact labelled.unique left oldLeft right oldRight same

/-- Leaving out the head of the second part of a chain. -/
theorem tail_mem {before rest : List Nat} (nodup : (before ++ rest).Nodup) (handle : Nat) :
    handle ∈ before ++ rest.tail ↔ handle ∈ before ++ rest ∧ handle ∉ rest.head?.toFinset := by
  cases rest with
  | nil => simp
  | cons first rest =>
    obtain ⟨_, nodupRest, apart⟩ := nodup_append.mp nodup
    simp only [tail_cons, mem_append, mem_cons, head?_cons,
      Option.toFinset_some, Finset.mem_singleton]
    constructor
    · rintro (inBefore | inRest)
      · exact ⟨.inl inBefore, apart handle inBefore first (.head _)⟩
      · refine ⟨.inr (.inr inRest), ?_⟩
        rintro rfl
        exact (nodup_cons.mp nodupRest).1 inRest
    · rintro ⟨inBefore | same | inRest, different⟩
      · exact .inl inBefore
      · exact absurd same different
      · exact .inr inRest

omit [DecidableEq Key] in
/-- The head of the second part of a chain makes way for new handles, none or one. -/
theorem chained_replace {length : UInt32} {list : Nat → List Nat}
    (chained : Chained label length list members)
    (whole : before ++ rest = list position) (added : Option Nat)
    (fresh : ∀ handle ∈ added, handle ∉ members ∧ Placed label length handle position) :
    Chained label length (Function.update list position (before ++ (added.toList ++ rest.tail)))
      (added.toFinset ∪ members \ rest.head?.toFinset) := by
  have nodup : (before ++ rest).Nodup := whole ▸ chained.nodup position
  have inChain : ∀ handle, handle ∈ before ++ rest.tail ↔
      (handle ∈ members ∧ Placed label length handle position) ∧ handle ∉ rest.head?.toFinset := by
    intro handle
    rw [tail_mem nodup, whole, chained.mem]
  have perm : (before ++ (added.toList ++ rest.tail)).Perm
      (added.toList ++ (before ++ rest.tail)) := by
    rw [← append_assoc, ← append_assoc]
    exact perm_append_comm.append_right _
  apply chained_update chained
  · rw [perm.nodup_iff, nodup_append]
    refine ⟨by cases added <;> simp, nodup.sublist ?_, ?_⟩
    · exact (tail_sublist rest).append_left before
    · intro handle isAdded other inOld same
      have new := (fresh handle (Option.mem_toList.mp isAdded)).1
      exact new (same ▸ ((inChain other).mp inOld).1.1)
  · intro handle
    rw [perm.mem_iff, mem_append, inChain, Finset.mem_union, mem_sdiff]
    simp only [Option.mem_toFinset, Option.mem_toList]
    constructor
    · rintro (isAdded | ⟨⟨member, placed⟩, notHead⟩)
      · exact ⟨Or.inl isAdded, (fresh handle isAdded).2⟩
      · exact ⟨Or.inr ⟨member, notHead⟩, placed⟩
    · rintro ⟨isAdded | ⟨member, notHead⟩, placed⟩
      · exact Or.inl isAdded
      · exact Or.inr ⟨⟨member, placed⟩, notHead⟩
  · intro handle notPlaced
    rw [Finset.mem_union, mem_sdiff, Option.mem_toFinset]
    constructor
    · rintro (isAdded | ⟨member, _⟩)
      · exact absurd (fresh handle isAdded).2 notPlaced
      · exact member
    · intro member
      refine Or.inr ⟨member, ?_⟩
      intro isHead
      rw [Option.mem_toFinset] at isHead
      apply notPlaced
      refine ((chained.mem position handle).mp ?_).2
      rw [← whole]
      exact mem_append_right _ (mem_of_mem_head? isHead)

theorem remove_holds (holds : Holds label table members) (key : Key) (hash : UInt32) :
    ∃ removed result, table.remove label key hash = some (removed, result) ∧
      (∀ handle, result = some handle ↔ handle ∈ members ∧ label handle = some (hash, key)) ∧
      Holds label removed (members \ result.toFinset) := by
  obtain ⟨_, rest, cut, whole, found⟩ := findPointer_holds holds key hash
  have labelled := labelled_subset holds.labelled (Finset.sdiff_subset (t := rest.head?.toFinset))
  have chained := chained_replace holds.chained whole none (by simp)
  rw [Option.toFinset_none, Finset.empty_union] at chained
  simp only [HandleTable.remove, cut, Option.map_some]
  cases rest with
  | nil =>
    refine ⟨table, none, rfl, found, ?_⟩
    rw [Option.toFinset_none, sdiff_empty]
    exact holds
  | cons result rest =>
    refine ⟨_, some result, rfl, found, chained, labelled, ?_, holds.positive⟩
    have member := ((found result).mp rfl).1
    have count : (members \ (some result).toFinset).card = members.card - 1 := by
      rw [Option.toFinset_some, Finset.sdiff_singleton_eq_erase, Finset.card_erase_of_mem member]
    have positive := Finset.card_pos.mpr ⟨result, member⟩
    have one : (1 : UInt32).toNat = 1 := rfl
    rw [count, UInt32.toNat_sub_of_le, one, holds.elems]
    rw [UInt32.le_iff_toNat_le, one, holds.elems]
    exact positive

theorem insert_holds (holds : Holds label table members) (few : members.card < 2 ^ 31)
    (fresh : handle ∉ members) (isLabel : label handle = some found) :
    ∃ inserted result, table.insert label handle = some (inserted, result) ∧
      (∀ old, result = some old ↔ old ∈ members ∧ label old = some found) ∧
      Holds label inserted (insert handle (members \ result.toFinset)) := by
  obtain ⟨before, rest, cut, whole, matching⟩ := findPointer_holds holds found.2 found.1
  have placed : Placed label table.length handle (slot table.length found.1) := ⟨found, isLabel, rfl⟩
  have chained := chained_replace holds.chained whole (some handle) (by
    rintro _ ⟨⟩
    exact ⟨fresh, placed⟩)
  rw [Option.toFinset_some, ← Finset.insert_eq] at chained
  have labelled : Labelled label (insert handle (members \ rest.head?.toFinset)) := by
    apply labelled_insert
      (labelled_subset holds.labelled (Finset.sdiff_subset (t := rest.head?.toFinset))) isLabel
    intro other member same
    obtain ⟨inMembers, notHead⟩ := mem_sdiff.mp member
    exact notHead (Option.mem_toFinset.mpr ((matching other).mpr ⟨inMembers, same⟩))
  have notLeft : handle ∉ members \ rest.head?.toFinset := by
    intro member
    exact fresh (mem_sdiff.mp member).1
  simp only [HandleTable.insert, isLabel, Option.bind_some, cut]
  cases rest with
  | nil =>
    have count : (table.elems + 1).toNat = (insert handle members).card := by
      have one : (1 : UInt32).toNat = 1 := rfl
      rw [Finset.card_insert_of_notMem fresh, UInt32.toNat_add, one, holds.elems]
      omega
    rw [head?_nil, Option.toFinset_none, sdiff_empty] at chained labelled
    have grown : Holds label
        ⟨table.length, table.elems + 1, update table.list (slot table.length found.1)
          (before ++ handle :: [])⟩ (insert handle members) :=
      ⟨chained, labelled, count, holds.positive⟩
    simp only [head?_nil, tail_nil]
    split
    · have room : (insert handle members).card ≤ 2 ^ 31 := by
        rw [Finset.card_insert_of_notMem fresh]
        exact few
      obtain ⟨resized, isResized, _⟩ := resize_holds grown room
      refine ⟨resized, none, by rw [isResized]; rfl, matching, ?_⟩
      rwa [Option.toFinset_none, sdiff_empty]
    · refine ⟨_, none, rfl, matching, ?_⟩
      rwa [Option.toFinset_none, sdiff_empty]
  | cons old rest =>
    refine ⟨_, some old, rfl, matching, chained, labelled, ?_, holds.positive⟩
    have member := ((matching old).mp rfl).1
    have positive := Finset.card_pos.mpr ⟨old, member⟩
    rw [head?_cons] at notLeft
    rw [Finset.card_insert_of_notMem notLeft, Option.toFinset_some,
      Finset.sdiff_singleton_eq_erase, Finset.card_erase_of_mem member, holds.elems]
    omega

end

end HandleTable

end CodeReading.Leveldb
