import Mathlib.Algebra.Order.Ring.Int

/-!
# The bounded queue

`butil::BoundedQueue` is a ring in storage of fixed size. It is pushed at its bottom and
popped at its top, and can be read at any distance from either end. The positions are
numbers of 32 bits, so the ring is right while twice its capacity is within them.
-/

namespace CodeReading.Brpc

open List Nat

variable {Item : Type}

/-- `BoundedQueue`. The storage is given by position. -/
structure BoundedQueue (Item : Type) where
  count : Nat
  cap : Nat
  start : Nat
  items : Nat → Option Item

namespace BoundedQueue

/-- A queue in storage for the given number of items. The capacity is narrowed to 32 bits. -/
def ofCapacity (Item : Type) (capacity : Nat) : BoundedQueue Item :=
  ⟨0, capacity % 2 ^ 32, 0, fun _ => none⟩

section

variable (queue : BoundedQueue Item)

/-- `_mod`, on the offset narrowed to 32 bits. -/
def mod (offset : Nat) : Nat := offset % 2 ^ 32 % queue.cap

def full : Bool := queue.cap == queue.count

/-- `push`. A full queue stays as it is. -/
def push (item : Item) : BoundedQueue Item :=
  if queue.count < queue.cap then
    { queue with
      count := queue.count + 1
      items := Function.update queue.items (queue.mod (queue.start + queue.count)) (some item) }
  else queue

def pop : BoundedQueue Item :=
  if 0 < queue.count then
    { queue with
      count := queue.count - 1
      start := queue.mod (queue.start + 1)
      items := Function.update queue.items queue.start none }
  else queue

def top : Option Item :=
  if 0 < queue.count then queue.items queue.start else none

/-- `bottom`, at a distance from the end that is pushed at. -/
def bottom (index : Nat) : Option Item :=
  if index < queue.count then queue.items (queue.mod (queue.start + queue.count - index - 1))
  else none

/-- The queue holds the items, from the one pushed last to the one pushed first. -/
structure Holds (items : List Item) : Prop where
  count : queue.count = items.length
  fits : queue.count ≤ queue.cap
  start : queue.start < queue.cap ∨ queue.cap = 0
  narrow : queue.cap < 2 ^ 31
  stored : ∀ index, index < queue.count →
    queue.items (queue.mod (queue.start + queue.count - index - 1)) = items[index]?

end

variable {queue : BoundedQueue Item} {items : List Item}

theorem ofCapacity_holds (narrow : capacity < 2 ^ 31) : (ofCapacity Item capacity).Holds [] := by
  constructor
  · rfl
  · exact zero_le _
  · simp only [ofCapacity]
    omega
  · simp only [ofCapacity]
    omega
  · intro _ impossible
    cases impossible

theorem full_iff (holds : queue.Holds items) : queue.full = true ↔ queue.cap ≤ items.length := by
  rw [full, beq_iff_eq, ← holds.count]
  have := holds.fits
  omega

/-- The offsets that are used go round the ring at most once. -/
theorem mod_eq (narrow : queue.cap < 2 ^ 31) (near : offset < 2 * queue.cap) :
    queue.mod offset = if offset < queue.cap then offset else offset - queue.cap := by
  have wide : offset % 2 ^ 32 = offset := mod_eq_of_lt (by omega)
  rw [mod, wide]
  split
  · rename_i inside
    exact mod_eq_of_lt inside
  · rename_i beyond
    rw [mod_eq_sub_mod (by omega), mod_eq_of_lt (by omega)]

section

variable (holds : queue.Holds items)
include holds

theorem push_holds (room : items.length < queue.cap) (item : Item) :
    (queue.push item).Holds (item :: items) := by
  have count := holds.count
  have narrow := holds.narrow
  have start := holds.start
  have free : queue.count < queue.cap := count ▸ room
  rw [push, if_pos free]
  constructor
  · simp [count]
  · exact free
  · exact holds.start
  · exact holds.narrow
  · intro index inside
    cases index with
    | zero =>
      have position : queue.start + (queue.count + 1) - 0 - 1 = queue.start + queue.count := by
        omega
      rw [position]
      exact Function.update_self _ _ _
    | succ index =>
      simp only at inside
      have earlier : index < queue.count := by omega
      have position : queue.start + (queue.count + 1) - (index + 1) - 1 =
          queue.start + queue.count - index - 1 := by omega
      have different : queue.mod (queue.start + queue.count - index - 1) ≠
          queue.mod (queue.start + queue.count) := by
        rw [mod_eq narrow (by omega), mod_eq narrow (by omega)]
        split
        · split
          · omega
          · omega
        · rw [if_neg (by omega)]
          omega
      rw [position, getElem?_cons_succ, ← holds.stored index earlier]
      exact Function.update_of_ne different _ _

theorem top_holds : queue.top = items.getLast? := by
  have count := holds.count
  have fits := holds.fits
  have narrow := holds.narrow
  have start := holds.start
  rw [top]
  split
  · rename_i some
    have last := holds.stored (queue.count - 1) (by omega)
    have position : queue.start + queue.count - (queue.count - 1) - 1 = queue.start := by omega
    have same : queue.mod queue.start = queue.start := by
      rw [mod, mod_eq_of_lt (by omega), mod_eq_of_lt (by omega)]
    rw [position, same] at last
    rw [last, getLast?_eq_getElem?, count]
  · rename_i none
    have empty : items = [] := eq_nil_of_length_eq_zero (by omega)
    rw [empty, getLast?_nil]

theorem pop_holds : queue.pop.Holds items.dropLast := by
  have count := holds.count
  have fits := holds.fits
  have narrow := holds.narrow
  have start := holds.start
  rw [pop]
  split
  · rename_i some
    have positive : 0 < queue.cap := by omega
    have moved : queue.mod (queue.start + 1) < queue.cap := mod_lt _ positive
    constructor
    · simp [count]
    · simp only
      omega
    · exact Or.inl moved
    · exact narrow
    · intro index inside
      simp only at inside
      have earlier : index < queue.count := by omega
      have moves : queue.mod (queue.mod (queue.start + 1) + (queue.count - 1) - index - 1) =
          queue.mod (queue.start + queue.count - index - 1) := by
        rw [mod_eq narrow (show queue.start + 1 < 2 * queue.cap by omega)]
        split
        · congr 1
          omega
        · rw [mod_eq narrow (by omega), mod_eq narrow (by omega), if_pos (by omega),
            if_neg (by omega)]
          omega
      have different : queue.mod (queue.start + queue.count - index - 1) ≠ queue.start := by
        rw [mod_eq narrow (by omega)]
        split
        · omega
        · omega
      have kept : items.dropLast[index]? = items[index]? := by
        rw [getElem?_dropLast, if_pos (by omega)]
      rw [kept, ← holds.stored index earlier, ← moves]
      rw [← moves] at different
      exact Function.update_of_ne different _ _
  · rename_i none
    have empty : items = [] := eq_nil_of_length_eq_zero (by omega)
    rw [empty] at holds ⊢
    exact holds

theorem bottom_holds (index : Nat) : queue.bottom index = items[index]? := by
  rw [bottom]
  split
  · rename_i inside
    exact holds.stored index inside
  · rename_i outside
    rw [holds.count] at outside
    exact (getElem?_eq_none (Nat.not_lt.mp outside)).symm

end

end BoundedQueue

end CodeReading.Brpc
