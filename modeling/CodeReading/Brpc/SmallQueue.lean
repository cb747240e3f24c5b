import Mathlib.Algebra.Order.Ring.Int

/-!
# A queue with room for a few values

`SmallQueue<T, N>` keeps up to `N` values in a ring and what does not fit in a deque.
While the deque has values new ones go there, so the values of the ring are older and
the queue is first in, first out. A missing deque is an empty one here.
-/

namespace CodeReading.Brpc

open List

universe u

structure SmallQueue (α : Type u) (n : Nat) where
  start : Nat
  size : Nat
  c : Nat → α
  full : List α
  inside : start < n
  fits : size ≤ n

namespace SmallQueue

variable {α : Type u} {n : Nat}

/-- An index of the ring that may be past its end by less than its length. -/
def wrap (n index : Nat) : Nat := if index ≥ n then index - n else index

theorem wrap_lt (bound : index < 2 * n) : wrap n index < n := by
  unfold wrap
  split <;> omega

def empty (value : α) (positive : 0 < n) : SmallQueue α n :=
  ⟨0, 0, fun _ => value, [], positive, Nat.zero_le n⟩

section

variable (queue : SmallQueue α n)

def push (value : α) : SmallQueue α n :=
  if queue.full ≠ [] then { queue with full := queue.full ++ [value] }
  else if room : queue.size < n then
    { queue with
      c := Function.update queue.c (wrap n (queue.start + queue.size)) value
      size := queue.size + 1
      fits := room }
  else { queue with full := queue.full ++ [value] }

def pop : Option (α × SmallQueue α n) :=
  if queue.size > 0 then
    some (queue.c queue.start, { queue with
        start := wrap n (queue.start + 1)
        size := queue.size - 1
        inside := wrap_lt (by have := queue.inside; omega)
        fits := Nat.le_trans (Nat.sub_le _ _) queue.fits })
  else match queue.full with
    | value :: rest => some (value, { queue with full := rest })
    | [] => none

def clear : SmallQueue α n :=
  { queue with
    start := 0
    size := 0
    full := []
    inside := Nat.lt_of_le_of_lt (Nat.zero_le _) queue.inside
    fits := Nat.zero_le n }

def toList : List α :=
  (List.range queue.size).map (fun offset => queue.c (wrap n (queue.start + offset))) ++ queue.full

@[simp] theorem toList_clear : queue.clear.toList = [] := rfl

theorem wrap_ne {start offset size : Nat} (fits : size < n) (before : offset < size) :
    wrap n (start + offset) ≠ wrap n (start + size) := by
  unfold wrap
  split <;> split <;> omega

@[simp] theorem toList_push (value : α) : (queue.push value).toList = queue.toList ++ [value] := by
  unfold push
  split
  · simp only [toList, append_assoc]
  · next noFull =>
    have none : queue.full = [] := not_not.mp noFull
    split
    · next room =>
      have older : (range queue.size).map (fun offset =>
          Function.update queue.c (wrap n (queue.start + queue.size)) value
            (wrap n (queue.start + offset))) =
          (range queue.size).map fun offset => queue.c (wrap n (queue.start + offset)) := by
        refine map_congr_left fun offset mem => ?_
        exact Function.update_of_ne (wrap_ne room (mem_range.mp mem)) _ _
      simp only [toList, none, range_succ, map_append, older, map_cons,
        map_nil, Function.update_self, append_nil]
    · simp [toList]

end

theorem pop_none {queue : SmallQueue α n} (popped : queue.pop = none) : queue.toList = [] := by
  unfold pop at popped
  split at popped
  · nomatch popped
  · next small =>
    have zero : queue.size = 0 := by omega
    split at popped
    · nomatch popped
    · next none => simp [toList, zero, none]

theorem pop_some {queue rest : SmallQueue α n}
    (popped : queue.pop = some (value, rest)) : queue.toList = value :: rest.toList := by
  unfold pop at popped
  split at popped
  · next some =>
    obtain ⟨rfl, rfl⟩ := Prod.mk.inj (Option.some.inj popped)
    obtain ⟨size, isSize⟩ : ∃ size, queue.size = size + 1 := ⟨queue.size - 1, by omega⟩
    have inside := queue.inside
    have first : wrap n (queue.start + 0) = queue.start := if_neg (by omega)
    have later : ∀ offset, wrap n (queue.start + (offset + 1)) =
        wrap n (wrap n (queue.start + 1) + offset) ∨ n ≤ offset + 1 := by
      intro offset
      unfold wrap
      split <;> split <;> split <;> omega
    simp only [toList, isSize, range_succ_eq_map, map_cons, map_map, first,
      Nat.add_sub_cancel, cons_append]
    congr 2
    refine map_congr_left fun offset mem => ?_
    have fits := queue.fits
    have bound := mem_range.mp mem
    exact congrArg queue.c ((later offset).resolve_right (by omega))
  · next small =>
    have zero : queue.size = 0 := by omega
    split at popped
    · next full =>
      obtain ⟨rfl, rfl⟩ := Prod.mk.inj (Option.some.inj popped)
      simp [toList, zero, full]
    · nomatch popped

end SmallQueue

end CodeReading.Brpc
