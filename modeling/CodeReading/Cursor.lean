import CodeReading.Machine
import Mathlib.Data.List.TakeWhile
import Mathlib.Order.OrderDual

/-!
# Iterators and the cursor over a list

An iterator is a state with the operations seek, next and previous, and the entry it stands
on, if any. The cursor over a list is the plainest one. Another iterator over whatever
representation is right when it simulates the cursor over the list of its entries: then
they answer alike after every sequence of calls, where next and previous may be called only
while the iterator is valid.

When the entries are in strict order, an operation of the cursor is known from the entry it
arrives at. So an iterator simulates the cursor if each of its operations arrives at the
right entry.
-/

namespace CodeReading.Cursor

open List OrderDual

variable {State Model Target Entry : Type}

/-- Where a cursor stands: outside of the list, or on an entry, with the entries before it
from the nearest on. -/
inductive Place (Entry : Type) where
  | off
  | here (before : List Entry) (entry : Entry) (after : List Entry)
deriving DecidableEq, Repr

namespace Place

def entry : Place Entry → Option Entry
  | off => none
  | here _ entry _ => some entry

/-- The place on the first of the remaining entries. -/
def resume (before : List Entry) : List Entry → Place Entry
  | [] => off
  | entry :: after => here before entry after

def next : Place Entry → Place Entry
  | off => off
  | here before entry after => resume (entry :: before) after

/-- The place on the nearest of the entries before. -/
def retreat (after : List Entry) : List Entry → Place Entry
  | [] => off
  | entry :: before => here before entry after

def prev : Place Entry → Place Entry
  | off => off
  | here before entry after => retreat (entry :: after) before

/-- The place belongs to the list. -/
def Of (entries : List Entry) : Place Entry → Prop
  | off => True
  | here before entry after => before.reverse ++ entry :: after = entries

end Place

def last (entries : List Entry) : Place Entry := .retreat [] entries.reverse

/-- The place on the first entry that is reached. -/
def seek (reached : Entry → Bool) (entries : List Entry) : Place Entry :=
  .resume (entries.takeWhile fun entry => !reached entry).reverse
    (entries.dropWhile fun entry => !reached entry)

/-- An iterator. It is valid when it stands on an entry. -/
structure Iterator (State Target Entry : Type) where
  entry : State → Option Entry
  seekToFirst : State → State
  seekToLast : State → State
  seek : Target → State → State
  next : State → State
  prev : State → State

def cursor (reached : Target → Entry → Bool) (entries : List Entry) :
    Iterator (Place Entry) Target Entry where
  entry := Place.entry
  seekToFirst _ := .resume [] entries
  seekToLast _ := last entries
  seek target _ := Cursor.seek (reached target) entries
  next := Place.next
  prev := Place.prev

inductive Command (Target : Type) where
  | seekToFirst
  | seekToLast
  | seek (target : Target)
  | next
  | prev

section

variable (iterator : Iterator State Target Entry)

/-- A call as a step. Only a valid iterator may be moved on. -/
def Iterator.step (state : State) : Command Target → Option State
  | .seekToFirst => some (iterator.seekToFirst state)
  | .seekToLast => some (iterator.seekToLast state)
  | .seek target => some (iterator.seek target state)
  | .next => if (iterator.entry state).isSome then some (iterator.next state) else none
  | .prev => if (iterator.entry state).isSome then some (iterator.prev state) else none

/-- The iterator does what its model does, in related states. -/
structure Simulates (model : Iterator Model Target Entry) (shows : State → Model → Prop) :
    Prop where
  entry : ∀ state place, shows state place → iterator.entry state = model.entry place
  seekToFirst : ∀ state place, shows state place →
    shows (iterator.seekToFirst state) (model.seekToFirst place)
  seekToLast : ∀ state place, shows state place →
    shows (iterator.seekToLast state) (model.seekToLast place)
  seek : ∀ target state place, shows state place →
    shows (iterator.seek target state) (model.seek target place)
  next : ∀ state place, shows state place → (model.entry place).isSome →
    shows (iterator.next state) (model.next place)
  prev : ∀ state place, shows state place → (model.entry place).isSome →
    shows (iterator.prev state) (model.prev place)

theorem simulates_refl : Simulates iterator iterator Eq where
  entry _ _ same := congrArg iterator.entry same
  seekToFirst _ _ same := congrArg iterator.seekToFirst same
  seekToLast _ _ same := congrArg iterator.seekToLast same
  seek target _ _ same := congrArg (iterator.seek target) same
  next _ _ same _ := congrArg iterator.next same
  prev _ _ same _ := congrArg iterator.prev same

end

section

variable {iterator : Iterator State Target Entry} {model : Iterator Model Target Entry}
  {shows : State → Model → Prop}

theorem simulates_step (simulates : Simulates iterator model shows) (state : State) (place : Model)
    (command : Command Target) (shown : shows state place) :
    Option.Rel shows (iterator.step state command) (model.step place command) := by
  have same := simulates.entry state place shown
  cases command with
  | seekToFirst => exact .some (simulates.seekToFirst state place shown)
  | seekToLast => exact .some (simulates.seekToLast state place shown)
  | seek target => exact .some (simulates.seek target state place shown)
  | next =>
    simp only [Iterator.step, same]
    split
    · rename_i valid
      exact .some (simulates.next state place shown valid)
    · exact .none
  | prev =>
    simp only [Iterator.step, same]
    split
    · rename_i valid
      exact .some (simulates.prev state place shown valid)
    · exact .none

/-- After every sequence of calls both stand on the same entry. -/
theorem simulates_run (simulates : Simulates iterator model shows)
    (shown : shows state place) (commands : List (Command Target)) :
    Option.Rel (fun state place => iterator.entry state = model.entry place)
      (Machine.run iterator.step state commands) (Machine.run model.step place commands) := by
  have related := Machine.run_simulates iterator.step
    (simulates_step simulates) commands shown
  generalize Machine.run iterator.step state commands = reached at related ⊢
  generalize Machine.run model.step place commands = reachedPlace at related ⊢
  cases related with
  | some holds => exact .some (simulates.entry _ _ holds)
  | none => exact .none

end

section

variable {entries : List Entry} {after before : List Entry}

theorem of_resume (whole : before.reverse ++ after = entries) :
    (Place.resume before after).Of entries := by
  cases after with
  | nil => trivial
  | cons entry rest => exact whole

theorem resume_entry (before after : List Entry) :
    (Place.resume before after).entry = after.head? := by
  cases after <;> rfl

variable {place : Place Entry}

theorem of_next (within : place.Of entries) : place.next.Of entries := by
  cases place with
  | off => trivial
  | here before entry after =>
    apply of_resume
    rw [reverse_cons, append_assoc]
    exact within

theorem of_retreat (whole : before.reverse ++ after = entries) :
    (Place.retreat after before).Of entries := by
  cases before with
  | nil => trivial
  | cons entry before =>
    rw [reverse_cons, append_assoc] at whole
    exact whole

theorem retreat_entry (before after : List Entry) :
    (Place.retreat after before).entry = before.head? := by
  cases before <;> rfl

theorem of_prev (within : place.Of entries) : place.prev.Of entries := by
  cases place with
  | off => trivial
  | here before entry after => exact of_retreat within

theorem of_last (entries : List Entry) : (last entries).Of entries := by
  apply of_retreat
  rw [reverse_reverse, append_nil]

theorem last_entry (entries : List Entry) : (last entries).entry = entries.getLast? := by
  rw [← head?_reverse]
  exact retreat_entry _ _

theorem of_seek (reached : Entry → Bool) (entries : List Entry) :
    (seek reached entries).Of entries := by
  apply of_resume
  rw [reverse_reverse, takeWhile_append_dropWhile]

theorem seek_entry (reached : Entry → Bool) (entries : List Entry) :
    (seek reached entries).entry = entries.find? reached := by
  rw [seek, resume_entry]
  exact (find?_eq_head?_dropWhile_not reached entries).symm

end

section

variable {Rank : Type} [LinearOrder Rank] {rank : Entry → Rank} {entries : List Entry}
  {entry : Entry}

section

variable (ordered : entries.Pairwise fun left right => rank left < rank right)
include ordered

variable {wanted : Entry → Bool}

theorem find_least (mem : entry ∈ entries) (holds : wanted entry = true)
    (least : ∀ other ∈ entries, wanted other = true → rank entry ≤ rank other) :
    entries.find? wanted = some entry := by
  induction entries with
  | nil => cases mem
  | cons first rest ih =>
    obtain ⟨before, later⟩ := pairwise_cons.mp ordered
    by_cases isWanted : wanted first = true
    · have same : first = entry := by
        cases mem_cons.mp mem with
        | inl head => exact head.symm
        | inr inRest =>
          have order := least first (.head _) isWanted
          exact absurd (before entry inRest) (not_lt.mpr order)
      rw [find?_cons_of_pos isWanted, same]
    · rw [find?_cons_of_neg isWanted]
      apply ih later
      · cases mem_cons.mp mem with
        | inl head => exact absurd (head ▸ holds) isWanted
        | inr inRest => exact inRest
      · intro other inRest
        exact least other (.tail _ inRest)

theorem find_greatest (mem : entry ∈ entries) (holds : wanted entry = true)
    (greatest : ∀ other ∈ entries, wanted other = true → rank other ≤ rank entry) :
    entries.reverse.find? wanted = some entry := by
  have descending : entries.reverse.Pairwise fun left right =>
      toDual (rank left) < toDual (rank right) :=
    pairwise_reverse.mpr ordered
  apply find_least descending (mem_reverse.mpr mem) holds
  intro other inside
  exact greatest other (mem_reverse.mp inside)

variable {place : Place Entry}

theorem next_entry (within : place.Of entries) (current : place.entry = some entry) :
    place.next.entry = entries.find? fun other => decide (rank entry < rank other) := by
  cases place with
  | off => cases current
  | here before standing after =>
    obtain rfl : standing = entry := Option.some.inj current
    obtain rfl : before.reverse ++ standing :: after = entries := within
    obtain ⟨_, later, crossing⟩ := pairwise_append.mp ordered
    have passed : (before.reverse ++ [standing]).find?
        (fun other => decide (rank standing < rank other)) = none := by
      rw [find?_eq_none]
      intro other mem
      cases mem_append.mp mem with
      | inl earlier => simpa using (crossing other earlier standing mem_cons_self).le
      | inr same => simp [mem_singleton.mp same]
    have behind : after.find? (fun other => decide (rank standing < rank other)) = after.head? := by
      cases after with
      | nil => rfl
      | cons following rest =>
        have less := (pairwise_cons.mp later).1 following (.head _)
        simp [less]
    rw [append_cons, find?_append, passed, behind]
    exact resume_entry _ after

/-- The last of ordered entries before an entry is the previous one: seen from the other end, it is
the next one. -/
theorem prev_entry (within : place.Of entries) (current : place.entry = some entry) :
    place.prev.entry = entries.reverse.find? fun other => decide (rank other < rank entry) := by
  have descending : entries.reverse.Pairwise fun left right =>
      toDual (rank left) < toDual (rank right) :=
    pairwise_reverse.mpr ordered
  cases place with
  | off => cases current
  | here before standing after =>
    have turned : (Place.here after standing before).Of entries.reverse := by
      rw [← show before.reverse ++ standing :: after = entries from within]
      simp [Place.Of]
    have next := next_entry descending turned current
    rw [Place.next, resume_entry] at next
    rw [Place.prev, retreat_entry, next]
    simp

/-- An iterator over entries in strict order simulates the cursor when each operation
arrives at the right entry. -/
theorem simulates_ordered {reached : Target → Entry → Bool}
    {sound : State → Prop}
    (seekToFirst : ∀ state, sound state → sound (iterator.seekToFirst state) ∧ iterator.entry
      (iterator.seekToFirst state) = entries.head?)
    (seekToLast : ∀ state, sound state → sound (iterator.seekToLast state) ∧ iterator.entry
      (iterator.seekToLast state) = entries.getLast?)
    (seek : ∀ target state, sound state → sound (iterator.seek target state) ∧ iterator.entry
      (iterator.seek target state) = entries.find? (reached target))
    (next : ∀ state entry, sound state → iterator.entry state = some entry → sound (iterator.next
      state) ∧ iterator.entry (iterator.next state) = entries.find? fun other => decide (rank entry
      < rank other))
    (prev : ∀ state entry, sound state → iterator.entry state = some entry → sound (iterator.prev
      state) ∧ iterator.entry (iterator.prev state) = entries.reverse.find? fun other => decide
      (rank other < rank entry)) : Simulates iterator (cursor reached entries) fun state place =>
      sound state ∧ place.Of entries ∧ iterator.entry state = place.entry := by
  constructor
  · rintro state place ⟨_, _, same⟩
    exact same
  · rintro state place ⟨holds, _, _⟩
    obtain ⟨after, arrives⟩ := seekToFirst state holds
    exact ⟨after, of_resume rfl, arrives.trans (resume_entry [] entries).symm⟩
  · rintro state place ⟨holds, _, _⟩
    obtain ⟨after, arrives⟩ := seekToLast state holds
    exact ⟨after, of_last entries, arrives.trans (last_entry entries).symm⟩
  · rintro target state place ⟨holds, _, _⟩
    obtain ⟨after, arrives⟩ := seek target state holds
    exact ⟨after, of_seek _ entries, arrives.trans (seek_entry _ entries).symm⟩
  · rintro state place ⟨holds, within, same⟩ valid
    obtain ⟨entry, current⟩ := Option.isSome_iff_exists.mp valid
    obtain ⟨after, arrives⟩ := next state entry holds (same.trans current)
    exact ⟨after, of_next within, arrives.trans (next_entry ordered within current).symm⟩
  · rintro state place ⟨holds, within, same⟩ valid
    obtain ⟨entry, current⟩ := Option.isSome_iff_exists.mp valid
    obtain ⟨after, arrives⟩ := prev state entry holds (same.trans current)
    exact ⟨after, of_prev within, arrives.trans (prev_entry ordered within current).symm⟩

end

end

end CodeReading.Cursor
