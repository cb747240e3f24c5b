import CodeReading.Threads
import Mathlib.Data.List.Intervals
import Mathlib.Data.List.Nodup

/-!
# The work-stealing queue

`WorkStealingQueue` as threads over shared state, one atomic access of the source
an action. Thread 0 is the owner, who pushes and pops; every thread may steal. The
counters are natural numbers, as the values of `size_t` are below `2 ^ 64`.

A cell of the buffer holds the value and the number of the push that put it there;
the number and what the state keeps under `History` are not in the source. `upper`
is the end of the items that are still in the queue: `_bottom`, except while a pop
has lowered `_bottom` and may still lose the last item to a thief.
-/

namespace CodeReading.Brpc.WorkStealing

open Threads List Nat

structure Item (T : Type) where
  value : T
  push : Nat
deriving DecidableEq, Repr

/-- The items pushed, returned by `pop` and returned by `steal`, in this order; the item that a
pop has taken and not returned yet; and the end of the items in the queue. -/
structure History (T : Type) where
  pushed : List (Item T)
  popped : List (Item T)
  stolen : List (Item T)
  inHand : List (Item T)
  upper : Nat

structure Shared (T : Type) where
  bottom : Nat
  top : Nat
  buffer : Nat → Item T
  history : History T

/-- Where a call is: `push` before its load of `_top`, before its write to the buffer and before
its store; `pop` before its first load of `_top`, its store, its second load, its read of the
buffer (with more items below, or with the last one), its exchange, and the store that restores
`_bottom`; `steal` before the two loads of `_bottom`, its read of the buffer and its exchange. -/
inductive Local (T : Type) where
  | idle
  | pushLoaded (item : T) (b : Nat)
  | pushChecked (item : T) (b : Nat)
  | pushWritten (item : T) (b : Nat)
  | popLoaded (b : Nat)
  | popChecked (b : Nat)
  | popStored (b : Nat)
  | popTaking (b : Nat)
  | popLast (b t : Nat)
  | popExchanging (b t : Nat) (val : Item T)
  | popRestoring (b : Nat) (val : Option (Item T))
  | stealLoaded (t : Nat)
  | stealLooping (t : Nat)
  | stealChecked (t : Nat)
  | stealExchanging (t : Nat) (val : Item T)
deriving DecidableEq, Repr

inductive Event (T : Type) where
  | push (item : T)
  | pop
  | steal
  | proceed
deriving DecidableEq, Repr

variable {T : Type}

section

variable (capacity thread : Nat) (shared : Shared T)

/-- `index & (_capacity - 1)`. -/
def slot (index : Nat) : Nat := index &&& (capacity - 1)

def act : Local T → Event T → Option (Shared T × Local T)
  | .idle, .push item => if thread = 0 then some (shared, .pushLoaded item shared.bottom) else none
  | .pushLoaded item b, .proceed =>
      if shared.top + capacity ≤ b then some (shared, .idle)
      else some (shared, .pushChecked item b)
  | .pushChecked item b, .proceed =>
      some ({ shared with
          buffer := Function.update shared.buffer (slot capacity b)
            ⟨item, shared.history.pushed.length⟩ }, .pushWritten item b)
  | .pushWritten item b, .proceed =>
      some ({ shared with
          bottom := b + 1
          history := { shared.history with
            pushed := shared.history.pushed ++ [⟨item, shared.history.pushed.length⟩]
            upper := b + 1 } }, .idle)
  | .idle, .pop => if thread = 0 then some (shared, .popLoaded shared.bottom) else none
  | .popLoaded b, .proceed =>
      if b ≤ shared.top then some (shared, .idle) else some (shared, .popChecked b)
  | .popChecked b, .proceed => some ({ shared with bottom := b - 1 }, .popStored b)
  | .popStored b, .proceed =>
      if b - 1 < shared.top then some (shared, .popRestoring b none)
      else if shared.top ≠ b - 1 then
        -- No thief can come this far any more: the item is the owner's.
        some ({ shared with
            history := { shared.history with
              inHand := [shared.buffer (slot capacity (b - 1))]
              upper := b - 1 } }, .popTaking b)
      else some (shared, .popLast b shared.top)
  | .popTaking b, .proceed =>
      some ({ shared with
          history := { shared.history with
            popped := shared.history.popped ++ [shared.buffer (slot capacity (b - 1))]
            inHand := [] } }, .idle)
  | .popLast b t, .proceed =>
      some (shared, .popExchanging b t (shared.buffer (slot capacity (b - 1))))
  | .popExchanging b t val, .proceed =>
      if shared.top = t then
        some ({ shared with
            top := t + 1
            history := { shared.history with inHand := [val] } }, .popRestoring b (some val))
      else some (shared, .popRestoring b none)
  | .popRestoring b val, .proceed =>
      some ({ shared with
          bottom := b
          history := { shared.history with
            popped := shared.history.popped ++ val.toList
            inHand := [] } }, .idle)
  | .idle, .steal => some (shared, .stealLoaded shared.top)
  | .stealLoaded t, .proceed =>
      if shared.bottom ≤ t then some (shared, .idle) else some (shared, .stealLooping t)
  | .stealLooping t, .proceed =>
      if shared.bottom ≤ t then some (shared, .idle) else some (shared, .stealChecked t)
  | .stealChecked t, .proceed => some (shared, .stealExchanging t (shared.buffer (slot capacity t)))
  | .stealExchanging t val, .proceed =>
      if shared.top = t then
        some ({ shared with
            top := t + 1
            history := { shared.history with stolen := shared.history.stolen ++ [val] } }, .idle)
      else some (shared, .stealLooping shared.top)
  | _, _ => none

/-- The cells from `_top` up to an index. -/
def items (upper : Nat) : List (Item T) :=
  (List.Ico shared.top upper).map fun index => shared.buffer (slot capacity index)

end

abbrev State (T : Type) := Threads.State (Shared T) (Local T)

/-- A queue after `init`, with anything in its buffer. -/
def State.start (buffer : Nat → Item T) : State T :=
  ⟨⟨1, 1, buffer, ⟨[], [], [], [], 1⟩⟩, fun _ => .idle⟩

def step (capacity : Nat) : State T → Nat × Event T → Option (State T) :=
  Threads.step (act capacity)

section

variable {exponent : Nat}

theorem slot_ne (less : first < second) (near : second < first + 2 ^ exponent) :
    slot (2 ^ exponent) first ≠ slot (2 ^ exponent) second := by
  simp only [slot, and_two_pow_sub_one_eq_mod]
  intro same
  have divides := sub_mod_eq_zero_of_mod_eq same.symm
  rw [mod_eq_of_lt (by omega)] at divides
  omega

variable {shared : Shared T}

theorem items_cons (some : shared.top < upper) :
    items (2 ^ exponent) shared upper =
      shared.buffer (slot (2 ^ exponent) shared.top) ::
        items (2 ^ exponent) { shared with top := shared.top + 1 } upper := by
  simp [items, List.Ico.eq_cons some]

theorem items_succ (below : shared.top ≤ upper) :
    items (2 ^ exponent) shared (upper + 1) =
      items (2 ^ exponent) shared upper ++ [shared.buffer (slot (2 ^ exponent) upper)] := by
  simp [items, List.Ico.succ_top below]

/-- The cell behind the items is none of theirs while the ring is not full. -/
theorem items_write (near : upper < shared.top + 2 ^ exponent) {cell : Nat}
    (behind : cell = slot (2 ^ exponent) upper) (item : Item T) :
    items (2 ^ exponent) { shared with buffer := Function.update shared.buffer cell item } upper =
      items (2 ^ exponent) shared upper := by
  simp only [items, behind]
  apply map_congr_left
  intro _ member
  obtain ⟨_, high⟩ := List.Ico.mem.mp member
  exact Function.update_of_ne (slot_ne high (by omega)) _ _

end

section

variable (exponent : Nat) (shared : Shared T)

/-- All items pushed are accounted for, and those not popped are in the order of the pushes. -/
structure Common : Prop where
  below : shared.top ≤ shared.history.upper
  near : shared.history.upper ≤ shared.top + 2 ^ exponent
  lower : shared.bottom ≤ shared.history.upper
  numbered : shared.history.pushed.map Item.push = List.range shared.history.pushed.length
  account : (shared.history.popped ++ shared.history.stolen ++ shared.history.inHand ++
    items (2 ^ exponent) shared shared.history.upper).Perm shared.history.pushed
  ordered : (shared.history.stolen ++ items (2 ^ exponent) shared shared.history.upper).Pairwise
    fun earlier later => earlier.push < later.push

/-- The owner is not in the middle of a pop. -/
structure Settled : Prop where
  bottom : shared.bottom = shared.history.upper
  inHand : shared.history.inHand = []

/-- The owner has lowered `_bottom` to get the item at the end. -/
structure Lowered (b : Nat) (inHand : List (Item T)) : Prop where
  bottom : shared.bottom + 1 = b
  upper : shared.history.upper = b
  inHand : shared.history.inHand = inHand

/-- What the owner knows of `_bottom`, which nobody else writes. -/
def Owner : Local T → Prop
  | .pushLoaded _ b => b = shared.bottom ∧ Settled shared
  | .pushChecked _ b => b = shared.bottom ∧ b < shared.top + 2 ^ exponent ∧ Settled shared
  | .pushWritten item b =>
      b = shared.bottom ∧ b < shared.top + 2 ^ exponent ∧ Settled shared ∧
        shared.buffer (slot (2 ^ exponent) b) = ⟨item, shared.history.pushed.length⟩
  | .popLoaded b => b = shared.bottom ∧ Settled shared
  | .popChecked b => b = shared.bottom ∧ 0 < b ∧ Settled shared
  | .popStored b => Lowered shared b []
  | .popTaking b =>
      shared.bottom + 1 = b ∧ shared.history.upper = shared.bottom ∧
        shared.history.inHand = [shared.buffer (slot (2 ^ exponent) shared.bottom)]
  | .popLast b t => t = shared.bottom ∧ Lowered shared b []
  | .popExchanging b t val =>
      t = shared.bottom ∧ val = shared.buffer (slot (2 ^ exponent) shared.bottom) ∧
        Lowered shared b []
  | .popRestoring b val => Lowered shared b val.toList
  | _ => Settled shared

/-- What a thief knows: while `_top` stands where it was read, the item there is in the queue. -/
def Thief : Local T → Prop
  | .stealLoaded t => t ≤ shared.top
  | .stealLooping t => t ≤ shared.top
  | .stealChecked t => t ≤ shared.top ∧ (shared.top = t → t < shared.history.upper)
  | .stealExchanging t val =>
      t ≤ shared.top ∧
        (shared.top = t → t < shared.history.upper ∧
          val = shared.buffer (slot (2 ^ exponent) t))
  | _ => True

/-- Only the owner pushes and pops. -/
def Local.Steals : Local T → Prop
  | .idle => True
  | .stealLoaded _ => True
  | .stealLooping _ => True
  | .stealChecked _ => True
  | .stealExchanging _ _ => True
  | _ => False

structure Own (thread : Nat) (own : Local T) : Prop where
  role : thread ≠ 0 → own.Steals
  owner : thread = 0 → Owner exponent shared own
  thief : Thief exponent shared own

end

def outline (exponent : Nat) : Outline (Shared T) (Local T) where
  common := Common exponent
  own := fun thread shared own => Own exponent shared thread own
  apart := fun _ _ => True

/-- What an action of one thread does to the others. -/
structure Effect (exponent thread : Nat) (before after : Shared T) : Prop where
  top : before.top ≤ after.top
  first : after.top = before.top → before.top < before.history.upper →
    before.top < after.history.upper ∧
      after.buffer (slot (2 ^ exponent) before.top) =
        before.buffer (slot (2 ^ exponent) before.top)
  owner : thread ≠ 0 → after.bottom = before.bottom ∧ after.buffer = before.buffer ∧
    after.history.upper = before.history.upper ∧
    after.history.inHand = before.history.inHand ∧ after.history.pushed = before.history.pushed

section

variable {exponent thread : Nat} {shared : Shared T} {own : Local T}

theorem owner_effect {after : Shared T} (notOwner : thread ≠ 0) (knows : Owner exponent shared own)
    (effect : Effect exponent thread shared after) : Owner exponent after own := by
  obtain ⟨bottom, buffer, upper, inHand, pushed⟩ := effect.owner notOwner
  have top := effect.top
  have settled : Settled shared → Settled after := by
    rintro ⟨isBottom, none⟩
    exact ⟨by rw [bottom, upper]; exact isBottom, by rw [inHand]; exact none⟩
  have lowered : ∀ {b hand}, Lowered shared b hand → Lowered after b hand := by
    rintro b hand ⟨isBottom, isUpper, isHand⟩
    exact ⟨by rw [bottom]; exact isBottom, by rw [upper]; exact isUpper,
      by rw [inHand]; exact isHand⟩
  cases own with
  | pushLoaded _ _ | popLoaded _ => exact ⟨by rw [bottom]; exact knows.1, settled knows.2⟩
  | pushChecked item b =>
    exact ⟨by rw [bottom]; exact knows.1, by have room := knows.2.1; omega, settled knows.2.2⟩
  | pushWritten item b =>
    refine ⟨by rw [bottom]; exact knows.1, by have room := knows.2.1; omega,
      settled knows.2.2.1, ?_⟩
    rw [buffer, pushed]
    exact knows.2.2.2
  | popChecked b => exact ⟨by rw [bottom]; exact knows.1, knows.2.1, settled knows.2.2⟩
  | popStored _ | popRestoring _ _ => exact lowered knows
  | popTaking b =>
    simp only [Owner, bottom, upper, inHand, buffer]
    exact knows
  | popLast b t => exact ⟨by rw [bottom]; exact knows.1, lowered knows.2⟩
  | popExchanging b t val =>
    refine ⟨by rw [bottom]; exact knows.1, ?_, lowered knows.2.2⟩
    rw [buffer, bottom]
    exact knows.2.1
  | idle | stealLoaded _ | stealLooping _ | stealChecked _ | stealExchanging _ _ =>
    exact settled knows

theorem thief_effect {after : Shared T} (knows : Thief exponent shared own)
    (effect : Effect exponent thread shared after) : Thief exponent after own := by
  have top := effect.top
  cases own with
  | stealLoaded _ | stealLooping _ => exact le_trans knows top
  | stealChecked t =>
    refine ⟨le_trans knows.1 top, ?_⟩
    intro still
    have same : shared.top = t := by
      have := knows.1
      omega
    have first := effect.first (still.trans same.symm) (by rw [same]; exact knows.2 same)
    rw [same] at first
    exact first.1
  | stealExchanging t val =>
    refine ⟨le_trans knows.1 top, ?_⟩
    intro still
    have same : shared.top = t := by
      have := knows.1
      omega
    have first := effect.first (still.trans same.symm) (by rw [same]; exact (knows.2 same).1)
    rw [same] at first
    exact ⟨first.1, (knows.2 same).2.trans first.2.symm⟩
  | _ => trivial

/-- An action that re-establishes what the acting thread has to. -/
structure Keeps (exponent thread : Nat) (before : Shared T) (result : Shared T × Local T) :
    Prop where
  common : Common exponent result.1
  own : Own exponent result.1 thread result.2
  effect : Effect exponent thread before result.1

/-- What the owner has to know after an action of its own. -/
theorem own_owner (knows : Owner exponent shared own)
    (thief : Thief exponent shared own := by trivial) : Own exponent shared 0 own :=
  ⟨fun notOwner => absurd rfl notOwner, fun _ => knows, thief⟩

theorem effect_refl : Effect exponent thread shared shared :=
  ⟨le_rfl, fun _ inside => ⟨inside, rfl⟩, fun _ => ⟨rfl, rfl, rfl, rfl, rfl⟩⟩

section

variable (common : Common exponent shared)
include common

/-- The numbers of all items pushed so far are below the next one. -/
theorem push_lt (member : item ∈ shared.history.pushed) :
    item.push < shared.history.pushed.length := by
  have inside : item.push ∈ shared.history.pushed.map Item.push := mem_map_of_mem member
  rw [common.numbered] at inside
  exact mem_range.mp inside

theorem pushWritten_keeps (own : Own exponent shared 0 (.pushWritten item b)) :
    Keeps exponent 0 shared
      ({ shared with
          bottom := b + 1
          history := { shared.history with
            pushed := shared.history.pushed ++ [⟨item, shared.history.pushed.length⟩]
            upper := b + 1 } }, .idle) := by
  obtain ⟨rfl, room, settled, written⟩ := own.owner rfl
  have isUpper := settled.bottom
  have more : items (2 ^ exponent) shared (shared.bottom + 1) =
      items (2 ^ exponent) shared shared.history.upper ++
        [⟨item, shared.history.pushed.length⟩] := by
    rw [isUpper, items_succ common.below, ← isUpper, written]
  have before := common.below
  refine ⟨⟨?_, ?_, ?_, ?_, ?_, ?_⟩, own_owner ⟨rfl, settled.inHand⟩,
    ⟨le_rfl, ?_, fun notOwner => absurd rfl notOwner⟩⟩
  · change shared.top ≤ shared.bottom + 1
    omega
  · exact room
  · exact le_refl _
  · simp [range_succ, common.numbered]
  · change (_ ++ items (2 ^ exponent) shared (shared.bottom + 1)).Perm _
    rw [more, ← append_assoc]
    exact common.account.append_right _
  · change (_ ++ items (2 ^ exponent) shared (shared.bottom + 1)).Pairwise _
    rw [more, ← append_assoc]
    refine pairwise_append.mpr ⟨common.ordered, pairwise_singleton _ _, ?_⟩
    intro _ member _ isLast
    obtain rfl := mem_singleton.mp isLast
    apply push_lt common
    apply common.account.subset
    rcases mem_append.mp member with stolen | still
    · simp [stolen]
    · simp [still]
  · intro _ _
    refine ⟨?_, rfl⟩
    change shared.top < shared.bottom + 1
    omega

theorem popStored_keeps (own : Own exponent shared 0 (.popStored b))
    (taken : act (2 ^ exponent) 0 shared (.popStored b) .proceed = some result) :
    Keeps exponent 0 shared result := by
  obtain ⟨rfl, upper, inHand⟩ := own.owner rfl
  simp only [act, Nat.add_sub_cancel] at taken
  split at taken
  · cases taken
    exact ⟨common, own_owner ⟨rfl, upper, inHand⟩, effect_refl⟩
  · rename_i notAbove
    split at taken
    · rename_i notLast
      cases taken
      have less : shared.top < shared.bottom := by omega
      have split : items (2 ^ exponent) shared shared.history.upper =
          items (2 ^ exponent) shared shared.bottom ++
            [shared.buffer (slot (2 ^ exponent) shared.bottom)] := by
        rw [upper, items_succ (le_of_lt less)]
      have near := common.near
      refine ⟨⟨le_of_lt less, ?_, le_rfl, common.numbered, ?_, ?_⟩, own_owner ⟨rfl, rfl, rfl⟩,
        ⟨le_rfl, fun _ _ => ⟨less, rfl⟩, fun notOwner => absurd rfl notOwner⟩⟩
      · change shared.bottom ≤ shared.top + 2 ^ exponent
        omega
      · refine List.Perm.trans ?_ common.account
        rw [split, inHand]
        simp only [append_nil, append_assoc]
        exact (perm_append_comm.append_left _).append_left _
      · have ordered := common.ordered
        rw [split, ← append_assoc] at ordered
        exact (pairwise_append.mp ordered).1
    · cases taken
      have isTop : shared.top = shared.bottom := by omega
      exact ⟨common, own_owner ⟨isTop, rfl, upper, inHand⟩, effect_refl⟩

/-- The owner wins the last item. -/
theorem popExchanging_keeps (own : Own exponent shared 0 (.popExchanging b t val))
    (taken : act (2 ^ exponent) 0 shared (.popExchanging b t val) .proceed = some result) :
    Keeps exponent 0 shared result := by
  obtain ⟨rfl, rfl, rfl, upper, inHand⟩ := own.owner rfl
  simp only [act] at taken
  split at taken
  · rename_i isTop
    cases taken
    have split : items (2 ^ exponent) shared shared.history.upper =
        shared.buffer (slot (2 ^ exponent) shared.bottom) ::
          items (2 ^ exponent) { shared with top := shared.bottom + 1 } shared.history.upper := by
      rw [items_cons (by omega), isTop]
    refine ⟨⟨?_, ?_, common.lower, common.numbered, ?_, ?_⟩, own_owner ⟨rfl, upper, rfl⟩,
      ⟨?_, ?_, fun notOwner => absurd rfl notOwner⟩⟩
    · exact le_of_eq upper.symm
    · have near := common.near
      change shared.history.upper ≤ shared.bottom + 1 + 2 ^ exponent
      omega
    · refine List.Perm.trans ?_ common.account
      rw [split, inHand]
      simp only [append_nil, append_assoc, cons_append, nil_append]
      exact .refl _
    · have ordered := common.ordered
      rw [split] at ordered
      exact ordered.sublist ((sublist_cons_self _ _).append_left _)
    · change shared.top ≤ shared.bottom + 1
      omega
    · intro same
      change shared.bottom + 1 = shared.top at same
      omega
  · cases taken
    exact ⟨common, own_owner ⟨rfl, upper, inHand⟩, effect_refl⟩

/-- A thief that finds `_top` unchanged takes the first item, which is the one it read. -/
theorem stealExchanging_keeps (own : Own exponent shared thread (.stealExchanging t val))
    (taken : act (2 ^ exponent) thread shared (.stealExchanging t val) .proceed = some result) :
    Keeps exponent thread shared result := by
  simp only [act] at taken
  split at taken
  · rename_i isTop
    cases taken
    obtain ⟨inside, rfl⟩ := own.thief.2 isTop
    subst isTop
    have split := @items_cons T exponent shared shared.history.upper inside
    refine ⟨⟨inside, ?_, common.lower, common.numbered, ?_, ?_⟩,
      ⟨fun _ => trivial, fun isOwner => ?_, trivial⟩,
      ⟨le_succ _, fun same => absurd same (succ_ne_self _), fun _ => ⟨rfl, rfl, rfl, rfl, rfl⟩⟩⟩
    · have near := common.near
      change shared.history.upper ≤ shared.top + 1 + 2 ^ exponent
      omega
    · refine List.Perm.trans ?_ common.account
      rw [split]
      simp only [append_assoc, cons_append, nil_append]
      exact (perm_middle.symm.append_left _).append_left _
    · have ordered := common.ordered
      rw [split] at ordered
      simp only [append_assoc, cons_append, nil_append]
      exact ordered
    · have settled : Settled shared := own.owner isOwner
      exact ⟨settled.bottom, settled.inHand⟩
  · cases taken
    exact ⟨common, ⟨fun _ => trivial, own.owner, le_rfl⟩, effect_refl⟩

end

theorem is_owner (holds : Own exponent shared thread own) (notThief : ¬ own.Steals) : thread = 0 :=
  Decidable.byContradiction fun notOwner => notThief (holds.role notOwner)

theorem act_keeps (common : Common exponent shared) (own : Own exponent shared thread before)
    (taken : act (2 ^ exponent) thread shared before event = some result) :
    Keeps exponent thread shared result := by
  match before, event with
  | .idle, .push _ | .idle, .pop =>
    obtain ⟨rfl, isResult⟩ := Option.ite_none_right_eq_some.mp taken
    cases isResult
    exact ⟨common, own_owner ⟨rfl, own.owner rfl⟩, effect_refl⟩
  | .pushLoaded item b, .proceed =>
    obtain rfl := is_owner own id
    obtain ⟨isBottom, settled⟩ := own.owner rfl
    simp only [act] at taken
    split at taken
    · cases taken
      exact ⟨common, ⟨fun _ => trivial, fun _ => settled, trivial⟩, effect_refl⟩
    · rename_i room
      cases taken
      exact ⟨common, own_owner ⟨isBottom, not_le.mp room, settled⟩, effect_refl⟩
  | .pushChecked item b, .proceed =>
    obtain rfl := is_owner own id
    obtain ⟨rfl, room, settled⟩ := own.owner rfl
    cases taken
    have isUpper := settled.bottom
    have same := @items_write T exponent shared shared.history.upper (isUpper ▸ room)
      (slot (2 ^ exponent) shared.bottom) (by rw [isUpper]) ⟨item, shared.history.pushed.length⟩
    refine ⟨{ common with account := ?_, ordered := ?_ },
      own_owner ⟨rfl, room, ⟨isUpper, settled.inHand⟩, Function.update_self ..⟩,
      ⟨le_rfl, fun _ inside => ⟨inside, ?_⟩, fun notOwner => absurd rfl notOwner⟩⟩
    · have account := common.account
      rw [← same] at account
      exact account
    · have ordered := common.ordered
      rw [← same] at ordered
      exact ordered
    · exact Function.update_of_ne (slot_ne (by omega) room) _ _
  | .pushWritten item b, .proceed =>
    obtain rfl := is_owner own id
    cases taken
    exact pushWritten_keeps common own
  | .popLoaded b, .proceed =>
    obtain rfl := is_owner own id
    obtain ⟨isBottom, settled⟩ := own.owner rfl
    simp only [act] at taken
    split at taken
    · cases taken
      exact ⟨common, ⟨fun _ => trivial, fun _ => settled, trivial⟩, effect_refl⟩
    · cases taken
      exact ⟨common, own_owner ⟨isBottom, by omega, settled⟩, effect_refl⟩
  | .popChecked b, .proceed =>
    obtain rfl := is_owner own id
    obtain ⟨rfl, some, settled⟩ := own.owner rfl
    cases taken
    refine ⟨{ common with lower := ?_ },
      own_owner ⟨Nat.sub_add_cancel some, settled.bottom.symm, settled.inHand⟩,
      ⟨le_rfl, fun _ inside => ⟨inside, rfl⟩, fun notOwner => absurd rfl notOwner⟩⟩
    exact le_trans (sub_le _ _) common.lower
  | .popStored b, .proceed =>
    obtain rfl := is_owner own id
    exact popStored_keeps common own taken
  | .popTaking b, .proceed =>
    obtain rfl := is_owner own id
    obtain ⟨rfl, isUpper, inHand⟩ := own.owner rfl
    cases taken
    refine ⟨{ common with account := ?_ },
      ⟨fun _ => trivial, fun _ => ⟨isUpper.symm, rfl⟩, trivial⟩,
      ⟨le_rfl, fun _ inside => ⟨inside, rfl⟩, fun notOwner => absurd rfl notOwner⟩⟩
    have account := common.account
    rw [inHand] at account
    refine List.Perm.trans ?_ account
    simp only [Nat.add_sub_cancel, append_nil, append_assoc]
    refine List.Perm.append_left _ ?_
    rw [← append_assoc, ← append_assoc]
    exact perm_append_comm.append_right _
  | .popLast b t, .proceed =>
    obtain rfl := is_owner own id
    obtain ⟨isBottom, lowered⟩ := own.owner rfl
    cases taken
    refine ⟨common, own_owner ⟨isBottom, ?_, lowered⟩, effect_refl⟩
    rw [← lowered.bottom, Nat.add_sub_cancel]
  | .popExchanging b t val, .proceed =>
    obtain rfl := is_owner own id
    exact popExchanging_keeps common own taken
  | .popRestoring b val, .proceed =>
    obtain rfl := is_owner own id
    obtain ⟨isBottom, isUpper, inHand⟩ := own.owner rfl
    cases taken
    refine ⟨{ common with lower := le_of_eq isUpper.symm, account := ?_ }, ⟨fun _ => trivial,
      fun _ => ⟨isUpper.symm, rfl⟩, trivial⟩,
      ⟨le_rfl, fun _ inside => ⟨inside, rfl⟩, fun notOwner => absurd rfl notOwner⟩⟩
    have account := common.account
    rw [inHand] at account
    refine List.Perm.trans ?_ account
    simp only [append_nil, append_assoc]
    refine List.Perm.append_left _ ?_
    rw [← append_assoc, ← append_assoc]
    exact perm_append_comm.append_right _
  | .idle, .steal =>
    cases taken
    exact ⟨common, ⟨fun _ => trivial, own.owner, le_rfl⟩, effect_refl⟩
  | .stealLoaded t, .proceed =>
    simp only [act] at taken
    split at taken <;> cases taken
    · exact ⟨common, ⟨fun _ => trivial, own.owner, trivial⟩, effect_refl⟩
    · exact ⟨common, { own with role := fun _ => trivial }, effect_refl⟩
  | .stealLooping t, .proceed =>
    simp only [act] at taken
    split at taken <;> cases taken
    · exact ⟨common, ⟨fun _ => trivial, own.owner, trivial⟩, effect_refl⟩
    · rename_i less
      exact ⟨common, ⟨fun _ => trivial, own.owner, own.thief,
        fun _ => lt_of_lt_of_le (not_le.mp less) common.lower⟩, effect_refl⟩
  | .stealChecked t, .proceed =>
    cases taken
    exact ⟨common, ⟨fun _ => trivial, own.owner, own.thief.1,
      fun still => ⟨own.thief.2 still, rfl⟩⟩, effect_refl⟩
  | .stealExchanging t val, .proceed => exact stealExchanging_keeps common own taken

theorem outline_sound : (outline (T := T) exponent).Sound (act (2 ^ exponent)) fun _ _ => True := by
  refine Outline.sound_of_moves (fun _ _ => trivial) ?_
  intro state thread _ shared own holds _ taken
  have keeps := act_keeps holds.common (holds.own thread) taken
  refine ⟨keeps.common, keeps.own, fun other distinct => ?_⟩
  have before : Own exponent state.shared other (state.locals other) := holds.own other
  refine ⟨before.role, ?_, thief_effect before.thief keeps.effect⟩
  intro isOwner
  refine owner_effect ?_ (before.owner isOwner) keeps.effect
  rintro rfl
  exact distinct isOwner

theorem outline_start (buffer : Nat → Item T) : (outline exponent).Holds (State.start buffer) where
  common := by
    refine ⟨le_rfl, le_add_right _ _, le_rfl, rfl, ?_, ?_⟩
    · simp [items, State.start]
    · simp [items, State.start]
  own _ := ⟨fun _ => trivial, fun _ => ⟨rfl, rfl⟩, trivial⟩
  apart _ _ _ := trivial

end

/-- No item is returned twice or without having been pushed, thieves get the items in the order
of the pushes, and when all threads are idle the items that were not returned are the ones from
`_top` up to `_bottom`. -/
theorem items_taken_once (exponent : Nat) (buffer : Nat → Item T)
    (events : List (Nat × Event T)) (final : State T)
    (ran : Machine.run (step (2 ^ exponent)) (State.start buffer) events = some final) :
    (final.shared.history.popped ++ final.shared.history.stolen).Nodup ∧
      (∀ item ∈ final.shared.history.popped ++ final.shared.history.stolen,
        item ∈ final.shared.history.pushed) ∧
      final.shared.history.stolen.Pairwise (fun earlier later => earlier.push < later.push) ∧
      ((∀ thread, final.locals thread = .idle) →
        (final.shared.history.popped ++ final.shared.history.stolen ++
          items (2 ^ exponent) final.shared final.shared.bottom).Perm
          final.shared.history.pushed) := by
  have holds := outline_sound.run events _ _ (outline_start buffer)
    (Machine.guarded_trivial _ _ _) ran
  have common : Common exponent final.shared := holds.common
  have distinct : final.shared.history.pushed.Nodup := by
    refine List.Nodup.of_map Item.push ?_
    rw [common.numbered]
    exact nodup_range
  have all := (common.account.nodup_iff).mpr distinct
  rw [append_assoc] at all
  refine ⟨(nodup_append.mp all).1, ?_, (pairwise_append.mp common.ordered).1, ?_⟩
  · intro item member
    apply common.account.subset
    rw [append_assoc]
    exact mem_append_left _ member
  · intro idle
    have own : Own exponent final.shared 0 (final.locals 0) := holds.own 0
    rw [idle 0] at own
    have settled : Settled final.shared := own.owner rfl
    have account := common.account
    rw [settled.inHand, append_nil, ← settled.bottom] at account
    exact account

/-- Two items are pushed; a thief takes the first while the owner pops the second and then
fails to pop another one. -/
def pushStealPop : List (Nat × Event Nat) :=
  [(0, .push 7), (0, .proceed), (0, .proceed), (0, .proceed), (0, .push 8), (0, .proceed),
    (0, .proceed), (0, .proceed), (1, .steal), (1, .proceed), (1, .proceed), (1, .proceed),
    (0, .pop), (0, .proceed), (0, .proceed), (0, .proceed), (0, .proceed), (1, .proceed),
    (0, .pop), (0, .proceed)]

theorem items_taken_once_two :
    ((Machine.run (step (2 ^ 1)) (State.start fun _ => ⟨0, 0⟩) pushStealPop).any fun final =>
      final.shared.history.popped = [⟨8, 1⟩] ∧ final.shared.history.stolen = [⟨7, 0⟩]) = true ∧
    ∀ final, Machine.run (step (2 ^ 1)) (State.start fun _ => ⟨0, 0⟩) pushStealPop = some final →
      (final.shared.history.popped ++ final.shared.history.stolen).Nodup :=
  ⟨by decide, fun final ran => (items_taken_once 1 (fun _ => ⟨0, 0⟩) pushStealPop final ran).1⟩

/-- There are never more items between `_top` and `_bottom` than the buffer has cells. -/
theorem ring_bounded (exponent : Nat) (buffer : Nat → Item T) (events : List (Nat × Event T))
    (final : State T)
    (ran : Machine.run (step (2 ^ exponent)) (State.start buffer) events = some final) :
    final.shared.bottom ≤ final.shared.top + 2 ^ exponent := by
  have common : Common exponent final.shared := (outline_sound.run events _ _
    (outline_start buffer) (Machine.guarded_trivial _ _ _) ran).common
  exact common.lower.trans common.near

theorem ring_bounded_two :
    ∃ final, Machine.run (step (2 ^ 1)) (State.start fun _ => ⟨0, 0⟩) pushStealPop = some final ∧
      final.shared.bottom ≤ final.shared.top + 2 ^ 1 :=
  ⟨_, rfl, ring_bounded 1 _ pushStealPop _ rfl⟩

end CodeReading.Brpc.WorkStealing
