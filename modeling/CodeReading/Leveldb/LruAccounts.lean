import CodeReading.Leveldb.LruCache
import Mathlib.Algebra.BigOperators.Group.Finset.Basic

/-!
# The references of the LRU cache

Everything the cache knows of one entry is its account: the memory, the two lists, the
handles the clients hold and the calls of its deleter. An operation of the cache changes the
account of one entry and leaves it balanced; the others stay as they are.
-/

namespace CodeReading.Leveldb

open HandleTable Option List Finset

variable {Key Value : Type}

namespace LruCache

section

variable (cache : LruCache Key Value)

def isCached (handle : Nat) : Bool :=
  (cache.heap handle).any fun entry => entry.inCache

def cached : Finset Nat :=
  (Finset.range cache.allocated).filter fun handle => cache.isCached handle

def charge (handle : Nat) : Nat :=
  (cache.heap handle).elim 0 fun entry => entry.charge.toNat

def totalCharge : Nat :=
  ∑ handle ∈ cache.cached, cache.charge handle

/-- What is known of an entry. -/
structure Account (Key Value : Type) where
  entry : Option (LruHandle Key Value)
  created : Bool
  idle : Bool
  busy : Bool
  held : Nat
  deletions : Nat

def account (held : List Nat) (handle : Nat) : Account Key Value where
  entry := cache.heap handle
  created := decide (handle < cache.allocated)
  idle := decide (handle ∈ cache.lru)
  busy := decide (handle ∈ cache.inUse)
  held := held.count handle
  deletions := cache.deleted.count handle

end

/-- The references are those of the clients and that of the cache, and the entry is where
they say. When there are none, it has been deleted, once. -/
def Account.Balanced (account : Account Key Value) : Prop :=
  match account.entry with
  | none =>
      account.idle = false ∧ account.busy = false ∧ account.held = 0 ∧
        account.deletions = account.created.toNat
  | some entry =>
      account.created = true ∧ account.deletions = 0 ∧ 0 < entry.refs.toNat ∧
        entry.refs.toNat = account.held + entry.inCache.toNat ∧
        (account.idle = true ↔ entry.inCache = true ∧ entry.refs.toNat = 1) ∧
        (account.busy = true ↔ entry.inCache = true ∧ 2 ≤ entry.refs.toNat)

/-- The state of the cache apart from its table. -/
structure Coherent (cache : LruCache Key Value) (held : List Nat) : Prop where
  balanced : ∀ handle, (cache.account held handle).Balanced
  lruNodup : cache.lru.Nodup
  inUseNodup : cache.inUse.Nodup
  usage : cache.usage.toNat = cache.totalCharge % 2 ^ 64

/-- What an operation on an entry leaves alone. -/
structure Frame (cache next : LruCache Key Value) : Prop where
  capacity : next.capacity = cache.capacity
  allocated : next.allocated = cache.allocated
  table : next.table = cache.table
  label : ∀ handle, next.isCached handle → next.label handle = cache.label handle

section

variable {cache next : LruCache Key Value} {held heldNext : List Nat} {handle : Nat}
  {entry : LruHandle Key Value}

section

variable (coherent : Coherent cache held)
include coherent

theorem balanced_entry (read : cache.heap handle = some entry) :
    handle < cache.allocated ∧ cache.deleted.count handle = 0 ∧ 0 < entry.refs.toNat ∧
      entry.refs.toNat = held.count handle + entry.inCache.toNat ∧
      (handle ∈ cache.lru ↔ entry.inCache = true ∧ entry.refs.toNat = 1) ∧
      (handle ∈ cache.inUse ↔ entry.inCache = true ∧ 2 ≤ entry.refs.toNat) := by
  have balanced := coherent.balanced handle
  simpa only [Account.Balanced, account, read, decide_eq_true_eq] using balanced

theorem balanced_none (read : cache.heap handle = none) :
    handle ∉ cache.lru ∧ handle ∉ cache.inUse ∧ held.count handle = 0 ∧
      cache.deleted.count handle = (decide (handle < cache.allocated)).toNat := by
  have balanced := coherent.balanced handle
  simpa only [Account.Balanced, account, read, decide_eq_false_iff_not] using balanced

theorem mem_cached :
    handle ∈ cache.cached ↔ ∃ entry, cache.heap handle = some entry ∧ entry.inCache = true := by
  rw [cached, Finset.mem_filter, isCached, Finset.mem_range]
  cases read : cache.heap handle with
  | none => simp
  | some entry =>
    have created := (balanced_entry coherent read).1
    simp [created]

theorem cached_listed (read : cache.heap handle = some entry) (inCache : entry.inCache = true) :
    handle ∈ cache.lru ∧ handle ∉ cache.inUse ∧ entry.refs.toNat = 1 ∨
      handle ∉ cache.lru ∧ handle ∈ cache.inUse ∧ 2 ≤ entry.refs.toNat := by
  obtain ⟨_, _, _, _, onLru, onInUse⟩ := balanced_entry coherent read
  rw [onLru, onInUse]
  simp only [inCache, true_and]
  omega

end

/-- The cache after the account of one entry has changed. -/
def changed (cache : LruCache Key Value) (handle : Nat) (entry : Option (LruHandle Key Value))
    (lru inUse deleted : List Nat) (usage : UInt64) : LruCache Key Value :=
  { cache with
    heap := Function.update cache.heap handle entry
    lru := lru
    inUse := inUse
    deleted := deleted
    usage := usage }

section

variable {change : Option (LruHandle Key Value)} {lru inUse deleted : List Nat} {usage : UInt64}

theorem changed_heap_of_ne (different : other ≠ handle) :
    (cache.changed handle change lru inUse deleted usage).heap other = cache.heap other :=
  Function.update_of_ne different _ _

theorem changed_heap_self :
    (cache.changed handle change lru inUse deleted usage).heap handle = change :=
  Function.update_self _ _ _

theorem changed_balanced_some {after : LruHandle Key Value} (created : handle < cache.allocated)
    (undeleted : deleted.count handle = 0) (positive : 0 < after.refs.toNat)
    (counted : after.refs.toNat = heldNext.count handle + after.inCache.toNat)
    (onLru : handle ∈ lru ↔ after.inCache = true ∧ after.refs.toNat = 1)
    (onInUse : handle ∈ inUse ↔ after.inCache = true ∧ 2 ≤ after.refs.toNat) :
    ((cache.changed handle (some after) lru inUse deleted usage).account heldNext
      handle).Balanced := by
  simp only [Account.Balanced, account, changed_heap_self]
  exact ⟨decide_eq_true created, undeleted, positive, counted, decide_eq_true_iff.trans onLru,
    decide_eq_true_iff.trans onInUse⟩

theorem changed_balanced_none (created : handle < cache.allocated) (once : deleted.count handle = 1)
    (unheld : heldNext.count handle = 0) (notLru : handle ∉ lru) (notInUse : handle ∉ inUse) :
    ((cache.changed handle none lru inUse deleted usage).account heldNext handle).Balanced := by
  simp only [Account.Balanced, account, changed_heap_self]
  refine ⟨decide_eq_false notLru, decide_eq_false notInUse, unheld, once.trans ?_⟩
  rw [changed, decide_eq_true created, Bool.toNat_true]

/-- The other accounts stay as they are, if the lists change only by the entry. -/
theorem changed_coherent (coherent : Coherent cache held)
    (lruFrame : ∀ other ≠ handle, (other ∈ lru ↔ other ∈ cache.lru))
    (inUseFrame : ∀ other ≠ handle, (other ∈ inUse ↔ other ∈ cache.inUse))
    (heldFrame : ∀ other ≠ handle, heldNext.count other = held.count other)
    (deletedFrame : ∀ other ≠ handle, deleted.count other = cache.deleted.count other)
    (here : ((cache.changed handle change lru inUse deleted usage).account heldNext
      handle).Balanced) (lruNodup : lru.Nodup) (inUseNodup : inUse.Nodup) (sum : usage.toNat =
      (cache.changed handle change lru inUse deleted usage).totalCharge % 2 ^ 64) :
    Coherent (cache.changed handle change lru inUse deleted usage) heldNext := by
  constructor
  · intro other
    by_cases same : other = handle
    · rw [same]
      exact here
    · have frame : (cache.changed handle change lru inUse deleted usage).account heldNext other =
          cache.account held other := by
        rw [account, changed_heap_of_ne same, heldFrame other same]
        simp only [changed, lruFrame other same, inUseFrame other same, deletedFrame other same]
        rfl
      rw [frame]
      exact coherent.balanced other
  · exact lruNodup
  · exact inUseNodup
  · exact sum

theorem changed_cached (coherent : Coherent cache held) (read : cache.heap handle = some entry) :
    (cache.changed handle change lru inUse deleted usage).cached =
      if change.any fun entry => entry.inCache then insert handle cache.cached
      else cache.cached.erase handle := by
  have created := (balanced_entry coherent read).1
  ext other
  by_cases same : other = handle
  · rw [same, cached, Finset.mem_filter, isCached, changed_heap_self]
    split
    · rename_i inCache
      exact ⟨fun _ => mem_insert_self _ _, fun _ => ⟨Finset.mem_range.mpr created, inCache⟩⟩
    · rename_i notCached
      exact ⟨fun both => absurd both.2 notCached, fun mem => absurd rfl (ne_of_mem_erase mem)⟩
  · have frame : other ∈ (cache.changed handle change lru inUse deleted usage).cached ↔
        other ∈ cache.cached := by
      rw [cached, cached, Finset.mem_filter, Finset.mem_filter, isCached, isCached,
        changed_heap_of_ne same]
      rfl
    rw [frame]
    split
    · simp [same]
    · simp [same]

theorem changed_charge_of_ne (different : other ≠ handle) :
    (cache.changed handle change lru inUse deleted usage).charge other = cache.charge other := by
  rw [charge, changed_heap_of_ne different, charge]

section

variable (coherent : Coherent cache held) (read : cache.heap handle = some entry)
include coherent read

/-- An entry that stays in the cache with its charge, or out of it, leaves the sum as it
is. -/
theorem changed_sum_same (cacheSame : (change.any fun entry => entry.inCache) = entry.inCache)
    (chargeSame : ∀ after, change = some after → after.inCache = true →
      after.charge = entry.charge) :
    (cache.changed handle change lru inUse deleted usage).cached = cache.cached ∧
      (cache.changed handle change lru inUse deleted usage).totalCharge = cache.totalCharge := by
  have present : handle ∈ cache.cached ↔ entry.inCache = true := by
    rw [mem_cached coherent, read]
    simp
  have same : (cache.changed handle change lru inUse deleted usage).cached = cache.cached := by
    rw [changed_cached coherent read, cacheSame]
    split
    · rename_i inCache
      exact insert_eq_of_mem (present.mpr inCache)
    · rename_i outside
      exact erase_eq_of_notMem (outside ∘ present.mp)
  refine ⟨same, ?_⟩
  rw [totalCharge, totalCharge, same]
  apply sum_congr rfl
  intro other mem
  by_cases isHandle : other = handle
  · subst isHandle
    have inCache := present.mp mem
    rw [charge, charge, changed_heap_self, read, elim_some]
    cases change with
    | none =>
      rw [inCache] at cacheSame
      cases cacheSame
    | some after => rw [elim_some, chargeSame after rfl (cacheSame.trans inCache)]
  · exact changed_charge_of_ne isHandle

/-- An entry that leaves the cache takes its charge out of the sum. -/
theorem changed_sum_erase (inCache : entry.inCache = true)
    (leaves : (change.any fun entry => entry.inCache) = false) :
    (cache.changed handle change lru inUse deleted usage).cached = cache.cached.erase handle ∧
      (cache.changed handle change lru inUse deleted usage).totalCharge =
        cache.totalCharge - entry.charge.toNat ∧
      entry.charge.toNat ≤ cache.totalCharge := by
  have same : (cache.changed handle change lru inUse deleted usage).cached =
      cache.cached.erase handle := by
    rw [changed_cached coherent read, leaves]
    rfl
  have present := (mem_cached coherent).mpr ⟨entry, read, inCache⟩
  have own : cache.charge handle = entry.charge.toNat := by rw [charge, read, elim_some]
  have parts : cache.totalCharge =
      entry.charge.toNat + ∑ other ∈ cache.cached.erase handle, cache.charge other := by
    rw [totalCharge, ← add_sum_erase _ _ present, own]
  refine ⟨same, ?_, by omega⟩
  rw [parts, Nat.add_sub_cancel_left, totalCharge, same]
  apply sum_congr rfl
  intro other mem
  exact changed_charge_of_ne (ne_of_mem_erase mem)

end

/-- An entry keeps its label as long as it is in the cache. -/
theorem changed_frame (read : cache.heap handle = some entry)
    (kept : ∀ after, change = some after → after.inCache = true →
      after.hash = entry.hash ∧ after.key = entry.key) :
    Frame cache (cache.changed handle change lru inUse deleted usage) := by
  refine ⟨rfl, rfl, rfl, ?_⟩
  intro other isCached
  by_cases same : other = handle
  · subst same
    rw [LruCache.isCached, changed_heap_self] at isCached
    rw [label, label, changed_heap_self, read]
    cases change with
    | none => cases isCached
    | some after =>
      obtain ⟨hash, key⟩ := kept after rfl isCached
      rw [map_some, map_some, hash, key]
  · rw [label, label, changed_heap_of_ne same]

end

end

section

theorem refs_eq_one (refs : UInt32) : refs = 1 ↔ refs.toNat = 1 := by
  rw [← UInt32.toNat_inj]
  rfl

theorem refs_eq_zero (refs : UInt32) : refs = 0 ↔ refs.toNat = 0 := by
  rw [← UInt32.toNat_inj]
  rfl

theorem refs_lower {refs : UInt32} (positive : 0 < refs.toNat) :
    (refs - 1).toNat = refs.toNat - 1 := by
  have one : (1 : UInt32).toNat = 1 := rfl
  rw [UInt32.toNat_sub_of_le, one]
  rw [UInt32.le_iff_toNat_le, one]
  exact positive

theorem refs_raise {refs : UInt32} (few : refs.toNat + 1 < 2 ^ 32) :
    (refs + 1).toNat = refs.toNat + 1 := by
  rw [UInt32.toNat_add]
  exact Nat.mod_eq_of_lt few

end

section

variable {cache : LruCache Key Value} {held : List Nat} {handle : Nat}
  {entry : LruHandle Key Value}

section

variable (coherent : Coherent cache held) (read : cache.heap handle = some entry)
  (inCache : entry.inCache = true)
include coherent read inCache

theorem lruRemove_cached : cache.lruRemove handle = some { cache with
      lru := cache.lru.erase handle
      inUse := cache.inUse.erase handle } := by
  rw [lruRemove]
  cases cached_listed coherent read inCache with
  | inl idle => rw [if_pos idle.1, erase_of_not_mem idle.2.1]
  | inr busy => rw [if_neg busy.1, if_pos busy.2.1, erase_of_not_mem busy.1]

/-- A further handle of an entry in the cache. It is taken from `lru_`, if it is there. -/
theorem ref_eq :
    cache.ref handle = some (cache.changed handle (some { entry with refs := entry.refs + 1 })
      (cache.lru.erase handle)
      (if entry.refs = 1 then cache.inUse ++ [handle] else cache.inUse)
      cache.deleted cache.usage) := by
  have removed := lruRemove_cached coherent read inCache
  simp only [ref, read, bind_some, inCache, and_true]
  cases cached_listed coherent read inCache with
  | inl idle =>
    have one := (refs_eq_one _).mpr idle.2.2
    rw [if_pos one, if_pos one, removed, erase_of_not_mem idle.2.1]
    rfl
  | inr busy =>
    have more : entry.refs ≠ 1 := by
      rw [Ne, refs_eq_one]
      omega
    rw [if_neg more, if_neg more, erase_of_not_mem busy.1]
    rfl

theorem ref_coherent (few : held.count handle + 2 < 2 ^ 32) :
    Coherent (cache.changed handle (some { entry with refs := entry.refs + 1 })
      (cache.lru.erase handle)
      (if entry.refs = 1 then cache.inUse ++ [handle] else cache.inUse)
      cache.deleted cache.usage) (handle :: held) := by
  obtain ⟨created, undeleted, _, counted, onLru, onInUse⟩ := balanced_entry coherent read
  have raised : (entry.refs + 1).toNat = entry.refs.toNat + 1 := by
    apply refs_raise
    rw [counted, inCache, Bool.toNat_true]
    exact few
  apply changed_coherent coherent
  · intro other different
    exact mem_erase_of_ne different
  · intro other different
    split
    · simp [different]
    · rfl
  · intro other different
    exact count_cons_of_ne (Ne.symm different)
  · intro other _
    rfl
  · apply changed_balanced_some created undeleted
    · rw [raised]
      omega
    · simp only [raised, counted, count_cons_self]
      omega
    · rw [raised]
      have notLru := coherent.lruNodup.not_mem_erase (a := handle)
      constructor
      · intro onLru
        exact absurd onLru notLru
      · intro _
        omega
    · rw [raised]
      constructor
      · intro _
        exact ⟨inCache, by omega⟩
      · intro _
        split
        · simp
        · rename_i more
          rw [refs_eq_one] at more
          exact onInUse.mpr ⟨inCache, by omega⟩
  · exact coherent.lruNodup.erase handle
  · split
    · rename_i one
      rw [refs_eq_one] at one
      have notInUse : handle ∉ cache.inUse := by
        rw [onInUse]
        omega
      rw [← concat_eq_append]
      exact coherent.inUseNodup.concat notInUse
    · exact coherent.inUseNodup
  · rw [(changed_sum_same coherent read rfl (by rintro _ ⟨⟩ _; rfl)).2]
    exact coherent.usage

end

/-- An entry out of the cache that has lost a reference. The last one frees it. -/
def leaving (entry : LruHandle Key Value) : Option (LruHandle Key Value) :=
  if entry.refs = 1 then none else some { entry with inCache := false, refs := entry.refs - 1 }

theorem leaving_outside (entry : LruHandle Key Value) :
    ((leaving entry).any fun entry => entry.inCache) = false := by
  rw [leaving]
  split
  · rfl
  · rfl

theorem unref_outside (read : cache.heap handle = some entry) (positive : 0 < entry.refs.toNat)
    (outside : entry.inCache = false) :
    cache.unref handle = some (cache.changed handle (leaving entry) cache.lru cache.inUse
      (cache.deleted ++ if entry.refs = 1 then [handle] else []) cache.usage) := by
  have notZero : entry.refs ≠ 0 := by
    rw [Ne, refs_eq_zero]
    omega
  have last : entry.refs - 1 = 0 ↔ entry.refs = 1 := by
    rw [refs_eq_zero, refs_lower positive, refs_eq_one]
    omega
  simp only [unref, read, bind_some, if_neg notZero, outside, leaving, last]
  by_cases one : entry.refs = 1
  · simp [one, free, write, changed]
  · simp [one, write, changed]

theorem leaving_coherent {heldNext lru inUse : List Nat} {usage : UInt64}
    (coherent : Coherent cache held) (read : cache.heap handle = some entry)
    (lruFrame : ∀ other ≠ handle, (other ∈ lru ↔ other ∈ cache.lru))
    (inUseFrame : ∀ other ≠ handle, (other ∈ inUse ↔ other ∈ cache.inUse))
    (heldFrame : ∀ other ≠ handle, heldNext.count other = held.count other)
    (counted : entry.refs.toNat = heldNext.count handle + 1) (notLru : handle ∉ lru)
    (notInUse : handle ∉ inUse) (lruNodup : lru.Nodup) (inUseNodup : inUse.Nodup)
    (sum : usage.toNat = (cache.changed handle (leaving entry) lru inUse
      (cache.deleted ++ if entry.refs = 1 then [handle] else []) usage).totalCharge % 2 ^ 64) :
    Coherent (cache.changed handle (leaving entry) lru inUse
      (cache.deleted ++ if entry.refs = 1 then [handle] else []) usage) heldNext := by
  obtain ⟨created, undeleted, positive, _⟩ := balanced_entry coherent read
  apply changed_coherent coherent lruFrame inUseFrame heldFrame _ _ lruNodup inUseNodup sum
  · intro other different
    rw [count_append]
    split
    · rw [count_singleton, if_neg (by simpa using Ne.symm different), Nat.add_zero]
    · rfl
  · by_cases one : entry.refs = 1
    · simp only [leaving, one, if_true]
      rw [refs_eq_one] at one
      apply changed_balanced_none created
      · rw [count_append, undeleted, count_singleton_self]
      · omega
      · exact notLru
      · exact notInUse
    · simp only [leaving, one, if_false, append_nil]
      rw [refs_eq_one] at one
      have lowered := refs_lower positive
      apply changed_balanced_some created undeleted
      · rw [lowered]
        omega
      · rw [lowered, counted]
        rfl
      · simpa using notLru
      · simpa using notInUse

/-- What giving a handle back does to the cache. -/
def Released (cache next : LruCache Key Value) (held : List Nat) (handle : Nat) : Prop :=
  Coherent next (held.erase handle) ∧ Frame cache next ∧ next.cached = cache.cached ∧
    handle ∉ cache.lru ∧ (next.lru = cache.lru ∨ next.lru = cache.lru ++ [handle])

section

variable (coherent : Coherent cache held) (holds : handle ∈ held)
include coherent holds

/-- The last handle of an entry out of the cache frees it. -/
theorem released_outside (read : cache.heap handle = some entry) (outside : entry.inCache = false) :
    ∃ next, cache.unref handle = some next ∧ Released cache next held handle := by
  obtain ⟨_, _, positive, counted, onLru, onInUse⟩ := balanced_entry coherent read
  simp only [outside, Bool.toNat_false, Bool.false_eq_true, false_and, iff_false]
    at counted onLru onInUse
  have counts := count_pos_iff.mpr holds
  have fewer : (held.erase handle).count handle = held.count handle - 1 := count_erase_self
  have staysOut := (leaving_outside entry).trans outside.symm
  have never : ∀ after, leaving entry = some after → after.inCache ≠ true := by
    intro after isLeaving contrary
    rw [isLeaving, any_some, contrary, outside] at staysOut
    cases staysOut
  refine ⟨_, unref_outside read positive outside, ?_, ?_, ?_, onLru, .inl rfl⟩
  · apply leaving_coherent coherent read (fun _ _ => Iff.rfl) (fun _ _ => Iff.rfl)
      (fun _ different => count_erase_of_ne different) (by omega) onLru onInUse
      coherent.lruNodup coherent.inUseNodup
    rw [(changed_sum_same coherent read staysOut
      fun after isLeaving contrary => absurd contrary (never after isLeaving)).2]
    exact coherent.usage
  · exact changed_frame read
      fun after isLeaving contrary => absurd contrary (never after isLeaving)
  · exact (changed_sum_same coherent read staysOut
      fun after isLeaving contrary => absurd contrary (never after isLeaving)).1

/-- The last handle of an entry in the cache puts it at the end of `lru_`. -/
theorem released_cached (read : cache.heap handle = some entry) (inCache : entry.inCache = true) :
    ∃ next, cache.unref handle = some next ∧ Released cache next held handle := by
  obtain ⟨created, undeleted, positive, counted, onLru, onInUse⟩ := balanced_entry coherent read
  have counts := count_pos_iff.mpr holds
  have fewer : (held.erase handle).count handle = held.count handle - 1 := count_erase_self
  have lowered := refs_lower positive
  rw [inCache, Bool.toNat_true] at counted
  have notLru : handle ∉ cache.lru := by
    rw [onLru]
    omega
  have inUse : handle ∈ cache.inUse := onInUse.mpr ⟨inCache, by omega⟩
  have last : entry.refs - 1 = 1 ↔ entry.refs.toNat = 2 := by
    rw [refs_eq_one]
    omega
  have result : cache.unref handle = some (cache.changed handle
      (some { entry with refs := entry.refs - 1 })
      (if entry.refs.toNat = 2 then cache.lru ++ [handle] else cache.lru)
      (if entry.refs.toNat = 2 then cache.inUse.erase handle else cache.inUse)
      cache.deleted cache.usage) := by
    have notZero : entry.refs ≠ 0 ∧ entry.refs - 1 ≠ 0 := by
      rw [Ne, Ne, refs_eq_zero, refs_eq_zero]
      omega
    simp only [unref, read, bind_some, if_neg notZero.1, if_neg notZero.2, inCache, true_and, last]
    split
    · simp [lruRemove, write, changed, notLru, inUse]
    · rfl
  refine ⟨_, result, ?_, ?_, ?_, notLru, ?_⟩
  · apply changed_coherent coherent
    · intro other different
      split
      · simp [different]
      · rfl
    · intro other different
      split
      · exact mem_erase_of_ne different
      · rfl
    · intro other different
      exact count_erase_of_ne different
    · intro other _
      rfl
    · apply changed_balanced_some created undeleted
      · rw [lowered]
        omega
      · simp only [lowered, counted, fewer, inCache, Bool.toNat_true]
        omega
      · simp only [lowered, inCache, true_and]
        split
        · simp
          omega
        · simp only [notLru, false_iff]
          omega
      · simp only [lowered, inCache, true_and]
        split
        · simp only [coherent.inUseNodup.not_mem_erase, false_iff]
          omega
        · simp only [inUse, true_iff]
          omega
    · split
      · rw [← concat_eq_append]
        exact coherent.lruNodup.concat notLru
      · exact coherent.lruNodup
    · split
      · exact coherent.inUseNodup.erase handle
      · exact coherent.inUseNodup
    · rw [(changed_sum_same coherent read rfl (by rintro _ ⟨⟩ _; rfl)).2]
      exact coherent.usage
  · apply changed_frame read
    rintro _ ⟨⟩ _
    exact ⟨rfl, rfl⟩
  · exact (changed_sum_same coherent read rfl (by rintro _ ⟨⟩ _; rfl)).1
  · simp only [changed]
    split
    · exact .inr rfl
    · exact .inl rfl

theorem unref_released :
    ∃ next, cache.unref handle = some next ∧ Released cache next held handle := by
  cases read : cache.heap handle with
  | none =>
    have unheld := (balanced_none coherent read).2.2.1
    exact absurd holds (count_eq_zero.mp unheld)
  | some entry =>
    cases inCache : entry.inCache with
    | false => exact released_outside coherent holds read inCache
    | true => exact released_cached coherent holds read inCache

end

/-- An entry is taken out of the cache. If no client holds it, it is in `lru_` and freed. -/
theorem finishErase_cached (coherent : Coherent cache held) (read : cache.heap handle = some entry)
    (inCache : entry.inCache = true) :
    ∃ next, cache.finishErase (some handle) = some next ∧ Coherent next held ∧
      Frame cache next ∧ next.cached = cache.cached.erase handle ∧
      next.lru = cache.lru.erase handle ∧
      next.deleted = cache.deleted ++ if handle ∈ cache.lru then [handle] else [] := by
  obtain ⟨_, _, positive, counted, onLru, _⟩ := balanced_entry coherent read
  rw [inCache, Bool.toNat_true] at counted
  have idle : handle ∈ cache.lru ↔ entry.refs = 1 := by
    rw [onLru, refs_eq_one]
    exact and_iff_right inCache
  have result : cache.finishErase (some handle) = some (cache.changed handle (leaving entry)
      (cache.lru.erase handle) (cache.inUse.erase handle)
      (cache.deleted ++ if entry.refs = 1 then [handle] else [])
      (cache.usage - entry.charge)) := by
    have unlinked : ({ ({ cache with
          lru := cache.lru.erase handle
          inUse := cache.inUse.erase handle } : LruCache Key Value).write handle
            { entry with inCache := false } with
        usage := cache.usage - entry.charge } : LruCache Key Value).heap handle =
          some { entry with inCache := false } := Function.update_self _ _ _
    simp only [finishErase, read, bind_some, inCache, if_true,
      lruRemove_cached coherent read inCache]
    rw [unref_outside unlinked positive rfl]
    simp [changed, write, leaving]
  refine ⟨_, result, ?_, ?_, ?_, rfl, ?_⟩
  · apply leaving_coherent coherent read (fun _ different => mem_erase_of_ne different)
      (fun _ different => mem_erase_of_ne different) (fun _ _ => rfl) counted
      coherent.lruNodup.not_mem_erase coherent.inUseNodup.not_mem_erase
      (coherent.lruNodup.erase handle) (coherent.inUseNodup.erase handle)
    obtain ⟨_, sum, _⟩ := changed_sum_erase coherent read inCache (leaving_outside entry)
    have usage := coherent.usage
    have bound := entry.charge.toNat_lt
    rw [UInt64.toNat_sub, sum]
    omega
  · apply changed_frame read
    intro _ isLeaving contrary
    have outside := leaving_outside entry
    rw [isLeaving, any_some, contrary] at outside
    cases outside
  · exact (changed_sum_erase coherent read inCache (leaving_outside entry)).1
  · simp [changed, idle]

end

section

variable {cache : LruCache Key Value} {entry : LruHandle Key Value}

/-- The cache with a new entry, which is linked into `in_use_` when it is in the cache. -/
def allocate (cache : LruCache Key Value) (entry : LruHandle Key Value) : LruCache Key Value :=
  { cache with
    allocated := cache.allocated + 1
    heap := Function.update cache.heap cache.allocated (some entry)
    inUse := if entry.inCache then cache.inUse ++ [cache.allocated] else cache.inUse
    usage := if entry.inCache then cache.usage + entry.charge else cache.usage }

theorem allocated_unread (coherent : Coherent cache held) : cache.heap cache.allocated = none := by
  cases read : cache.heap cache.allocated with
  | none => rfl
  | some entry => exact absurd (balanced_entry coherent read).1 (lt_irrefl _)

theorem allocate_heap_of_ne (different : other ≠ cache.allocated) :
    (cache.allocate entry).heap other = cache.heap other :=
  Function.update_of_ne different _ _

theorem allocate_heap_self : (cache.allocate entry).heap cache.allocated = some entry :=
  Function.update_self _ _ _

theorem allocate_cached :
    (cache.allocate entry).cached =
      if entry.inCache then insert cache.allocated cache.cached else cache.cached := by
  ext other
  by_cases same : other = cache.allocated
  · subst same
    rw [cached, Finset.mem_filter, isCached, allocate_heap_self, any_some, Finset.mem_range]
    have absent : cache.allocated ∉ cache.cached := by simp [cached]
    have created : cache.allocated < (cache.allocate entry).allocated := Nat.lt_succ_self _
    split
    · simp_all
    · simp_all
  · have range : other < (cache.allocate entry).allocated ↔ other < cache.allocated :=
      Nat.lt_succ_iff_lt_or_eq.trans (or_iff_left same)
    rw [cached, Finset.mem_filter, isCached, allocate_heap_of_ne same, Finset.mem_range, range]
    split
    · rw [mem_insert, cached, Finset.mem_filter, Finset.mem_range, isCached]
      simp [same]
    · rw [cached, Finset.mem_filter, Finset.mem_range, isCached]

theorem allocate_totalCharge :
    (cache.allocate entry).totalCharge =
      cache.totalCharge + if entry.inCache then entry.charge.toNat else 0 := by
  have others : ∑ handle ∈ cache.cached, (cache.allocate entry).charge handle =
      cache.totalCharge := by
    apply sum_congr rfl
    intro handle mem
    have created := Finset.mem_range.mp (Finset.mem_filter.mp mem).1
    rw [charge, allocate_heap_of_ne created.ne, charge]
  have absent : cache.allocated ∉ cache.cached := by simp [cached]
  rw [totalCharge, allocate_cached]
  split
  · rw [sum_insert absent, others, charge, allocate_heap_self, elim_some, Nat.add_comm]
  · exact others

/-- A new entry has the handle that is returned, and the reference of the cache. -/
theorem allocate_coherent (coherent : Coherent cache held)
    (counted : entry.refs.toNat = 1 + entry.inCache.toNat) :
    Coherent (cache.allocate entry) (cache.allocated :: held) := by
  obtain ⟨notLru, notInUse, unheld, undeleted⟩ := balanced_none coherent (allocated_unread coherent)
  rw [decide_eq_false (lt_irrefl _), Bool.toNat_false] at undeleted
  constructor
  · intro other
    by_cases same : other = cache.allocated
    · subst same
      simp only [Account.Balanced, account, allocate_heap_self]
      refine ⟨decide_eq_true (Nat.lt_succ_self _), undeleted, by omega, ?_, ?_, ?_⟩
      · rw [counted, count_cons_self, unheld, Nat.zero_add]
      · rw [decide_eq_true_iff]
        refine (iff_of_false notLru ?_)
        rintro ⟨inCache, _⟩
        rw [inCache, Bool.toNat_true] at counted
        omega
      · rw [decide_eq_true_iff]
        cases inCache : entry.inCache with
        | false => simp [allocate, inCache, notInUse]
        | true =>
          rw [inCache, Bool.toNat_true] at counted
          simp [allocate, inCache, counted]
    · have frame : (cache.allocate entry).account (cache.allocated :: held) other =
          cache.account held other := by
        have range : other < cache.allocated + 1 ↔ other < cache.allocated := by omega
        have inUse : other ∈ (cache.allocate entry).inUse ↔ other ∈ cache.inUse := by
          simp only [allocate]
          split
          · simp [same]
          · rfl
        rw [account, allocate_heap_of_ne same, count_cons_of_ne (Ne.symm same)]
        simp only [inUse]
        simp only [allocate, range]
        rfl
      rw [frame]
      exact coherent.balanced other
  · exact coherent.lruNodup
  · simp only [allocate]
    split
    · rw [← concat_eq_append]
      exact coherent.inUseNodup.concat notInUse
    · exact coherent.inUseNodup
  · rw [allocate_totalCharge]
    have usage := coherent.usage
    simp only [allocate]
    split
    · rw [UInt64.toNat_add, usage]
      omega
    · exact usage

end

end LruCache

end CodeReading.Leveldb
