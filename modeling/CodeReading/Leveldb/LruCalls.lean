import CodeReading.Leveldb.LruAccounts

/-!
# Runs of the LRU cache

Between calls the accounts are balanced and the table holds the entries in the cache. Every
call that the clients may make succeeds: no assertion fails and nothing that was freed is
read. From the state after any sequence of calls the properties of the cache follow.
-/

namespace CodeReading.Leveldb

open HandleTable List Option LruCache

variable {Key Value : Type}

namespace LruCache

/-- The state of a cache between calls. -/
structure Sound (cache : LruCache Key Value) (held : List Nat) : Prop where
  coherent : Coherent cache held
  holds : HandleTable.Holds cache.label cache.table cache.cached

section

variable {cache : LruCache Key Value} {held : List Nat}

theorem sound_of_frame {next : LruCache Key Value} (sound : Sound cache held)
    (coherent : Coherent next heldNext)
    (frame : Frame cache next) (cachedSame : next.cached = cache.cached) : Sound next heldNext := by
  refine ⟨coherent, ?_⟩
  rw [frame.table, cachedSame]
  apply holds_congr sound.holds
  intro handle mem
  rw [← cachedSame] at mem
  exact frame.label handle (Finset.mem_filter.mp mem).2

/-- What the removal of an entry does to `lru_`. -/
def lruWithout (cache : LruCache Key Value) (found : Option Nat) : List Nat :=
  found.elim cache.lru cache.lru.erase

/-- The entry, if no client holds it. -/
def idleOf (cache : LruCache Key Value) (found : Option Nat) : List Nat :=
  (found.filter fun handle => decide (handle ∈ cache.lru)).toList

theorem finishErase_sound (coherent : Coherent cache held)
    (inCache : ∀ handle ∈ found, handle ∈ cache.cached)
    (holds : HandleTable.Holds cache.label cache.table (cache.cached \ found.toFinset)) :
    ∃ next, cache.finishErase found = some next ∧ Sound next held ∧
      next.capacity = cache.capacity ∧ next.lru = cache.lruWithout found ∧
      next.deleted = cache.deleted ++ cache.idleOf found := by
  cases found with
  | none =>
    rw [toFinset_none, Finset.sdiff_empty] at holds
    refine ⟨cache, rfl, ⟨coherent, holds⟩, rfl, rfl, ?_⟩
    rw [idleOf, filter_none, toList_none, append_nil]
  | some handle =>
    obtain ⟨_, read, isCached⟩ := (mem_cached coherent).mp (inCache handle rfl)
    obtain ⟨next, result, coherentNext, frame, cachedNext, lru, deleted⟩ :=
      finishErase_cached coherent read isCached
    rw [toFinset_some, Finset.sdiff_singleton_eq_erase, ← cachedNext, ← frame.table]
      at holds
    refine ⟨next, result, ⟨coherentNext, holds_congr holds ?_⟩, frame.capacity, lru, ?_⟩
    · intro other mem
      exact frame.label other (Finset.mem_filter.mp mem).2
    · rw [deleted, idleOf]
      congr 1
      by_cases idle : handle ∈ cache.lru
      · simp [idle, Option.filter]
      · simp [idle, Option.filter]

variable [DecidableEq Key]

section

variable (sound : Sound cache held)
include sound

theorem remove_sound (key : Key) (hash : UInt32) :
    ∃ table found next, cache.table.remove cache.label key hash = some (table, found) ∧
      finishErase { cache with table := table } found = some next ∧
      (∀ handle, found = some handle ↔
        handle ∈ cache.cached ∧ cache.label handle = some (hash, key)) ∧
      Sound next held ∧ next.capacity = cache.capacity ∧ next.lru = cache.lruWithout found ∧
      next.deleted = cache.deleted ++ cache.idleOf found := by
  obtain ⟨table, found, removed, matching, holds⟩ := remove_holds sound.holds key hash
  have coherent : Coherent { cache with table := table } held :=
    { sound.coherent with }
  obtain ⟨next, result, later⟩ := finishErase_sound coherent
    (fun handle isFound => ((matching handle).mp isFound).1) holds
  exact ⟨table, found, next, removed, result, matching, later⟩

theorem erase_sound (key : Key) (hash : UInt32) :
    ∃ next found, cache.erase key hash = some next ∧ Sound next held ∧
      next.lru = cache.lruWithout found := by
  obtain ⟨_, found, next, removed, result, _, soundNext, _, lru, _⟩ := remove_sound sound key hash
  refine ⟨next, found, ?_, soundNext, lru⟩
  rw [LruCache.erase, removed, bind_some]
  exact result

theorem evictOldest_sound (isLru : cache.lru = old :: rest) :
    ∃ next, cache.evictOldest = some next ∧ Sound next held ∧ next.capacity = cache.capacity ∧
      next.lru = rest ∧ next.deleted = cache.deleted ++ [old] := by
  have onLru : old ∈ cache.lru := isLru ▸ (.head _)
  cases read : cache.heap old with
  | none => exact absurd onLru (balanced_none sound.coherent read).1
  | some entry =>
    obtain ⟨inCache, one⟩ := (balanced_entry sound.coherent read).2.2.2.2.1.mp onLru
    obtain ⟨_, found, next, removed, result, matching, soundNext, capacity, lru, deleted⟩ :=
      remove_sound sound entry.key entry.hash
    have isFound : found = some old := by
      rw [matching, mem_cached sound.coherent, label, read]
      exact ⟨⟨entry, rfl, inCache⟩, rfl⟩
    subst isFound
    refine ⟨next, ?_, soundNext, capacity, ?_, ?_⟩
    · simp [evictOldest, isLru, read, (refs_eq_one _).mpr one, removed, ← result]
    · rw [lru, lruWithout, elim_some, isLru, erase_cons_head]
    · rw [deleted, idleOf]
      simp [onLru, Option.filter]

/-- The loop erases entries from the beginning of `lru_`, until there is no reason to or
none is left. -/
theorem evictWhile_sound (reason : LruCache Key Value → Bool) (enough : cache.lru.length ≤ turns) :
    ∃ next evicted, evictWhile reason turns cache = some next ∧ Sound next held ∧
      next.capacity = cache.capacity ∧ cache.lru = evicted ++ next.lru ∧
      next.deleted = cache.deleted ++ evicted ∧ (reason next = false ∨ next.lru = []) := by
  induction turns generalizing cache with
  | zero =>
    have none : cache.lru = [] := eq_nil_of_length_eq_zero (Nat.le_zero.mp enough)
    refine ⟨cache, [], ?_, sound, rfl, rfl, (append_nil _).symm, .inr none⟩
    rw [evictWhile, if_neg]
    exact fun both => both.2 none
  | succ turns ih =>
    rw [evictWhile]
    split
    · rename_i goesOn
      cases isLru : cache.lru with
      | nil => exact absurd isLru goesOn.2
      | cons old rest =>
        obtain ⟨next, evictedOne, soundNext, capacity, lru, deleted⟩ :=
          evictOldest_sound sound isLru
        have fewer : next.lru.length ≤ turns := by
          rw [isLru, length_cons] at enough
          rw [lru]
          omega
        obtain ⟨final, evicted, ran, soundFinal, capacityFinal, lruFinal, deletedFinal, ends⟩ :=
          ih soundNext fewer
        refine ⟨final, old :: evicted, ?_, soundFinal, capacityFinal.trans capacity, ?_, ?_, ends⟩
        · rw [evictedOne, bind_some, ran]
        · rw [cons_append, ← lruFinal, lru]
        · rw [deletedFinal, deleted, append_assoc]
          rfl
    · rename_i stops
      refine ⟨cache, [], rfl, sound, rfl, rfl, (append_nil _).symm, ?_⟩
      by_cases reasoned : reason cache = true
      · exact .inr (not_not.mp fun some => stops ⟨reasoned, some⟩)
      · exact .inl (Bool.not_eq_true _ ▸ reasoned)

theorem prune_sound : ∃ next, cache.prune = some next ∧ Sound next held ∧ next.lru = [] := by
  obtain ⟨next, _, ran, soundNext, _, _, _, ends⟩ := evictWhile_sound sound (fun _ => true) le_rfl
  refine ⟨next, ran, soundNext, ?_⟩
  cases ends with
  | inl contrary => cases contrary
  | inr none => exact none

theorem lookup_sound {hash : UInt32}
    (few : ∀ handle ∈ (cache.table.lookup cache.label key hash).join, held.count handle + 2 < 2 ^
      32) : ∃ next found, cache.lookup key hash = some (next, found) ∧
      Sound next (found.toList ++ held) ∧ next.lru = cache.lruWithout found := by
  obtain ⟨found, looked, matching⟩ := lookup_holds sound.holds key hash
  rw [LruCache.lookup, looked, bind_some]
  rw [looked, join_some] at few
  cases found with
  | none => exact ⟨cache, none, rfl, sound, rfl⟩
  | some handle =>
    obtain ⟨_, read, inCache⟩ := (mem_cached sound.coherent).mp ((matching handle).mp rfl).1
    simp only [ref_eq sound.coherent read inCache, map_some]
    refine ⟨_, some handle, rfl, ?_, rfl⟩
    apply sound_of_frame sound (ref_coherent sound.coherent read inCache (few handle rfl))
    · apply changed_frame read
      rintro _ ⟨⟩ _
      exact ⟨rfl, rfl⟩
    · exact (changed_sum_same sound.coherent read rfl (by rintro _ ⟨⟩ _; rfl)).1

end

omit [DecidableEq Key] in
theorem release_sound (sound : Sound cache held) (holds : handle ∈ held) :
    ∃ next, cache.release handle = some next ∧ Sound next (held.erase handle) ∧
      handle ∉ cache.lru ∧ (next.lru = cache.lru ∨ next.lru = cache.lru ++ [handle]) := by
  obtain ⟨next, result, coherent, frame, cachedSame, notLru, lru⟩ :=
    unref_released sound.coherent holds
  exact ⟨next, result, sound_of_frame sound coherent frame cachedSame, notLru, lru⟩

omit [DecidableEq Key] in
theorem allocate_label (entry : LruHandle Key Value) (mem : handle ∈ cache.cached) :
    (cache.allocate entry).label handle = cache.label handle := by
  have created := Finset.mem_range.mp (Finset.mem_filter.mp mem).1
  rw [label, label, allocate_heap_of_ne created.ne]

/-- A new entry in the cache takes the place of the one of the same key. -/
theorem linked_sound (sound : Sound cache held) (entry : LruHandle Key Value)
    (inCache : entry.inCache = true) (counted : entry.refs.toNat = 2)
    (few : cache.table.elems.toNat < 2 ^ 31) :
    ∃ inserted next, cache.table.insert (cache.allocate entry).label cache.allocated =
        some inserted ∧
      finishErase { cache.allocate entry with table := inserted.1 } inserted.2 = some next ∧
      Sound next (cache.allocated :: held) ∧ next.capacity = cache.capacity ∧
      (∀ old ∈ inserted.2, cache.label old = some (entry.hash, entry.key)) ∧
      next.lru = cache.lruWithout inserted.2 ∧
      next.deleted = cache.deleted ++ cache.idleOf inserted.2 := by
  have coherent : Coherent (cache.allocate entry) (cache.allocated :: held) := by
    apply allocate_coherent sound.coherent
    rw [counted, inCache]
    rfl
  have absent : cache.allocated ∉ cache.cached := by simp [cached]
  have members : (cache.allocate entry).cached = insert cache.allocated cache.cached := by
    rw [allocate_cached, if_pos inCache]
  have isLabel : (cache.allocate entry).label cache.allocated = some (entry.hash, entry.key) := by
    rw [label, allocate_heap_self, map_some]
  have holds := holds_congr sound.holds fun _ mem => allocate_label entry mem
  obtain ⟨table, replaced, inserted, matching, holdsInserted⟩ :=
    insert_holds holds (holds.elems ▸ few) absent isLabel
  have notReplaced : cache.allocated ∉ replaced.toFinset := by
    rw [mem_toFinset]
    intro isReplaced
    exact absent ((matching _).mp isReplaced).1
  rw [← Finset.insert_sdiff_of_notMem _ notReplaced, ← members] at holdsInserted
  have coherentTable : Coherent { cache.allocate entry with table := table }
      (cache.allocated :: held) :=
    { coherent with }
  have within : ∀ old ∈ replaced, old ∈ (cache.allocate entry).cached := by
    intro old isReplaced
    rw [members]
    exact Finset.mem_insert_of_mem ((matching old).mp isReplaced).1
  obtain ⟨next, result, soundNext, capacity, lru, deleted⟩ :=
    finishErase_sound coherentTable within holdsInserted
  refine ⟨(table, replaced), next, inserted, result, soundNext, capacity, ?_, lru, deleted⟩
  intro old isReplaced
  obtain ⟨mem, sameLabel⟩ := (matching old).mp isReplaced
  rw [← allocate_label entry mem, sameLabel]

omit [DecidableEq Key] in
/-- A new entry out of the cache changes nothing of it. -/
theorem unlinked_sound (sound : Sound cache held) (entry : LruHandle Key Value)
    (outside : entry.inCache = false) (counted : entry.refs.toNat = 1) :
    Sound (cache.allocate entry) (cache.allocated :: held) := by
  constructor
  · apply allocate_coherent sound.coherent
    rw [counted, outside]
    rfl
  · rw [allocate_cached, outside, if_neg Bool.false_ne_true]
    exact holds_congr sound.holds fun _ mem => allocate_label entry mem

section

variable (sound : Sound cache held) (key : Key) (hash : UInt32) (value : Value) (charge : UInt64)
  (few : cache.table.elems.toNat < 2 ^ 31)
include sound key hash value charge few

theorem link_sound : ∃ next replaced, cache.link key hash value charge = some next ∧
      Sound next (cache.allocated :: held) ∧ next.capacity = cache.capacity ∧
      (∀ old ∈ replaced, cache.label old = some (hash, key)) ∧
      next.lru = cache.lruWithout replaced ∧
      next.deleted = cache.deleted ++ cache.idleOf replaced := by
  simp only [link]
  split
  · obtain ⟨inserted, next, isInserted, result, later⟩ :=
      linked_sound sound ⟨value, charge, true, 2, hash, key⟩ rfl rfl few
    refine ⟨next, inserted.2, ?_, later⟩
    exact bind_eq_some_iff.mpr ⟨inserted, isInserted, result⟩
  · refine ⟨_, none, rfl, unlinked_sound sound ⟨value, charge, false, 1, hash, key⟩ rfl rfl, rfl,
      by simp, rfl, ?_⟩
    exact (append_nil _).symm

/-- After an insertion the cache is within its capacity, or nothing more can be evicted. The
evicted entries are the first of `lru_`, in its order. -/
theorem insert_sound :
    ∃ next replaced evicted, cache.insert key hash value charge = some (next, cache.allocated) ∧
      Sound next (cache.allocated :: held) ∧
      (∀ old ∈ replaced, cache.label old = some (hash, key)) ∧
      cache.lruWithout replaced = evicted ++ next.lru ∧
      next.deleted = cache.deleted ++ cache.idleOf replaced ++ evicted ∧
      (next.usage ≤ next.capacity ∨ next.lru = []) := by
  obtain ⟨_, replaced, isLinked, soundLinked, capacity, sameKey, lru, deleted⟩ :=
    link_sound sound key hash value charge few
  obtain ⟨next, evicted, ran, soundNext, _, order, deletions, ends⟩ :=
    evictWhile_sound soundLinked
      (fun cache => decide (cache.usage > cache.capacity)) le_rfl
  refine ⟨next, replaced, evicted, ?_, soundNext, sameKey, lru ▸ order, deleted ▸ deletions, ?_⟩
  · rw [LruCache.insert, isLinked, bind_some, ran, map_some]
  · cases ends with
    | inl within => exact .inl (UInt64.not_lt.mp (of_decide_eq_false within))
    | inr empty => exact .inr empty

end

end

end LruCache

namespace CacheClients

/-- What the clients of a cache may rely on. -/
structure Consistent [DecidableEq Key] (clients : CacheClients Key Value) : Prop where
  usage : clients.cache.usage.toNat = clients.cache.totalCharge % 2 ^ 64
  tabled : ∀ handle entry, clients.cache.heap handle = some entry → entry.inCache = true →
    clients.cache.table.lookup clients.cache.label entry.key entry.hash = some (some handle)
  listed : ∀ handle entry, clients.cache.heap handle = some entry → entry.inCache = true →
    clients.cache.lru.count handle = 1 ∧ clients.cache.inUse.count handle = 0 ∧
        entry.refs.toNat = 1 ∨
      clients.cache.lru.count handle = 0 ∧ clients.cache.inUse.count handle = 1 ∧
        2 ≤ entry.refs.toNat
  cachedOnly : ∀ handle, handle ∈ clients.cache.lru ∨ handle ∈ clients.cache.inUse →
    clients.cache.isCached handle
  counted : ∀ handle entry, clients.cache.heap handle = some entry →
    entry.refs.toNat = clients.held.count handle + entry.inCache.toNat
  deleted : ∀ handle, handle < clients.cache.allocated → clients.cache.deleted.count handle =
    if clients.cache.isCached handle ∨ handle ∈ clients.held then 0 else 1
  ordered : clients.cache.lru.Sublist clients.released.dedup

/-- The state between calls, with the order of `lru_`. -/
structure Sound (clients : CacheClients Key Value) : Prop where
  cache : clients.cache.Sound clients.held
  ordered : clients.cache.lru.Sublist clients.released.dedup

section

variable [DecidableEq Key] {clients : CacheClients Key Value}

omit [DecidableEq Key] in
theorem start_sound (capacity : UInt64) : (start Key Value capacity).Sound := by
  constructor
  · constructor
    · constructor
      · intro _
        exact ⟨rfl, rfl, rfl, rfl⟩
      · exact List.nodup_nil
      · exact List.nodup_nil
      · rfl
    · exact empty_holds _
  · exact List.nil_sublist _

theorem sound_consistent (sound : clients.Sound) : clients.Consistent := by
  have coherent := sound.cache.coherent
  constructor
  · exact coherent.usage
  · intro handle entry read inCache
    obtain ⟨found, looked, matching⟩ := lookup_holds sound.cache.holds entry.key entry.hash
    have mem := (mem_cached coherent).mpr ⟨entry, read, inCache⟩
    have isFound : found = some handle := by
      rw [matching, label, read]
      exact ⟨mem, rfl⟩
    rw [looked, isFound]
  · intro handle entry read inCache
    cases cached_listed coherent read inCache with
    | inl idle =>
      exact .inl ⟨count_eq_one_of_mem coherent.lruNodup idle.1,
        count_eq_zero.mpr idle.2.1, idle.2.2⟩
    | inr busy =>
      exact .inr ⟨count_eq_zero.mpr busy.1,
        count_eq_one_of_mem coherent.inUseNodup busy.2.1, busy.2.2⟩
  · intro handle onList
    cases read : clients.cache.heap handle with
    | none =>
      obtain ⟨notLru, notInUse, _⟩ := balanced_none coherent read
      exact absurd onList (not_or.mpr ⟨notLru, notInUse⟩)
    | some entry =>
      obtain ⟨_, _, _, _, onLru, onInUse⟩ := balanced_entry coherent read
      rw [onLru, onInUse] at onList
      have inCache : entry.inCache = true := onList.elim And.left And.left
      rw [isCached, read, any_some, inCache]
  · intro handle entry read
    exact (balanced_entry coherent read).2.2.2.1
  · intro handle created
    cases read : clients.cache.heap handle with
    | none =>
      obtain ⟨_, _, unheld, once⟩ := balanced_none coherent read
      rw [once, decide_eq_true created, if_neg]
      · rfl
      · rintro (isCached | isHeld)
        · simp [LruCache.isCached, read] at isCached
        · exact count_eq_zero.mp unheld isHeld
    | some entry =>
      obtain ⟨_, undeleted, _, counted, _⟩ := balanced_entry coherent read
      rw [undeleted, if_pos]
      cases inCache : entry.inCache with
      | false =>
        rw [inCache, Bool.toNat_false] at counted
        exact .inr (count_pos_iff.mp (by omega))
      | true => exact .inl (by simp [isCached, read, inCache])
  · exact sound.ordered

/-- A further release moves its entry to the end of the order. -/
theorem dedup_release {lru released : List Nat} (ordered : lru.Sublist released.dedup)
    (absent : handle ∉ lru) : (lru ++ [handle]).Sublist (released ++ [handle]).dedup := by
  induction released generalizing lru with
  | nil =>
    rw [dedup_nil, sublist_nil] at ordered
    rw [ordered]
    exact List.Sublist.refl _
  | cons first released ih =>
    rw [cons_append]
    by_cases again : first ∈ released ++ [handle]
    · rw [dedup_cons_of_mem again]
      apply ih _ absent
      by_cases later : first ∈ released
      · rwa [dedup_cons_of_mem later] at ordered
      · -- Then the first is the handle, which is not in the list.
        rw [dedup_cons_of_notMem later] at ordered
        cases ordered with
        | cons _ rest => exact rest
        | cons_cons _ rest =>
          cases mem_append.mp again with
          | inl contrary => exact absurd contrary later
          | inr same => exact absurd (mem_singleton.mp same ▸ (.head _)) absent
    · have new : first ∉ released := fun mem => again (mem_append_left _ mem)
      rw [dedup_cons_of_notMem again]
      rw [dedup_cons_of_notMem new] at ordered
      cases ordered with
      | cons _ rest => exact (ih rest absent).cons first
      | cons_cons _ rest =>
        exact (ih rest fun mem => absent (.tail _ mem)).cons_cons first

omit [DecidableEq Key] in
/-- Taking an entry out of `lru_` keeps the order of the others. -/
theorem ordered_without (sound : clients.Sound) (found : Option Nat) :
    (clients.cache.lruWithout found).Sublist clients.released.dedup := by
  cases found with
  | none => exact sound.ordered
  | some handle => exact List.erase_sublist.trans sound.ordered

theorem step_sound (call : CacheCall Key Value) (permitted : clients.Permitted call)
    (sound : clients.Sound) : ∃ next, clients.step call = some next ∧ next.Sound := by
  cases call with
  | insert key hash value charge =>
    obtain ⟨cache, replaced, _, inserted, soundNext, _, order, _⟩ :=
      insert_sound sound.cache key hash value charge permitted
    refine ⟨_, by rw [step, inserted]; rfl, soundNext, ?_⟩
    have without := ordered_without sound replaced
    rw [order] at without
    exact (sublist_append_right _ _).trans without
  | lookup key hash =>
    obtain ⟨cache, found, looked, soundNext, lru⟩ := lookup_sound sound.cache permitted
    refine ⟨_, by rw [step, looked]; rfl, soundNext, ?_⟩
    exact lru ▸ ordered_without sound found
  | release handle =>
    obtain ⟨cache, released, soundNext, notLru, lru⟩ := release_sound sound.cache permitted
    refine ⟨_, by rw [step, released]; rfl, soundNext, ?_⟩
    have moved := dedup_release sound.ordered notLru
    cases lru with
    | inl same => exact same ▸ (sublist_append_left _ _).trans moved
    | inr appended => exact appended ▸ moved
  | erase key hash =>
    obtain ⟨cache, found, erased, soundNext, lru⟩ := erase_sound sound.cache key hash
    refine ⟨_, by rw [step, erased]; rfl, soundNext, ?_⟩
    exact lru ▸ ordered_without sound found
  | prune =>
    obtain ⟨cache, pruned, soundNext, none⟩ := prune_sound sound.cache
    refine ⟨_, by rw [step, pruned]; rfl, soundNext, ?_⟩
    exact none ▸ nil_sublist _

end

/-- Whatever the clients call, the references are right, every value is deleted once, when
the cache and the clients are done with it, and an insertion evicts what was released least
recently, until the cache is within its capacity or nothing is left to evict. -/
theorem lru_references [DecidableEq Key] (capacity : UInt64) (calls : List (CacheCall Key Value))
    (permitted : Machine.Guarded step Permitted (start Key Value capacity) calls) :
    ∃ clients, Machine.run step (start Key Value capacity) calls = some clients ∧
      clients.Consistent ∧
      ∀ key hash value charge, clients.Permitted (.insert key hash value charge) →
        ∃ next replaced evicted, clients.step (.insert key hash value charge) = some next ∧
          (next.cache.usage ≤ next.cache.capacity ∨ next.cache.lru = []) ∧
          (∀ old ∈ replaced, clients.cache.label old = some (hash, key)) ∧
          clients.cache.lruWithout replaced = evicted ++ next.cache.lru ∧
          next.cache.deleted =
            clients.cache.deleted ++ clients.cache.idleOf replaced ++ evicted := by
  obtain ⟨clients, ran, sound⟩ := Machine.guarded_runs step Permitted Sound
    (fun clients call permitted sound => step_sound call permitted sound)
    (start_sound capacity) permitted
  refine ⟨clients, ran, sound_consistent sound, ?_⟩
  intro key hash value charge room
  obtain ⟨cache, replaced, evicted, inserted, _, sameKey, order, deleted, ends⟩ :=
    insert_sound sound.cache key hash value charge room
  exact ⟨_, replaced, evicted, by rw [step, inserted]; rfl, ends, sameKey, order, deleted⟩

/-- An entry is replaced while it is held, another is looked up, and the one released first
is evicted. -/
def evictingCalls : List (CacheCall Nat Nat) :=
  [.insert 1 1 10 1, .insert 2 2 20 1, .insert 1 1 11 1, .release 2, .release 1, .lookup 1 1,
    .release 0, .release 2, .insert 3 7 30 1]

theorem lru_references_evicting :
    Machine.Guarded step Permitted (start Nat Nat 2) evictingCalls ∧
      ∃ clients, Machine.run step (start Nat Nat 2) evictingCalls = some clients ∧
        clients.Consistent ∧ clients.cache.deleted = [0, 1] := by
  have permitted : Machine.Guarded step Permitted (start Nat Nat 2) evictingCalls := by
    decide
  obtain ⟨clients, ran, consistent, _⟩ := lru_references 2 evictingCalls permitted
  refine ⟨permitted, clients, ran, consistent, ?_⟩
  have deleted : ((Machine.run step (start Nat Nat 2) evictingCalls).map fun clients =>
      clients.cache.deleted) = some [0, 1] := by decide
  rw [ran] at deleted
  exact some.inj deleted

/-- The charges of two entries can add up to more than the counter holds. -/
theorem charges_overflow :
    let calls : List (CacheCall Nat Nat) := [.insert 1 1 10 (2 ^ 63), .insert 2 2 20 (2 ^ 63)]
    Machine.Guarded step Permitted (start Nat Nat 1) calls ∧
      ((Machine.run step (start Nat Nat 1) calls).map fun clients =>
        (clients.cache.usage.toNat, clients.cache.totalCharge)) = some (0, 2 ^ 64) := by
  decide +kernel

end CacheClients

end CodeReading.Leveldb
