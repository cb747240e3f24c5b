import CodeReading.Machine
import CodeReading.Leveldb.HandleTable

/-!
# The LRU cache

A shard of the cache keeps its entries in a hash table and in one of two lists: `lru_` for
those that no client holds, from the least recently released on, and `in_use_` for the
others. An entry counts its references, one of which is the cache's own. An entry that was
erased, replaced or evicted while clients hold it is in no list; it is freed, and its
deleter called, by the last release.

Entries are allocated in the order of their numbers and no number is used twice. What is
freed can not be read any more: following a pointer to it is a failure, and so is an
assertion that does not hold. The doubly linked lists are lists of numbers. The clients are
part of the state: a handle may only be released by one who holds it.
-/

namespace CodeReading.Leveldb

open HandleTable

/-- `LRUHandle` without its links. -/
structure LruHandle (Key Value : Type) where
  value : Value
  charge : UInt64
  inCache : Bool
  refs : UInt32
  hash : UInt32
  key : Key
deriving DecidableEq, Repr

/-- `LRUCache`, with the memory that its pointers lead to. The lists begin with the oldest
entry. The last field records the calls of deleters. -/
structure LruCache (Key Value : Type) where
  capacity : UInt64
  usage : UInt64
  lru : List Nat
  inUse : List Nat
  table : HandleTable
  heap : Nat → Option (LruHandle Key Value)
  allocated : Nat
  deleted : List Nat

namespace LruCache

variable {Key Value : Type}

def new (Key Value : Type) (capacity : UInt64) : LruCache Key Value where
  capacity := capacity
  usage := 0
  lru := []
  inUse := []
  table := .empty
  heap _ := none
  allocated := 0
  deleted := []

section

variable (cache : LruCache Key Value) (handle : Nat)

/-- The hash and the key of an entry, as the table reads them. -/
def label : Option (UInt32 × Key) :=
  (cache.heap handle).map fun entry => (entry.hash, entry.key)

/-- A write through a pointer. -/
def write (entry : LruHandle Key Value) : LruCache Key Value :=
  { cache with heap := Function.update cache.heap handle (some entry) }

/-- The call of the deleter, and `free`. -/
def free : LruCache Key Value :=
  { cache with
    heap := Function.update cache.heap handle none
    deleted := cache.deleted ++ [handle] }

/-- `LRU_Remove`. The links of an entry tell in which list it is. -/
def lruRemove : Option (LruCache Key Value) :=
  if handle ∈ cache.lru then some { cache with lru := cache.lru.erase handle }
  else if handle ∈ cache.inUse then some { cache with inUse := cache.inUse.erase handle }
  else none

def ref : Option (LruCache Key Value) :=
  (cache.heap handle).bind fun entry =>
    let moved :=
      if entry.refs = 1 ∧ entry.inCache then
        (cache.lruRemove handle).map fun removed =>
          { removed with inUse := removed.inUse ++ [handle] }
      else some cache
    moved.map fun moved => moved.write handle { entry with refs := entry.refs + 1 }

def unref : Option (LruCache Key Value) :=
  (cache.heap handle).bind fun entry =>
    if entry.refs = 0 then none
    else
      let lowered := cache.write handle { entry with refs := entry.refs - 1 }
      if entry.refs - 1 = 0 then
        if entry.inCache then none else some (lowered.free handle)
      else if entry.inCache ∧ entry.refs - 1 = 1 then
        (lowered.lruRemove handle).map fun removed => { removed with lru := removed.lru ++ [handle] }
      else some lowered

end

/-- `FinishErase`. The result of the source tells whether there was an entry. -/
def finishErase (cache : LruCache Key Value) : Option Nat → Option (LruCache Key Value)
  | none => some cache
  | some handle =>
      (cache.heap handle).bind fun entry =>
        if entry.inCache then
          (cache.lruRemove handle).bind fun removed =>
            unref { removed.write handle { entry with inCache := false } with
              usage := removed.usage - entry.charge } handle
        else none

variable [DecidableEq Key]

section

variable (cache : LruCache Key Value)

/-- `Lookup`, with the handle it returns. -/
protected def lookup (key : Key) (hash : UInt32) : Option (LruCache Key Value × Option Nat) :=
  (cache.table.lookup cache.label key hash).bind fun
    | none => some (cache, none)
    | some handle => (cache.ref handle).map fun held => (held, some handle)

def release (handle : Nat) : Option (LruCache Key Value) :=
  cache.unref handle

/-- `Erase`. -/
protected def erase (key : Key) (hash : UInt32) : Option (LruCache Key Value) :=
  (cache.table.remove cache.label key hash).bind fun removed =>
    finishErase { cache with table := removed.1 } removed.2

/-- One turn of the loops of `Insert` and `Prune`. The oldest entry of `lru_` is erased, which
the assertions demand to be unreferenced and in the table. -/
def evictOldest : Option (LruCache Key Value) :=
  cache.lru.head?.bind fun old =>
    (cache.heap old).bind fun entry =>
      if entry.refs = 1 then
        (cache.table.remove cache.label entry.key entry.hash).bind fun removed =>
          if removed.2.isSome then finishErase { cache with table := removed.1 } removed.2
          else none
      else none

end

/-- The loop that `Insert` and `Prune` end with: while there is a reason to evict, and
something to be evicted. -/
def evictWhile (reason : LruCache Key Value → Bool) :
    Nat → LruCache Key Value → Option (LruCache Key Value)
  | 0, cache => if reason cache ∧ cache.lru ≠ [] then none else some cache
  | turns + 1, cache =>
      if reason cache ∧ cache.lru ≠ [] then cache.evictOldest.bind (evictWhile reason turns)
      else some cache

section

variable (cache : LruCache Key Value) (key : Key) (hash : UInt32) (value : Value) (charge : UInt64)

/-- The new entry of `Insert`, linked into `in_use_` and the table when there is room for
anything at all. -/
def link : Option (LruCache Key Value) :=
  let handle := cache.allocated
  let created := { cache with allocated := cache.allocated + 1 }
  if cache.capacity > 0 then
    let linked := { created.write handle ⟨value, charge, true, 2, hash, key⟩ with
      inUse := cache.inUse ++ [handle]
      usage := cache.usage + charge }
    (cache.table.insert linked.label handle).bind fun inserted =>
      finishErase { linked with table := inserted.1 } inserted.2
  else some (created.write handle ⟨value, charge, false, 1, hash, key⟩)

/-- `Insert`, with the handle it returns. -/
protected def insert : Option (LruCache Key Value × Nat) :=
  (cache.link key hash value charge).bind fun linked =>
    (evictWhile (fun cache => decide (cache.usage > cache.capacity)) linked.lru.length linked).map
      fun evicted => (evicted, cache.allocated)

end

def prune (cache : LruCache Key Value) : Option (LruCache Key Value) :=
  evictWhile (fun _ => true) cache.lru.length cache

end LruCache

/-- A cache and its clients: the handles they hold, and those they released, in order. -/
structure CacheClients (Key Value : Type) where
  cache : LruCache Key Value
  held : List Nat
  released : List Nat

inductive CacheCall (Key Value : Type) where
  | insert (key : Key) (hash : UInt32) (value : Value) (charge : UInt64)
  | lookup (key : Key) (hash : UInt32)
  | release (handle : Nat)
  | erase (key : Key) (hash : UInt32)
  | prune

namespace CacheClients

variable {Key Value : Type} [DecidableEq Key]

/-- No client holds anything of a new cache. -/
def start (Key Value : Type) (capacity : UInt64) : CacheClients Key Value :=
  ⟨.new Key Value capacity, [], []⟩

section

variable (clients : CacheClients Key Value)

/-- The effect of a call on the cache and on what the clients hold. -/
def step : CacheCall Key Value → Option (CacheClients Key Value)
  | .insert key hash value charge =>
      (clients.cache.insert key hash value charge).map fun inserted =>
        ⟨inserted.1, inserted.2 :: clients.held, clients.released⟩
  | .lookup key hash =>
      (clients.cache.lookup key hash).map fun found =>
        ⟨found.1, found.2.toList ++ clients.held, clients.released⟩
  | .release handle =>
      (clients.cache.release handle).map fun cache =>
        ⟨cache, clients.held.erase handle, clients.released ++ [handle]⟩
  | .erase key hash =>
      (clients.cache.erase key hash).map fun cache => ⟨cache, clients.held, clients.released⟩
  | .prune => clients.cache.prune.map fun cache => ⟨cache, clients.held, clients.released⟩

/-- What a client may call: it releases only what it holds. The counters of 32 bits bound the
entries of the table and the handles of an entry. -/
def Permitted : CacheCall Key Value → Prop
  | .insert .. => clients.cache.table.elems.toNat < 2 ^ 31
  | .lookup key hash =>
      ∀ handle ∈ (clients.cache.table.lookup clients.cache.label key hash).join,
        clients.held.count handle + 2 < 2 ^ 32
  | .release handle => handle ∈ clients.held
  | .erase .. => True
  | .prune => True

instance : (call : CacheCall Key Value) → Decidable (clients.Permitted call)
  | .insert .. => inferInstanceAs (Decidable (_ < _))
  | .lookup .. => inferInstanceAs (Decidable (∀ _ ∈ _, _))
  | .release _ => inferInstanceAs (Decidable (_ ∈ _))
  | .erase .. => inferInstanceAs (Decidable True)
  | .prune => inferInstanceAs (Decidable True)

end

end CacheClients

end CodeReading.Leveldb
