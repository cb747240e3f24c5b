import CodeReading.Machine
import Mathlib.Data.List.Nodup

/-!
# The cabinet

A cabinet keeps pointers to objects in cells and answers each one stored with a token: the
number of its cell and an id. The id of a cell is `0` while it is free, and then the cell holds
the number of the next free one in place of a pointer. Here a cell is one or the other.

Beside the cabinet a record says which tokens are live, with the object last stored under each,
and which are not any more. A token read in the cabinet gives what the record says of it. The
record also shows what `clear` does: it starts the ids again, so that a token may be given out
a second time.
-/

namespace CodeReading.Tbox

open Option List

variable {Object : Type}

structure Token where
  id : Nat
  pos : Nat
deriving DecidableEq

def Token.isNull (token : Token) : Bool := token.id == 0

/-- `Cell`, with the pointer to its object, `none` where it is null. -/
inductive Cell (Object : Type) where
  | free (nextFree : Nat)
  | held (id : Nat) (object : Option Object)
deriving DecidableEq

def sizeMax : Nat := 2 ^ 64 - 1

structure Cabinet (Object : Type) where
  lastId : Nat
  cells : List (Cell Object)
  firstFree : Nat
  count : Nat
deriving DecidableEq

open Cabinet

namespace Cabinet

def empty : Cabinet Object := ⟨0, [], sizeMax, 0⟩

section

variable (cabinet : Cabinet Object)

def allocId : Nat :=
  (if cabinet.lastId = sizeMax then 0 else cabinet.lastId) + 1

/-- `allocPos`: the position, the cells and the first free position then. Absent where
`cells_.at` throws, or the cell taken is not a free one. -/
def allocPos : Option (Nat × List (Cell Object) × Nat) :=
  if cabinet.firstFree ≠ sizeMax then
    match cabinet.cells[cabinet.firstFree]? with
    | some (.free nextFree) => some (cabinet.firstFree, cabinet.cells, nextFree)
    | _ => none
  else
    some (cabinet.cells.length, cabinet.cells ++ [.free 0], cabinet.firstFree)

def alloc (object : Option Object) : Option (Token × Cabinet Object) :=
  cabinet.allocPos.map fun (pos, cells, firstFree) =>
    (⟨cabinet.allocId, pos⟩,
      ⟨cabinet.allocId, cells.set pos (.held cabinet.allocId object), firstFree, cabinet.count + 1⟩)

/-- The object under a token: a cell that has its position and its id. -/
def find? (token : Token) : Option (Option Object) :=
  if token.isNull then none
  else match cabinet.cells[token.pos]? with
    | some (.held id object) => if id = token.id then some object else none
    | _ => none

def update (token : Token) (object : Option Object) : Bool × Cabinet Object :=
  match cabinet.find? token with
  | some _ => (true, { cabinet with cells := cabinet.cells.set token.pos (.held token.id object) })
  | none => (false, cabinet)

def free (token : Token) : Option Object × Cabinet Object :=
  match cabinet.find? token with
  | some object =>
      (object, { cabinet with
        cells := cabinet.cells.set token.pos (.free cabinet.firstFree)
        firstFree := token.pos
        count := cabinet.count - 1 })
  | none => (none, cabinet)

def clear (_ : Cabinet Object) : Cabinet Object := ⟨0, [], sizeMax, 0⟩

/-- `at`. -/
def at? (token : Token) : Option Object := (cabinet.find? token).join

def size : Nat := cabinet.count

end

/-- `foreach`, for a function that frees tokens. It is called at the position and with the object
of each cell in use when its turn comes, and answers the tokens it frees. -/
def foreach (visit : Nat → Option Object → List Token) (cabinet : Cabinet Object) : List Token :=
  go (List.range cabinet.cells.length) cabinet
where
  go : List Nat → Cabinet Object → List Token
    | [], _ => []
    | pos :: rest, cabinet =>
        match cabinet.cells[pos]? with
        | some (.held _ object) =>
            let freed := visit pos object
            freed ++ go rest (freed.foldl (fun cabinet token => (cabinet.free token).2) cabinet)
        | _ => go rest cabinet

end Cabinet

/-! ## The record -/

/-- A cabinet and the record of its tokens. -/
structure Recorded (Object : Type) where
  cabinet : Cabinet Object
  live : List (Token × Option Object)
  dead : List Token

open Recorded

inductive Call (Object : Type) where
  | alloc (object : Option Object)
  | update (token : Token) (object : Option Object)
  | free (token : Token)
  | clear
  | foreach (visit : Nat → Option Object → List Token)

namespace Recorded

def initial : Recorded Object := ⟨.empty, [], []⟩

/-- The token dies if it was live. -/
def freed (state : Recorded Object) (token : Token) : Recorded Object :=
  { cabinet := (state.cabinet.free token).2
    live := state.live.filter fun entry => entry.1 ≠ token
    dead := (state.live.filter fun entry => entry.1 = token).map Prod.fst ++ state.dead }

def step (state : Recorded Object) : Call Object → Option (Recorded Object)
  | .alloc object =>
      (state.cabinet.alloc object).map fun (token, cabinet) =>
        { state with cabinet, live := (token, object) :: state.live }
  | .update token object =>
      some { state with
        cabinet := (state.cabinet.update token object).2
        live := state.live.map fun entry => if entry.1 = token then (token, object) else entry }
  | .free token => some (state.freed token)
  | .clear => some ⟨state.cabinet.clear, [], state.live.map Prod.fst ++ state.dead⟩
  | .foreach visit => some ((state.cabinet.foreach visit).foldl freed state)

end Recorded

/-- The list of free positions, followed through the cells. -/
def Linked (cells : List (Cell Object)) : Nat → List Nat → Prop
  | first, [] => first = sizeMax
  | first, pos :: rest =>
      first = pos ∧ ∃ next, cells[pos]? = some (.free next) ∧ Linked cells next rest

/-- The live token of a cell in use, with its object. -/
def entryOf : Cell Object × Nat → Option (Token × Option Object)
  | (.held id object, pos) => some (⟨id, pos⟩, object)
  | (.free _, _) => none

/-- The position of a free cell. -/
def vacantOf : Cell Object × Nat → Option Nat
  | (.held _ _, _) => none
  | (.free _, pos) => some pos

/-- What a cabinet is, beside the tokens live in it and the list of its free positions. -/
structure Sound (cabinet : Cabinet Object) (live : List (Token × Option Object))
    (free : List Nat) : Prop where
  stored : live.Perm (cabinet.cells.zipIdx.filterMap entryOf)
  vacant : free.Perm (cabinet.cells.zipIdx.filterMap vacantOf)
  linked : Linked cabinet.cells cabinet.firstFree free
  numbered : ∀ entry ∈ live, 0 < entry.1.id ∧ entry.1.id ≤ cabinet.lastId
  counted : cabinet.count = live.length
  sized : cabinet.cells.length ≤ cabinet.lastId

variable {cabinet : Cabinet Object} {live : List (Token × Option Object)} {free : List Nat}
  {cells : List (Cell Object)} {token : Token}

variable {object : Option Object}

theorem mem_entries : (token, object) ∈ cells.zipIdx.filterMap entryOf ↔
      cells[token.pos]? = some (.held token.id object) := by
  rw [mem_filterMap]
  constructor
  · rintro ⟨⟨cell, pos⟩, mem, isEntry⟩
    cases cell with
    | free next => nomatch isEntry
    | held id content =>
      obtain ⟨rfl, rfl⟩ := Prod.mk.inj (some.inj isEntry)
      exact mk_mem_zipIdx_iff_getElem?.mp mem
  · intro isCell
    exact ⟨(.held token.id object, token.pos), mk_mem_zipIdx_iff_getElem?.mpr isCell, rfl⟩

variable {pos : Nat}

theorem mem_vacant :
    pos ∈ cells.zipIdx.filterMap vacantOf ↔ ∃ next, cells[pos]? = some (.free next) := by
  rw [mem_filterMap]
  constructor
  · rintro ⟨⟨cell, _⟩, mem, isVacant⟩
    cases cell with
    | held id content => nomatch isVacant
    | free next =>
      obtain rfl := some.inj isVacant
      exact ⟨next, mk_mem_zipIdx_iff_getElem?.mp mem⟩
  · rintro ⟨next, isCell⟩
    exact ⟨(.free next, pos), mk_mem_zipIdx_iff_getElem?.mpr isCell, rfl⟩

theorem filterMap_cons_append {α β : Type} (f : α → Option β) (first : α) (rest : List α) :
    (first :: rest).filterMap f = (f first).toList ++ rest.filterMap f := by
  cases isFirst : f first <;> simp [isFirst]

theorem set_perm (isOld : cells[pos]? = some old) (cell : Cell Object) :
    ∃ others, cells.zipIdx.Perm ((old, pos) :: others) ∧
      ((cells.set pos cell).zipIdx).Perm ((cell, pos) :: others) := by
  obtain ⟨inside, rfl⟩ := List.getElem?_eq_some_iff.mp isOld
  have isLength : (cells.take pos).length = pos := length_take_of_le (Nat.le_of_lt inside)
  refine ⟨(cells.take pos).zipIdx ++ (cells.drop (pos + 1)).zipIdx (pos + 1), ?_, ?_⟩
  · conv_lhs => rw [← take_append_drop pos cells, drop_eq_getElem_cons inside]
    rw [zipIdx_append, isLength, Nat.zero_add, zipIdx_cons]
    exact perm_middle
  · rw [set_eq_take_append_cons_drop, if_pos inside, zipIdx_append, isLength,
      Nat.zero_add, zipIdx_cons]
    exact perm_middle

/-- What is read off the cells with their positions has each position once. -/
theorem positions_nodup {α : Type} {read : Cell Object × Nat → Option α} {position : α → Nat}
    (reads : ∀ place item, read place = some item → position item = place.2) :
    ((cells.zipIdx.filterMap read).map position).Nodup := by
  have nodup : (cells.zipIdx.map Prod.snd).Nodup := by
    simpa [zipIdx_map_snd] using nodup_range'
  rw [List.Nodup, pairwise_map, pairwise_filterMap]
  refine (pairwise_map.mp nodup).imp fun distinct _ isLeft _ isRight same => ?_
  rw [reads _ _ isLeft, reads _ _ isRight] at same
  exact distinct same

theorem Linked.set (cell : Cell Object) (linked : Linked cells first free)
    (absent : pos ∉ free) : Linked (cells.set pos cell) first free := by
  induction free generalizing first with
  | nil => exact linked
  | cons head rest ih =>
    obtain ⟨isFirst, next, isFree, later⟩ := linked
    obtain ⟨notHead, notRest⟩ := not_or.mp (mem_cons.not.mp absent)
    exact ⟨isFirst, next, by rw [getElem?_set_ne notHead, isFree], ih later notRest⟩

namespace Sound

variable {token : Token}

section

variable (sound : Sound cabinet live free)
include sound

theorem mem_iff :
    (token, object) ∈ live ↔ cabinet.cells[token.pos]? = some (.held token.id object) := by
  rw [sound.stored.mem_iff, mem_entries]

theorem find?_iff (token : Token) (object : Option Object) :
    cabinet.find? token = some object ↔ (token, object) ∈ live := by
  constructor
  · intro found
    rw [Cabinet.find?] at found
    split at found
    · exact absurd found (by simp)
    · split at found
      · next id content isCell =>
        obtain ⟨rfl, rfl⟩ : id = token.id ∧ content = object := by simpa using found
        exact sound.mem_iff.mpr isCell
      · exact absurd found (by simp)
  · intro isLive
    have positive := (sound.numbered _ isLive).1
    have notNull : token.isNull = false := by simpa [Token.isNull] using Nat.ne_of_gt positive
    simp [Cabinet.find?, sound.mem_iff.mp isLive, notNull]

theorem absent (missing : cabinet.find? token = none) : ∀ entry ∈ live, entry.1 ≠ token := by
  rintro ⟨_, _⟩ mem rfl
  simp [(sound.find?_iff _ _).mpr mem] at missing

theorem distinct : (live.map fun entry => entry.1.pos).Nodup :=
  (sound.stored.map _).nodup_iff.mpr (positions_nodup (by
    rintro ⟨cell, pos⟩ entry isEntry
    cases cell with
    | free next => nomatch isEntry
    | held id object => exact some.inj isEntry ▸ rfl))

theorem freeNodup : free.Nodup := by
  rw [sound.vacant.nodup_iff, ← map_id (filterMap _ _)]
  refine positions_nodup ?_
  rintro ⟨cell, _⟩ _ isVacant
  cases cell with
  | free next => exact (some.inj isVacant).symm
  | held id object => nomatch isVacant

/-- The cell of a live token is written; nothing else is. -/
theorem opened (isLive : (token, old) ∈ live) (cell : Cell Object) :
    ∃ entries, live.Perm ((token, old) :: entries) ∧ (∀ entry ∈ entries, entry.1 ≠ token) ∧
      ((cabinet.cells.set token.pos cell).zipIdx.filterMap entryOf).Perm
        ((entryOf (cell, token.pos)).toList ++ entries) ∧
      ((cabinet.cells.set token.pos cell).zipIdx.filterMap vacantOf).Perm
        ((vacantOf (cell, token.pos)).toList ++ free) ∧ token.pos ∉ free := by
  have isCell := sound.mem_iff.mp isLive
  obtain ⟨others, before, after⟩ := set_perm isCell cell
  have isStored := sound.stored.trans (before.filterMap entryOf)
  have distinct := (isStored.map fun entry => entry.1.pos).nodup_iff.mp sound.distinct
  refine ⟨others.filterMap entryOf, isStored, fun entry mem same => ?_, ?_, ?_, ?_⟩
  · exact (nodup_cons.mp distinct).1 (mem_map.mpr ⟨entry, mem, same ▸ rfl⟩)
  · rw [← filterMap_cons_append]
    exact after.filterMap entryOf
  · refine (after.filterMap vacantOf).trans ?_
    rw [filterMap_cons_append]
    exact ((sound.vacant.trans (before.filterMap vacantOf)).symm).append_left _
  · intro mem
    obtain ⟨_, isFree⟩ := mem_vacant.mp (sound.vacant.mem_iff.mp mem)
    exact nomatch isCell.symm.trans isFree

theorem allocs (object : Option Object) (few : cabinet.lastId < sizeMax) :
    ∃ token after rest, cabinet.alloc object = some (token, after) ∧
      after.lastId = cabinet.lastId + 1 ∧ token.id = cabinet.lastId + 1 ∧
      Sound after ((token, object) :: live) rest := by
  have isId : cabinet.allocId = cabinet.lastId + 1 := by
    rw [allocId, if_neg (Nat.ne_of_lt few)]
  have sized := sound.sized
  have numbered : ∀ pos, ∀ entry ∈ (⟨cabinet.allocId, pos⟩, object) :: live,
      0 < entry.1.id ∧ entry.1.id ≤ cabinet.allocId := by
    intro pos entry mem
    rcases mem_cons.mp mem with rfl | older
    · exact ⟨isId ▸ Nat.succ_pos _, Nat.le_refl _⟩
    · exact ⟨(sound.numbered entry older).1, by have := (sound.numbered entry older).2; omega⟩
  cases free with
  | nil =>
    have noFree : cabinet.firstFree = sizeMax := sound.linked
    have isAlloc : cabinet.alloc object = some (⟨cabinet.allocId, cabinet.cells.length⟩,
        ⟨cabinet.allocId, cabinet.cells ++ [.held cabinet.allocId object], cabinet.firstFree,
          cabinet.count + 1⟩) := by
      rw [alloc, allocPos, if_neg (by simpa using noFree), map_some]
      dsimp only
      rw [set_append_right _ _ (Nat.le_refl _), Nat.sub_self, set_cons_zero]
    refine ⟨_, _, [], isAlloc, isId, isId, ⟨?_, ?_, noFree, numbered _,
      congrArg (· + 1) sound.counted, by simp; omega⟩⟩
    · rw [zipIdx_append, Nat.zero_add, filterMap_append]
      exact (sound.stored.cons _).trans (perm_append_singleton _ _).symm
    · rw [zipIdx_append, filterMap_append]
      simpa [vacantOf] using sound.vacant
  | cons pos rest =>
    obtain ⟨isFirst, next, isCell, linked⟩ := sound.linked
    have inside := (List.getElem?_eq_some_iff.mp isCell).1
    obtain ⟨_, before, after⟩ := set_perm isCell (.held cabinet.allocId object)
    have isVacant := sound.vacant.trans (before.filterMap vacantOf)
    have isAlloc : cabinet.alloc object = some (⟨cabinet.allocId, pos⟩,
        ⟨cabinet.allocId, cabinet.cells.set pos (.held cabinet.allocId object), next,
          cabinet.count + 1⟩) := by
      rw [alloc, allocPos, isFirst, if_pos (by omega), isCell]
      rfl
    refine ⟨_, _, rest, isAlloc, isId, isId, ⟨?_, ?_,
      linked.set _ (nodup_cons.mp sound.freeNodup).1, numbered _,
      congrArg (· + 1) sound.counted, by simp; omega⟩⟩
    · exact ((sound.stored.trans (before.filterMap entryOf)).cons _).trans
        (after.filterMap entryOf).symm
    · exact isVacant.cons_inv.trans (after.filterMap vacantOf).symm

theorem updates (token : Token) (object : Option Object) : Sound (cabinet.update token object).2
      (live.map fun entry => if entry.1 = token then (token, object) else entry) free := by
  cases found : cabinet.find? token with
  | none =>
    rw [update, found]
    rwa [List.map_congr_left (fun entry mem => if_neg (sound.absent found entry mem)), List.map_id']
  | some old =>
    have isLive := (sound.find?_iff _ _).mp found
    obtain ⟨entries, isPerm, others, stored, vacant, busy⟩ :=
      sound.opened isLive (.held token.id object)
    have replaced : (live.map fun entry => if entry.1 = token then (token, object) else entry).Perm
        ((token, object) :: entries) := by
      refine (isPerm.map _).trans (List.Perm.of_eq ?_)
      rw [map_cons, if_pos rfl,
        List.map_congr_left (fun entry mem => if_neg (others entry mem)), List.map_id']
    rw [update, found]
    refine ⟨replaced.trans stored.symm, vacant.symm, sound.linked.set _ busy, fun entry mem => ?_,
      by rw [length_map]; exact sound.counted, by simpa using sound.sized⟩
    rcases mem_cons.mp (replaced.mem_iff.mp mem) with rfl | stays
    · exact sound.numbered (token, old) isLive
    · exact sound.numbered _ (isPerm.mem_iff.mpr (mem_cons_of_mem _ stays))

theorem frees (token : Token) : ∃ rest, (cabinet.free token).2.lastId = cabinet.lastId ∧
      Sound (cabinet.free token).2 (live.filter fun entry => entry.1 ≠ token) rest := by
  cases found : cabinet.find? token with
  | none =>
    rw [Cabinet.free, found, filter_eq_self.mpr (by simpa using sound.absent found)]
    exact ⟨free, rfl, sound⟩
  | some old =>
    have isLive := (sound.find?_iff _ _).mp found
    obtain ⟨entries, isPerm, others, stored, vacant, busy⟩ :=
      sound.opened isLive (.free cabinet.firstFree)
    have left : (live.filter fun entry => entry.1 ≠ token).Perm entries := by
      refine (isPerm.filter _).trans (List.Perm.of_eq ?_)
      rw [filter_cons_of_neg (by simp), filter_eq_self.mpr (by simpa using others)]
    rw [Cabinet.free, found]
    refine ⟨token.pos :: free, rfl, ⟨left.trans stored.symm, vacant.symm,
      ⟨rfl, _, ?_, sound.linked.set _ busy⟩,
      fun entry mem => sound.numbered entry (mem_of_mem_filter mem), ?_,
      by simpa using sound.sized⟩⟩
    · exact List.getElem?_set_self (List.getElem?_eq_some_iff.mp (sound.mem_iff.mp isLive)).1
    · rw [sound.counted, left.length_eq, isPerm.length_eq, length_cons, Nat.add_sub_cancel]

end

end Sound

/-! ## Runs -/

/-- The cabinet is what the record says. -/
def Agrees (state : Recorded Object) : Prop := ∃ free, Sound state.cabinet state.live free

/-- No dead token is live, or can become so by an allocation. -/
def Retired (state : Recorded Object) : Prop :=
  ∀ token ∈ state.dead, token.id ≤ state.cabinet.lastId ∧ ∀ object, (token, object) ∉ state.live

theorem agrees_initial : Agrees (initial : Recorded Object) :=
  ⟨[], .nil, .nil, rfl, nofun, rfl, Nat.le_refl _⟩

variable {state : Recorded Object}

def Call.isAlloc : Call Object → Bool
  | .alloc _ => true
  | _ => false

def Call.isClear : Call Object → Bool
  | .clear => true
  | _ => false

section

variable (agrees : Agrees state)
include agrees

theorem freed_agrees (token : Token) :
    Agrees (state.freed token) ∧ (state.freed token).cabinet.lastId = state.cabinet.lastId ∧
      (Retired state → Retired (state.freed token)) := by
  obtain ⟨free, sound⟩ := agrees
  obtain ⟨rest, isLast, after⟩ := sound.frees token
  refine ⟨⟨rest, after⟩, isLast, ?_⟩
  intro retired other isDead
  rw [freed, isLast]
  rcases mem_append.mp isDead with dies | wasDead
  · obtain ⟨entry, mem, rfl⟩ := mem_map.mp dies
    obtain ⟨wasLive, same⟩ := mem_filter.mp mem
    exact ⟨(sound.numbered entry wasLive).2, fun object stays => by
      simp [of_decide_eq_true same] at stays⟩
  · exact ⟨(retired other wasDead).1, fun object stays =>
      (retired other wasDead).2 object (mem_of_mem_filter stays)⟩

theorem freedAll_agrees (tokens : List Token) : Agrees (tokens.foldl freed state) ∧
      (tokens.foldl freed state).cabinet.lastId = state.cabinet.lastId ∧
      (Retired state → Retired (tokens.foldl freed state)) := by
  induction tokens generalizing state with
  | nil => exact ⟨agrees, rfl, id⟩
  | cons token rest ih =>
    obtain ⟨after, isLast, retires⟩ := freed_agrees agrees token
    obtain ⟨final, same, later⟩ := ih after
    exact ⟨final, same.trans isLast, later ∘ retires⟩

theorem step_agrees (call : Call Object)
    (few : call.isAlloc = true → state.cabinet.lastId < sizeMax) :
    ∃ next, state.step call = some next ∧ Agrees next ∧
      next.cabinet.lastId ≤ state.cabinet.lastId + call.isAlloc.toNat ∧
      (call.isClear = false → Retired state → Retired next) := by
  obtain ⟨free, sound⟩ := agrees
  cases call with
  | alloc object =>
    obtain ⟨token, after, rest, isAlloc, isLast, _, stays⟩ := sound.allocs object (few rfl)
    refine ⟨_, by rw [step, isAlloc]; rfl, ⟨rest, stays⟩, Nat.le_of_eq isLast, ?_⟩
    intro _ retired other isDead
    obtain ⟨_, gone⟩ := retired other isDead
    refine ⟨by rw [isLast]; omega, fun content mem => ?_⟩
    rcases mem_cons.mp mem with same | wasLive
    · have sameToken := congrArg (fun entry => entry.1.id) same
      dsimp only at sameToken
      omega
    · exact gone content wasLive
  | update token object =>
    have isLast : (state.cabinet.update token object).2.lastId = state.cabinet.lastId := by
      rw [update]
      split <;> rfl
    refine ⟨_, rfl, ⟨free, sound.updates token object⟩, Nat.le_of_eq isLast, ?_⟩
    intro _ retired other isDead
    refine ⟨isLast ▸ (retired other isDead).1, fun content mem => ?_⟩
    obtain ⟨entry, wasLive, isEntry⟩ := mem_map.mp mem
    have sameToken : entry.1 = other := by
      split at isEntry
      · next same => exact same.trans (congrArg Prod.fst isEntry)
      · exact congrArg Prod.fst isEntry
    exact (retired other isDead).2 entry.2 (sameToken ▸ wasLive)
  | free token =>
    obtain ⟨after, isLast, retires⟩ := freed_agrees ⟨free, sound⟩ token
    exact ⟨_, rfl, after, Nat.le_of_eq isLast, fun _ => retires⟩
  | clear => exact ⟨_, rfl, agrees_initial, Nat.zero_le _, nofun⟩
  | foreach visit =>
    obtain ⟨after, isLast, retires⟩ := freedAll_agrees ⟨free, sound⟩ (state.cabinet.foreach visit)
    exact ⟨_, rfl, after, Nat.le_of_eq isLast, fun _ => retires⟩

theorem run_agrees (few : state.cabinet.lastId + calls.countP Call.isAlloc < sizeMax) :
    ∃ final, Machine.run step state calls = some final ∧ Agrees final ∧
      ((∀ call ∈ calls, call.isClear = false) → Retired state → Retired final) := by
  induction calls generalizing state with
  | nil => exact ⟨state, rfl, agrees, fun _ => id⟩
  | cons call rest ih =>
    rw [countP_cons] at few
    obtain ⟨next, taken, after, isLast, retires⟩ := step_agrees agrees call (by omega)
    have fewer : next.cabinet.lastId + rest.countP Call.isAlloc < sizeMax := by
      cases isAlloc : call.isAlloc <;> simp [isAlloc] at isLast few <;> omega
    obtain ⟨final, ran, sound, later⟩ := ih after fewer
    refine ⟨final, by rw [Machine.run, taken, bind_some, ran], sound, ?_⟩
    intro noClear retired
    exact later (fun other mem => noClear other (.tail _ mem))
      (retires (noClear call (.head _)) retired)

end

section

variable (sound : Sound cabinet live free)
include sound

theorem Sound.at?_live (isLive : (token, object) ∈ live) : cabinet.at? token = object := by
  rw [at?, (sound.find?_iff token object).mpr isLive, join_some]

theorem Sound.at?_absent (absent : ∀ object, (token, object) ∉ live) :
    cabinet.at? token = none := by
  cases found : cabinet.find? token with
  | none => rw [at?, found, join_none]
  | some object => exact absurd ((sound.find?_iff token object).mp found) (absent object)

/-- The free positions and those of the live tokens are all positions, and no position is both. -/
theorem Sound.partition (pos : Nat) :
    (pos < cabinet.cells.length ↔ pos ∈ free ∨ pos ∈ live.map fun entry => entry.1.pos) ∧
      ¬(pos ∈ free ∧ pos ∈ live.map fun entry => entry.1.pos) := by
  have isLive : (pos ∈ live.map fun entry => entry.1.pos) ↔
      ∃ id object, cabinet.cells[pos]? = some (.held id object) := by
    rw [List.mem_map]
    constructor
    · rintro ⟨⟨token, object⟩, mem, rfl⟩
      exact ⟨token.id, object, sound.mem_iff.mp mem⟩
    · rintro ⟨id, object, isCell⟩
      exact ⟨(⟨id, pos⟩, object), sound.mem_iff.mpr isCell, rfl⟩
  rw [isLive, sound.vacant.mem_iff, mem_vacant]
  constructor
  · constructor
    · intro _
      cases isCell : cabinet.cells[pos]? with
      | none => exact absurd (getElem?_eq_none_iff.mp isCell) (by omega)
      | some cell =>
        cases cell with
        | free next => exact .inl ⟨next, rfl⟩
        | held id object => exact .inr ⟨id, object, rfl⟩
    · rintro (⟨_, isCell⟩ | ⟨_, _, isCell⟩) <;> exact (List.getElem?_eq_some_iff.mp isCell).1
  · rintro ⟨⟨next, isFree⟩, id, object, isHeld⟩
    simp [isFree] at isHeld

end

/-- After any calls, fewer than `2 ^ 64 - 1` of them allocations, a live token reads the object
last stored under it and any other token reads null; so does every token that was ever freed, if
the cabinet was not cleared. The free list and the cells of the live tokens partition the cells,
and the size is the number of live tokens. -/
theorem tokens_read (calls : List (Call Object)) (few : calls.countP Call.isAlloc < sizeMax) :
    ∃ final free, Machine.run Recorded.step Recorded.initial calls = some final ∧
      (∀ token object, (token, object) ∈ final.live → final.cabinet.at? token = object) ∧
      (∀ token, (∀ object, (token, object) ∉ final.live) → final.cabinet.at? token = none) ∧
      ((∀ call ∈ calls, call.isClear = false) →
        ∀ token ∈ final.dead, final.cabinet.at? token = none) ∧
      (final.live.map fun entry => entry.1.pos).Nodup ∧
      Linked final.cabinet.cells final.cabinet.firstFree free ∧ free.Nodup ∧
      (∀ pos, (pos < final.cabinet.cells.length ↔
          pos ∈ free ∨ pos ∈ final.live.map fun entry => entry.1.pos) ∧
        ¬(pos ∈ free ∧ pos ∈ final.live.map fun entry => entry.1.pos)) ∧
      final.cabinet.size = final.live.length := by
  obtain ⟨final, ran, ⟨free, sound⟩, retires⟩ :=
    run_agrees agrees_initial (by simpa [initial, empty] using few)
  refine ⟨final, free, ran, fun _ _ => sound.at?_live, fun _ => sound.at?_absent, ?_,
    sound.distinct, sound.linked, sound.freeNodup, sound.partition, sound.counted⟩
  intro noClear token isDead
  exact sound.at?_absent (retires noClear nofun token isDead).2

/-- A cell used twice: the first token reads null, the second its object. -/
theorem tokens_read_reused :
    ∃ final, Machine.run Recorded.step Recorded.initial
        [.alloc (some 7), .free ⟨1, 0⟩, .alloc (some 8)] = some final ∧
      final.cabinet.at? ⟨1, 0⟩ = none ∧ final.cabinet.at? ⟨2, 0⟩ = some 8 := by
  obtain ⟨final, -, ran, isLive, -, isDead, -⟩ :=
    tokens_read [.alloc (some 7), .free ⟨1, 0⟩, .alloc (some 8)] (by decide)
  refine ⟨final, ran, ?_, ?_⟩
  · refine isDead (by simp [Call.isClear]) _ ?_
    cases ran
    decide
  · refine isLive _ _ ?_
    cases ran
    decide

/-- `clear` starts the ids again: a token from before it reads the object stored after it. -/
theorem clear_reissues :
    ∃ final, Machine.run Recorded.step Recorded.initial
        [.alloc (some 7), .clear, .alloc (some 8)] = some final ∧
      ⟨1, 0⟩ ∈ final.dead ∧ final.cabinet.at? ⟨1, 0⟩ = some 8 :=
  ⟨_, rfl, by decide, by decide⟩

end CodeReading.Tbox
