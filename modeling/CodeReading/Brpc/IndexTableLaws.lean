import CodeReading.Brpc.IndexTable
import Mathlib.Data.List.TakeWhile

/-!
# What an index table holds

A table is read as the list of its headers from the newest on. Eviction drops headers from
the end of the list while the sum of the sizes says so. In the table of an encoder the maps
give for a header and for a name the place of the first entry in the list that has it.

The maps compare names through C strings, so all of this is about names without zero bytes.
-/

namespace CodeReading.Brpc

open List FlatMap BoundedQueue

def totalSize (entries : List Header) : Nat := (entries.map headerSize).sum

/-- The entries that are left when the oldest are dropped as long as the sum of the sizes is
too great. -/
def trim (excess : Nat → Bool) : Nat → List Header → List Header
  | 0, entries => entries
  | turns + 1, entries =>
      if excess (totalSize entries) then trim excess turns entries.dropLast else entries

/-- The sizes at which a header needs more room. -/
def overflows (maxSize : Nat) (header : Header) (size : Nat) : Bool :=
  decide (size ≠ 0 ∧ size + headerSize header > maxSize)

/-- What adding a header comes to. -/
def addEntry (maxSize : Nat) (entries : List Header) (header : Header) : List Header :=
  let kept := trim (overflows maxSize header) entries.length entries
  if headerSize header > maxSize then kept else header :: kept

/-- What a new limit comes to. -/
def resetEntries (maxSize : Nat) (entries : List Header) : List Header :=
  trim (fun size => decide (size > maxSize)) entries.length entries

section

variable (excess : Nat → Bool)

theorem trim_initial (turns : Nat) (entries : List Header) :
    trim excess turns entries <+: entries := by
  induction turns generalizing entries with
  | zero => exact prefix_rfl
  | succ turns ih =>
    rw [trim]
    split
    · exact (ih _).trans <| dropLast_prefix entries
    · exact prefix_rfl

variable {entries : List Header}

theorem trim_within (empty : excess 0 = false) (enough : entries.length ≤ turns) :
    excess (totalSize (trim excess turns entries)) = false := by
  induction turns generalizing entries with
  | zero =>
    rw [trim, eq_nil_of_length_eq_zero (Nat.le_zero.mp enough)]
    exact empty
  | succ turns ih =>
    rw [trim]
    split
    · apply ih
      rw [length_dropLast]
      omega
    · rename_i within
      exact Bool.eq_false_iff.mpr within

variable {excess} in
theorem trim_eq
    (within : excess (totalSize entries) = false) : trim excess turns entries = entries := by
  cases turns with
  | zero => rfl
  | succ turns => rw [trim, if_neg (Bool.eq_false_iff.mp within)]

theorem kept_within (maxSize : Nat) (entries : List Header) (header : Header) :
    totalSize (trim (overflows maxSize header) entries.length entries) = 0 ∨
      totalSize (trim (overflows maxSize header) entries.length entries) + headerSize header ≤
        maxSize := by
  have within : overflows maxSize header _ = false :=
    trim_within _ (by simp [overflows]) (Nat.le_refl entries.length)
  rw [overflows, decide_eq_false_iff_not] at within
  omega

theorem totalSize_cons (header : Header) (entries : List Header) :
    totalSize (header :: entries) = headerSize header + totalSize entries := by
  rw [totalSize, totalSize, map_cons, sum_cons]

theorem addEntry_within (maxSize : Nat) (entries : List Header) (header : Header) :
    totalSize (addEntry maxSize entries header) ≤ maxSize := by
  have within := kept_within maxSize entries header
  rw [addEntry]
  split
  · omega
  · rw [totalSize_cons]
    omega

theorem addEntry_mem
    (mem : entry ∈ addEntry maxSize entries header) : entry = header ∨ entry ∈ entries := by
  have kept := (trim_initial (overflows maxSize header) entries.length entries).subset
  rw [addEntry] at mem
  split at mem
  · exact .inr (kept mem)
  · cases mem_cons.mp mem with
    | inl isHeader => exact .inl isHeader
    | inr earlier => exact .inr (kept earlier)

theorem resetEntries_within (maxSize : Nat) (entries : List Header) :
    totalSize (resetEntries maxSize entries) ≤ maxSize := by
  have within := trim_within (fun size => decide (size > maxSize)) (by simp)
    (Nat.le_refl entries.length)
  rw [decide_eq_false_iff_not] at within
  exact Nat.not_lt.mp within

/-- Entries of at least 34 bytes are no more than the queue was made for. -/
theorem length_le_of_totalSize (large : ∀ entry ∈ entries, 34 ≤ headerSize entry)
    (within : totalSize entries ≤ maxSize) : entries.length ≤ maxSize / 34 := by
  have counted : entries.length * 34 ≤ totalSize entries := by
    induction entries with
    | nil => exact Nat.zero_le _
    | cons first entries ih =>
      have first34 := large first (.head _)
      rw [totalSize_cons] at within ⊢
      have rest := ih
        (fun entry mem => large entry (.tail _ mem)) (by omega)
      rw [length_cons]
      omega
  omega

end

section

/-- The string has no zero byte. -/
def NulFree (text : Bytes) : Prop := 0 ∉ text

theorem cString_of_nulFree (nulFree : NulFree text) : cString text = text := by
  rw [cString, takeWhile_eq_self_iff]
  intro _ mem
  simp only [bne_iff_ne]
  rintro rfl
  exact nulFree mem

theorem caseIgnoredHash_lower (text : Bytes) :
    caseIgnoredHash text = (lower text).foldl (fun result byte => result * 101 + extend byte) 0 := by
  rw [caseIgnoredHash, lower, foldl_map]

theorem sameName_agrees : FlatMap.Agrees sameName lower NulFree := by
  intro _ _ leftFree rightFree
  rw [sameName, caseIgnoredEqual, cString_of_nulFree leftFree, cString_of_nulFree rightFree,
    caseIgnoredHash_lower, caseIgnoredHash_lower]
  simp only [Bool.and_eq_true, beq_iff_eq]
  constructor
  · rintro ⟨_, _, same⟩
    exact same
  · intro same
    refine ⟨by rw [same], ?_, same⟩
    have lengths := congrArg length same
    rwa [lower, lower, length_map, length_map] at lengths

/-- A header as the maps see it. -/
def Header.lowered (header : Header) : Header := ⟨lower header.name, header.value⟩

/-- The headers that the map of headers is about. -/
def Searchable (header : Header) : Prop := NulFree header.name ∧ header.value ≠ []

theorem sameHeader_agrees : FlatMap.Agrees sameHeader Header.lowered Searchable := by
  rintro left right ⟨leftFree, _⟩ ⟨rightFree, _⟩
  have names := sameName_agrees left.name right.name leftFree rightFree
  rw [sameName, Bool.and_eq_true, beq_iff_eq] at names
  rw [sameHeader, headerEqualTo, headerHash, headerHash, Header.lowered, Header.lowered]
  simp only [Bool.and_eq_true, beq_iff_eq, Header.mk.injEq]
  constructor
  · rintro ⟨_, sameNames, sameValues⟩
    refine ⟨?_, sameValues⟩
    rw [caseIgnoredEqual, cString_of_nulFree leftFree, cString_of_nulFree rightFree] at sameNames
    simp only [Bool.and_eq_true, beq_iff_eq] at sameNames
    exact sameNames.2
  · rintro ⟨sameNames, sameValues⟩
    obtain ⟨hashes, equal⟩ := names.mpr sameNames
    exact ⟨by rw [hashes, sameValues], equal, sameValues⟩

/-- A header without a value is not looked for. -/
theorem lowered_ne {header other : Header} (noValue : header.value = [])
    (searchable : Searchable other) : header.lowered ≠ other.lowered := by
  intro same
  have values : header.lowered.value = other.lowered.value := congrArg Header.value same
  exact searchable.2 (values ▸ noValue)

theorem headerSize_lowered (header : Header) : headerSize header.lowered = headerSize header := by
  rw [headerSize, headerSize, Header.lowered, lower, length_map]

theorem totalSize_lowered (entries : List Header) :
    totalSize (entries.map Header.lowered) = totalSize entries := by
  rw [totalSize, totalSize, map_map]
  congr 1
  exact map_congr_left fun header _ => headerSize_lowered header

theorem trim_lowered (excess : Nat → Bool) (turns : Nat) (entries : List Header) :
    trim excess turns (entries.map Header.lowered) =
      (trim excess turns entries).map Header.lowered := by
  induction turns generalizing entries with
  | zero => rfl
  | succ turns ih =>
    rw [trim, trim, totalSize_lowered]
    split
    · rw [← map_dropLast, ih]
    · rfl

/-- Tables that agree up to letter case evict the same entries. -/
theorem addEntry_lowered (maxSize : Nat) (entries : List Header) (header : Header) :
    addEntry maxSize (entries.map Header.lowered) header.lowered =
      (addEntry maxSize entries header).map Header.lowered := by
  have sizes : overflows maxSize header.lowered = overflows maxSize header := by
    funext size
    rw [overflows, overflows, headerSize_lowered]
  rw [addEntry, addEntry, sizes, headerSize_lowered, length_map, trim_lowered]
  split
  · rfl
  · rfl

end

namespace IndexTable

/-- The time at which the first matching entry of a list was added, when the first of all was
added last. -/
def timeOf (matching : Header → Bool) (entries : List Header) (addTimes : Nat) : Option Nat :=
  (entries.findIdx? matching).map fun place => addTimes - 1 - place

section

variable {entries : List Header} {addTimes : Nat}

theorem timeOf_cons (header : Header) :
    timeOf matching (header :: entries) (addTimes + 1) =
      if matching header then some addTimes else timeOf matching entries addTimes := by
  rw [timeOf, findIdx?_cons]
  cases matching header with
  | true => rfl
  | false =>
    rw [timeOf, if_neg Bool.false_ne_true, if_neg Bool.false_ne_true, Option.map_map]
    congr 1
    funext place
    simp only [Function.comp_apply]
    omega

theorem timeOf_some (found : timeOf matching entries addTimes = some time) :
    ∃ place < entries.length, time = addTimes - 1 - place ∧
      ∃ entry, entries[place]? = some entry ∧ matching entry = true := by
  obtain ⟨place, isPlace, isTime⟩ := Option.map_eq_some_iff.mp found
  obtain ⟨inside, holds, _⟩ := findIdx?_eq_some_iff_getElem.mp isPlace
  exact ⟨place, inside, isTime.symm, entries.get ⟨place, inside⟩, getElem?_eq_getElem inside, holds⟩

theorem timeOf_append_last (last : Header) :
    timeOf matching (entries ++ [last]) addTimes =
      (timeOf matching entries addTimes).or
        (if matching last then some (addTimes - 1 - entries.length) else none) := by
  rw [timeOf, timeOf, findIdx?_append]
  cases entries.findIdx? matching with
  | some place => rfl
  | none =>
    rw [findIdx?_singleton]
    cases matching last with
    | true => simp
    | false => rfl

theorem timeOf_last_isSome (isLast : matching last = true) :
    ∃ time, timeOf matching (entries ++ [last]) addTimes = some time := by
  rw [timeOf_append_last, if_pos isLast]
  cases timeOf matching entries addTimes with
  | none => exact ⟨_, rfl⟩
  | some time => exact ⟨time, rfl⟩

/-- The last entry is dropped. It is forgotten only if no other one matches. -/
theorem timeOf_init (last : Header) (times : entries.length < addTimes) :
    timeOf matching entries addTimes =
      if matching last = true ∧
          timeOf matching (entries ++ [last]) addTimes = some (addTimes - (entries.length + 1)) then
        none
      else timeOf matching (entries ++ [last]) addTimes := by
  rw [timeOf_append_last]
  cases found : timeOf matching entries addTimes with
  | some time =>
    obtain ⟨_, _, _, _⟩ := timeOf_some found
    have later : time ≠ addTimes - (entries.length + 1) := by omega
    rw [Option.some_or, if_neg]
    rintro ⟨_, same⟩
    exact later (Option.some.inj same)
  | none =>
    rw [Option.none_or]
    cases matching last with
    | false => rfl
    | true =>
      have same : addTimes - 1 - entries.length = addTimes - (entries.length + 1) := by omega
      rw [if_pos rfl, if_pos ⟨rfl, by rw [same]⟩]

end

section

variable {Key Canonical : Type} [DecidableEq Canonical]

/-- A map gives for every clean key the latest time at which an entry with that key was
added. -/
structure Tracks (same : Key → Key → Bool) (canonical : Key → Canonical) (clean : Key → Prop)
    (keyOf : Header → Key) (map : FlatMap Key Nat) (entries : List Header) (addTimes : Nat) :
    Prop where
  proper : FlatMap.Proper canonical clean map
  finds : ∀ key, clean key → FlatMap.seek same map key =
    timeOf (fun entry => decide (canonical (keyOf entry) = canonical key)) entries addTimes

variable {same : Key → Key → Bool} {canonical : Key → Canonical} {clean : Key → Prop}
  {keyOf : Header → Key} {map : FlatMap Key Nat} {entries : List Header} {addTimes : Nat}

theorem tracks_nil (addTimes : Nat) : Tracks same canonical clean keyOf [] [] addTimes :=
  ⟨proper_nil, fun _ _ => rfl⟩

theorem tracks_assign (agrees : FlatMap.Agrees same canonical clean)
    (tracks : Tracks same canonical clean keyOf map entries addTimes)
    (cleanKey : clean (keyOf header)) :
    Tracks same canonical clean keyOf (assign same (keyOf header) addTimes map)
      (header :: entries) (addTimes + 1) := by
  constructor
  · exact assign_proper agrees tracks.proper cleanKey
  · intro key cleanOther
    rw [seek_assign agrees tracks.proper cleanKey cleanOther, timeOf_cons,
      tracks.finds key cleanOther]
    simp

/-- An entry whose key is never sought need not be tracked. -/
theorem tracks_cons (tracks : Tracks same canonical clean keyOf map entries addTimes)
    (never : ∀ key, clean key → canonical (keyOf header) ≠ canonical key) :
    Tracks same canonical clean keyOf map (header :: entries) (addTimes + 1) := by
  refine ⟨tracks.proper, ?_⟩
  intro key cleanKey
  rw [timeOf_cons, if_neg (by simpa using never key cleanKey), tracks.finds key cleanKey]

section

variable (tracks : Tracks same canonical clean keyOf map (entries ++ [last]) addTimes)
  (times : entries.length < addTimes)
include tracks times

theorem tracks_erase (agrees : FlatMap.Agrees same canonical clean)
    (cleanKey : clean (keyOf last)) :
    ∃ added, seek same map (keyOf last) = some added ∧
      Tracks same canonical clean keyOf
        (if added = addTimes - (entries.length + 1) then erase same map (keyOf last)
          else map) entries addTimes := by
  have found := tracks.finds (keyOf last) cleanKey
  obtain ⟨added, isAdded⟩ :
      ∃ added, seek same map (keyOf last) = some added := by
    rw [found]
    exact timeOf_last_isSome (decide_eq_true rfl)
  refine ⟨added, isAdded, ?_⟩
  constructor
  · split
    · exact erase_proper tracks.proper
    · exact tracks.proper
  · intro key cleanOther
    rw [timeOf_init last times, ← tracks.finds key cleanOther]
    by_cases sameKey : canonical (keyOf last) = canonical key
    · have alike : seek same map key = some added := by
        rw [tracks.finds key cleanOther, ← sameKey, ← found, isAdded]
      rw [alike]
      simp only [sameKey, decide_true, true_and, Option.some.injEq]
      split
      · rw [seek_erase tracks.proper agrees cleanKey cleanOther, if_pos sameKey]
      · exact alike
    · have notLast : ¬(decide (canonical (keyOf last) = canonical key) = true ∧
          seek same map key = some (addTimes - (entries.length + 1))) := fun both =>
        sameKey (decide_eq_true_eq.mp both.1)
      rw [if_neg notLast]
      split
      · rw [seek_erase tracks.proper agrees cleanKey cleanOther, if_neg sameKey]
      · rfl

theorem tracks_init (never : ∀ key, clean key → canonical (keyOf last) ≠ canonical key) :
    Tracks same canonical clean keyOf map entries addTimes := by
  refine ⟨tracks.proper, ?_⟩
  intro key cleanKey
  rw [timeOf_init last times, if_neg (by simp [never key cleanKey]), tracks.finds key cleanKey]

end

end

/-- The maps of the table of an encoder. -/
structure Indexed (table : IndexTable) (entries : List Header) : Prop where
  times : entries.length ≤ table.addTimes
  clean : ∀ entry ∈ entries, NulFree entry.name
  names : Tracks sameName lower NulFree Header.name table.nameIndex entries table.addTimes
  headers : Tracks sameHeader Header.lowered Searchable id table.headerIndex entries table.addTimes

/-- The table holds the entries. -/
structure Sound (table : IndexTable) (entries : List Header) : Prop where
  queue : table.headerQueue.Holds entries
  size : table.size = totalSize entries
  indexed : table.needIndexes = true → Indexed table entries

/-- What no operation changes. -/
structure Frame (table next : IndexTable) : Prop where
  startIndex : next.startIndex = table.startIndex
  needIndexes : next.needIndexes = table.needIndexes
  cap : next.headerQueue.cap = table.headerQueue.cap

/-- What popping leaves alone. -/
structure Popped (table next : IndexTable) : Prop extends Frame table next where
  maxSize : next.maxSize = table.maxSize
  addTimes : next.addTimes = table.addTimes

theorem frame_refl (table : IndexTable) : Frame table table := ⟨rfl, rfl, rfl⟩

variable {next table : IndexTable}

theorem frame_trans (first : Frame table middle) (second : Frame middle next) : Frame table next :=
  ⟨second.startIndex.trans first.startIndex, second.needIndexes.trans first.needIndexes,
    second.cap.trans first.cap⟩

theorem popped_trans (first : Popped table middle) (second : Popped middle next) :
    Popped table next :=
  ⟨frame_trans first.toFrame second.toFrame, second.maxSize.trans first.maxSize,
    second.addTimes.trans first.addTimes⟩

section

theorem removeHeaderFromIndexes_indexed (indexed : Indexed table (kept ++ [last])) :
    ∃ headerIndex nameIndex,
      table.removeHeaderFromIndexes last (table.addTimes - (kept.length + 1)) =
        some { table with headerIndex := headerIndex, nameIndex := nameIndex } ∧
      Indexed { table with headerIndex := headerIndex, nameIndex := nameIndex } kept := by
  have cleanLast : NulFree last.name := indexed.clean last (by simp)
  have times : kept.length < table.addTimes := by
    have := indexed.times
    rw [length_append, length_singleton] at this
    exact this
  obtain ⟨addedName, foundName, names⟩ := tracks_erase indexed.names times sameName_agrees cleanLast
  have clean : ∀ entry ∈ kept, NulFree entry.name := fun entry mem =>
    indexed.clean entry (mem_append_left _ mem)
  have forgetName : ∀ table : IndexTable,
      (if addedName = table.addTimes - (kept.length + 1) then
        { table with nameIndex := erase sameName table.nameIndex last.name }
      else table) = { table with
        nameIndex :=
          if addedName = table.addTimes - (kept.length + 1) then
            erase sameName table.nameIndex last.name
          else table.nameIndex } := by
    intro table
    split
    · rfl
    · rfl
  rw [removeHeaderFromIndexes]
  cases noValue : last.value.isEmpty with
  | true =>
    have headers := tracks_init indexed.headers times fun _ cleanKey =>
      lowered_ne (isEmpty_iff.mp noValue) cleanKey
    simp only [if_true, Option.bind_some, foundName, Option.map_some, forgetName]
    exact ⟨table.headerIndex, _, rfl, Nat.le_of_lt times, clean, names, headers⟩
  | false =>
    have cleanHeader : Searchable last :=
      ⟨cleanLast, fun empty => by rw [empty] at noValue; cases noValue⟩
    obtain ⟨_, foundHeader, headers⟩ :=
      tracks_erase indexed.headers times sameHeader_agrees cleanHeader
    simp only [id_eq] at foundHeader headers
    simp only [Bool.false_eq_true, if_false, foundHeader, Option.map_some, Option.bind_some]
    split
    · rename_i forgotten
      rw [if_pos forgotten] at headers
      simp only [foundName, Option.map_some]
      exact ⟨erase sameHeader table.headerIndex last, _, congrArg some (forgetName { table with
          headerIndex := erase sameHeader table.headerIndex last }),
        Nat.le_of_lt times, clean, names, headers⟩
    · rename_i stays
      rw [if_neg stays] at headers
      simp only [foundName, Option.map_some, forgetName]
      exact ⟨_, _, rfl, Nat.le_of_lt times, clean, names, headers⟩

theorem totalSize_append (entries : List Header) (last : Header) :
    totalSize (entries ++ [last]) = totalSize entries + headerSize last := by
  simp [totalSize]

theorem popHeader_sound (sound : Sound table (kept ++ [last])) :
    ∃ next, table.popHeader = some next ∧ Sound next kept ∧ Popped table next := by
  have top : table.headerQueue.top = some last := by
    rw [top_holds sound.queue, getLast?_concat]
  have popped : table.headerQueue.pop.Holds kept := by
    have := pop_holds sound.queue
    rwa [dropLast_concat] at this
  have size : table.size - headerSize last = totalSize kept := by
    rw [sound.size, totalSize_append, Nat.add_sub_cancel]
  have count : table.headerQueue.count = kept.length + 1 := by
    rw [sound.queue.count, length_append, length_singleton]
  have cap : table.headerQueue.pop.cap = table.headerQueue.cap := by
    rw [pop]
    split
    · rfl
    · rfl
  rw [popHeader, top, Option.bind_some, count]
  cases needed : table.needIndexes with
  | true =>
    obtain ⟨_, _, removed, indexed⟩ := removeHeaderFromIndexes_indexed (sound.indexed needed)
    simp only [if_true, removed, Option.map_some]
    exact ⟨_, rfl, ⟨popped, size, fun _ => { indexed with }⟩, ⟨rfl, rfl, cap⟩, rfl, rfl⟩
  | false =>
    simp only [Bool.false_eq_true, if_false, Option.map_some]
    exact ⟨_, rfl, ⟨popped, size, fun impossible => Bool.noConfusion (needed.symm.trans impossible)⟩,
      ⟨rfl, rfl, cap⟩, rfl, rfl⟩

/-- The loops end, since a table without headers has no size. -/
theorem popWhile_sound (excess : IndexTable → Bool) (limit : Nat → Bool) (empty : limit 0 = false)
    (sound : Sound table entries) (enough : entries.length ≤ turns)
    (reads : ∀ next, Popped table next → excess next = limit next.size) :
    ∃ next, popWhile excess turns table = some next ∧ Sound next (trim limit turns entries) ∧
      Popped table next := by
  have here : excess table = limit (totalSize entries) := by
    rw [reads table ⟨frame_refl table, rfl, rfl⟩, sound.size]
  induction turns generalizing table entries with
  | zero =>
    have none : entries = [] := eq_nil_of_length_eq_zero (by omega)
    subst none
    rw [popWhile, here, show totalSize [] = 0 from rfl, empty]
    exact ⟨table, rfl, sound, frame_refl table, rfl, rfl⟩
  | succ turns ih =>
    rw [popWhile, trim, here]
    cases exceeds : limit (totalSize entries) with
    | false => exact ⟨table, rfl, sound, frame_refl table, rfl, rfl⟩
    | true =>
      cases entries using reverseRecOn with
      | nil =>
        rw [show totalSize [] = 0 from rfl, empty] at exceeds
        cases exceeds
      | append_singleton kept last =>
        obtain ⟨middle, isMiddle, middleSound, popped⟩ := popHeader_sound sound
        rw [length_append, length_singleton] at enough
        have reads' : ∀ next, Popped middle next → excess next = limit next.size :=
          fun next later => reads next (popped_trans popped later)
        obtain ⟨next, isNext, nextSound, later⟩ := ih middleSound
          (by omega) reads'
          (by rw [reads' middle ⟨frame_refl middle, rfl, rfl⟩, middleSound.size])
        rw [if_pos rfl, if_pos rfl, isMiddle, Option.bind_some, dropLast_concat]
        exact ⟨next, isNext, nextSound, popped_trans popped later⟩

end

section

variable {table : IndexTable} {entries : List Header} {header : Header}

theorem throughInt_eq (small : number < 2 ^ 31) : throughInt number = number := by
  have same : number % 2 ^ 32 = number := by omega
  rw [throughInt, same, if_pos small]

theorem push_cap (queue : BoundedQueue Header) (header : Header) :
    (queue.push header).cap = queue.cap := by
  rw [push]
  split
  · rfl
  · rfl

theorem indexed_push (indexed : Indexed table entries) (clean : NulFree header.name) :
    Tracks sameName lower NulFree Header.name
        (assign sameName header.name table.addTimes table.nameIndex)
        (header :: entries) (table.addTimes + 1) ∧
      Tracks sameHeader Header.lowered Searchable id
        (if header.value.isEmpty then table.headerIndex
          else assign sameHeader header table.addTimes table.headerIndex)
        (header :: entries) (table.addTimes + 1) := by
  refine ⟨tracks_assign sameName_agrees indexed.names clean, ?_⟩
  cases noValue : header.value.isEmpty with
  | true =>
    exact tracks_cons indexed.headers fun _ cleanKey => lowered_ne (isEmpty_iff.mp noValue) cleanKey
  | false =>
    have searchable : Searchable header :=
      ⟨clean, fun empty => by rw [empty] at noValue; cases noValue⟩
    exact tracks_assign sameHeader_agrees indexed.headers searchable

section

variable (sound : Sound table entries)
include sound

theorem pushHeader_sound (room : entries.length < table.headerQueue.cap)
    (tracked : table.needIndexes = true → NulFree header.name ∧ table.addTimes < 2 ^ 31) :
    ∃ next, table.pushHeader header = some next ∧ Sound next (header :: entries) ∧
      Frame table next ∧ next.maxSize = table.maxSize ∧
      next.addTimes = table.addTimes + 1 := by
  have notFull : ¬table.headerQueue.full = true := by
    rw [full_iff sound.queue]
    omega
  have queue := push_holds sound.queue room header
  have size : table.size + headerSize header = totalSize (header :: entries) := by
    rw [sound.size, totalSize, totalSize, map_cons, sum_cons, Nat.add_comm]
  have cap := push_cap table.headerQueue header
  rw [pushHeader, if_neg notFull]
  cases needed : table.needIndexes with
  | false =>
    simp only [Bool.false_eq_true, if_false]
    exact ⟨_, rfl, ⟨queue, size, fun impossible => Bool.noConfusion impossible⟩,
      ⟨rfl, needed.symm, cap⟩, rfl, rfl⟩
  | true =>
    obtain ⟨clean, small⟩ := tracked needed
    have indexed := sound.indexed needed
    obtain ⟨names, headers⟩ := indexed_push indexed clean
    simp only [if_true, throughInt_eq small]
    refine ⟨_, rfl, ⟨queue, size, fun _ => ⟨?_, ?_, names, headers⟩⟩, ⟨rfl, needed.symm, cap⟩,
      rfl, rfl⟩
    · rw [length_cons]
      exact Nat.add_le_add_right indexed.times 1
    · intro entry mem
      cases mem_cons.mp mem with
      | inl isHeader => exact isHeader ▸ clean
      | inr earlier => exact indexed.clean entry earlier

theorem addHeader_sound (named : header.name ≠ [])
    (room : (addEntry table.maxSize entries header).length ≤ table.headerQueue.cap)
    (tracked : table.needIndexes = true → NulFree header.name ∧ table.addTimes < 2 ^ 31) :
    ∃ next, table.addHeader header = some next ∧
      Sound next (addEntry table.maxSize entries header) ∧ Frame table next ∧
      next.maxSize = table.maxSize ∧ next.addTimes ≤ table.addTimes + 1 := by
  have notEmpty : ¬header.name.isEmpty = true := fun empty => named (isEmpty_iff.mp empty)
  have empty : overflows table.maxSize header 0 = false := by simp [overflows]
  obtain ⟨popped, isPopped, poppedSound, frame⟩ := popWhile_sound
    (fun next => decide (next.size ≠ 0 ∧ next.size + headerSize header > next.maxSize)) _
    empty sound le_rfl fun next frame => by rw [overflows, frame.maxSize]
  rw [addEntry] at room ⊢
  rw [addHeader, if_neg notEmpty, sound.queue.count, isPopped, Option.bind_some, frame.maxSize]
  split
  · exact ⟨popped, rfl, poppedSound, frame.toFrame, frame.maxSize, by rw [frame.addTimes]; omega⟩
  · rename_i small
    rw [if_neg small, length_cons] at room
    have tracked' : popped.needIndexes = true → NulFree header.name ∧ popped.addTimes < 2 ^ 31 := by
      rw [frame.needIndexes, frame.addTimes]
      exact tracked
    obtain ⟨next, isNext, nextSound, nextFrame, maxSize, addTimes⟩ :=
      pushHeader_sound poppedSound (by rw [frame.cap]; exact room) tracked'
    refine ⟨next, isNext, nextSound, frame_trans frame.toFrame nextFrame,
      maxSize.trans frame.maxSize, ?_⟩
    rw [addTimes, frame.addTimes]

theorem resetMaxSize_sound (within : totalSize entries ≤ table.maxSize) (newMaxSize : Nat) :
    ∃ next, table.resetMaxSize newMaxSize = some next ∧
      Sound next (resetEntries newMaxSize entries) ∧ Frame table next ∧
      next.maxSize = newMaxSize := by
  have same (larger : table.maxSize ≤ newMaxSize) : resetEntries newMaxSize entries = entries :=
    trim_eq (by simp; omega)
  rw [resetMaxSize]
  split
  · rename_i larger
    rw [same (Nat.le_of_lt larger)]
    exact ⟨_, rfl, ⟨sound.queue, sound.size, fun needed =>
      let indexed := sound.indexed needed
      { indexed with }⟩, ⟨rfl, rfl, rfl⟩, rfl⟩
  · split
    · rename_i smaller
      have resized : Sound { table with maxSize := newMaxSize } entries :=
        ⟨sound.queue, sound.size, fun needed =>
          let indexed := sound.indexed needed
          { indexed with }⟩
      obtain ⟨next, isNext, nextSound, frame⟩ := popWhile_sound
        (fun next => decide (next.size > next.maxSize))
        (fun size => decide (size > newMaxSize)) (by simp) resized le_rfl
        fun next frame => by rw [frame.maxSize]
      rw [sound.queue.count]
      exact ⟨next, isNext, nextSound, { frame with }, frame.maxSize⟩
    · rename_i notLarger notSmaller
      have equal : table.maxSize = newMaxSize := by omega
      rw [same (Nat.le_of_eq equal)]
      exact ⟨table, rfl, sound, frame_refl table, equal⟩

/-- Adding headers that need no room made for them. -/
theorem addHeaders_sound (named : ∀ header ∈ headers, header.name ≠ [])
    (within : totalSize (headers.reverse ++ entries) ≤ table.maxSize)
    (room : headers.length + entries.length ≤ table.headerQueue.cap)
    (tracked : table.needIndexes = true → (∀ header ∈ headers, NulFree header.name) ∧ table.addTimes
      + headers.length ≤ 2 ^ 31) :
    ∃ next, table.addHeaders headers = some next ∧ Sound next (headers.reverse ++ entries) ∧
      Frame table next ∧ next.maxSize = table.maxSize := by
  induction headers generalizing table entries with
  | nil => exact ⟨table, rfl, sound, frame_refl table, rfl⟩
  | cons header headers ih =>
    rw [reverse_cons, append_assoc, singleton_append] at within ⊢
    rw [length_cons] at room tracked
    have small : totalSize (header :: entries) ≤ table.maxSize := by
      have split : totalSize (headers.reverse ++ header :: entries) =
          totalSize headers.reverse + totalSize (header :: entries) := by
        rw [totalSize, map_append, sum_append]
        rfl
      omega
    have added : addEntry table.maxSize entries header = header :: entries := by
      rw [totalSize_cons] at small
      have kept : overflows table.maxSize header (totalSize entries) = false := by
        rw [overflows, decide_eq_false_iff_not]
        omega
      rw [addEntry, trim_eq kept, if_neg (by omega)]
    obtain ⟨_, isMiddle, middleSound, frame, maxSize, addTimes⟩ :=
      addHeader_sound sound (named header (.head _))
        (by rw [added, length_cons]; omega) fun needed =>
          ⟨(tracked needed).1 header (.head _), by have := (tracked needed).2; omega⟩
    rw [added] at middleSound
    obtain ⟨next, isNext, nextSound, nextFrame, nextMax⟩ := ih middleSound
      (fun other mem => named other (.tail _ mem))
      (by rw [maxSize]; exact within)
      (by rw [frame.cap, length_cons]; omega)
      (by
        rw [frame.needIndexes]
        intro needed
        refine ⟨fun other mem => (tracked needed).1 other (.tail _ mem), ?_⟩
        have := (tracked needed).2
        omega)
    rw [addHeaders, isMiddle, Option.bind_some]
    exact ⟨next, isNext, nextSound, frame_trans frame nextFrame, nextMax.trans maxSize⟩

end

theorem init_sound {maxSize : Nat} (startIndex : Nat) (needIndexes : Bool)
    (narrow : maxSize / 34 < 2 ^ 31) (buckets : needIndexes = true → 34 ≤ maxSize) :
    ∃ table, init maxSize startIndex [] needIndexes = some table ∧ Sound table [] ∧
      table.startIndex = startIndex ∧ table.needIndexes = needIndexes ∧
      table.maxSize = maxSize ∧ table.headerQueue.cap = maxSize / 34 ∧ table.addTimes = 0 := by
  have possible : ¬(needIndexes = true ∧ maxSize / 34 = 0) := by
    rintro ⟨needed, _⟩
    have := buckets needed
    omega
  have cap : maxSize / 34 % 2 ^ 32 = maxSize / 34 := by omega
  exact ⟨_, if_neg possible, ⟨ofCapacity_holds narrow, rfl, fun _ =>
    ⟨le_rfl, by simp, tracks_nil 0, tracks_nil 0⟩⟩, rfl, rfl, rfl, cap, rfl⟩

theorem init_static_sound {maxSize startIndex : Nat} {needIndexes : Bool} (some : headers ≠ [])
    (narrow : headers.length < 2 ^ 31)
    (named : ∀ header ∈ headers, header.name ≠ [] ∧ NulFree header.name)
    (within : totalSize headers ≤ 2 ^ 32 - 1) :
    ∃ table, init maxSize startIndex headers needIndexes = .some table ∧ Sound table headers ∧
      table.startIndex = startIndex ∧ table.needIndexes = needIndexes := by
  have notEmpty : headers.isEmpty = false := by
    rw [Bool.eq_false_iff]
    exact fun empty => some (isEmpty_iff.mp empty)
  have possible : ¬(needIndexes = true ∧ headers.length = 0) := fun both =>
    some (eq_nil_of_length_eq_zero both.2)
  have fresh : Sound ⟨startIndex, needIndexes, 0, 2 ^ 32 - 1, 0,
      .ofCapacity Header headers.length, [], []⟩ [] :=
    ⟨ofCapacity_holds narrow, rfl, fun _ => ⟨le_rfl, by simp, tracks_nil 0, tracks_nil 0⟩⟩
  have reversed : ∀ header ∈ headers.reverse, header.name ≠ [] ∧ NulFree header.name :=
    fun header mem => named header (mem_reverse.mp mem)
  obtain ⟨table, isTable, sound, frame, _⟩ := addHeaders_sound fresh
    (fun header mem => (reversed header mem).1)
    (by rw [reverse_reverse, append_nil]; exact within)
    (by
      rw [length_reverse, ofCapacity, length_nil]
      simp only
      omega)
    (fun _ => ⟨fun header mem => (reversed header mem).2, by
      rw [length_reverse]
      simp only
      omega⟩)
  rw [reverse_reverse, append_nil] at sound
  refine ⟨table, ?_, sound, frame.startIndex, frame.needIndexes⟩
  rw [init]
  simp only [notEmpty, Bool.false_eq_true, if_false]
  rw [if_neg possible]
  exact isTable

end

section

variable {table : IndexTable} {entries : List Header}

theorem headerAt_sound (sound : Sound table entries) (place : Nat) :
    table.headerAt (table.startIndex + place) = entries[place]? := by
  rw [headerAt, if_neg (by omega), Nat.add_sub_cancel_left, bottom_holds sound.queue]

theorem indexOf_timeOf (times : entries.length ≤ table.addTimes)
    (narrow : table.startIndex + entries.length ≤ 2 ^ 31)
    (found : table.indexOf (timeOf matching entries table.addTimes) ≠ 0) :
    ∃ place entry, table.indexOf (timeOf matching entries table.addTimes) =
      table.startIndex + place ∧ entries[place]? = some entry ∧ matching entry = true := by
  cases isTime : timeOf matching entries table.addTimes with
  | none =>
    rw [isTime] at found
    exact absurd rfl found
  | some time =>
    obtain ⟨place, _, rfl, entry, isEntry, holds⟩ := timeOf_some isTime
    refine ⟨place, entry, ?_, isEntry, holds⟩
    have wide : table.startIndex + (table.addTimes + 2 ^ 64 - (table.addTimes - 1 - place)) - 1 =
        2 ^ 32 * 2 ^ 32 + (table.startIndex + place) := by omega
    rw [indexOf, wide, Nat.mul_add_mod]
    omega

section

variable (sound : Sound table entries) (needed : table.needIndexes = true)
  (narrow : table.startIndex + entries.length ≤ 2 ^ 31)
include sound needed narrow

theorem getIndexOfHeader_sound (searchable : Searchable header)
    (found : table.getIndexOfHeader header ≠ 0) :
    ∃ place entry, table.getIndexOfHeader header = table.startIndex + place ∧
      entries[place]? = some entry ∧ entry.lowered = header.lowered := by
  have indexed := sound.indexed needed
  rw [getIndexOfHeader, indexed.headers.finds header searchable] at found ⊢
  obtain ⟨place, entry, isIndex, isEntry, holds⟩ := indexOf_timeOf indexed.times narrow found
  exact ⟨place, entry, isIndex, isEntry, decide_eq_true_eq.mp holds⟩

theorem getIndexOfName_sound (clean : NulFree name) (found : table.getIndexOfName name ≠ 0) :
    ∃ place entry, table.getIndexOfName name = table.startIndex + place ∧
      entries[place]? = some entry ∧ lower entry.name = lower name := by
  have indexed := sound.indexed needed
  rw [getIndexOfName, indexed.names.finds name clean] at found ⊢
  obtain ⟨place, entry, isIndex, isEntry, holds⟩ := indexOf_timeOf indexed.times narrow found
  exact ⟨place, entry, isIndex, isEntry, decide_eq_true_eq.mp holds⟩

end

/-- The headers in the queue, from the newest on. -/
def headers (table : IndexTable) : List Header :=
  (List.range table.headerQueue.count).filterMap table.headerQueue.bottom

theorem headers_sound (sound : Sound table entries) : table.headers = entries := by
  have read : table.headerQueue.bottom = fun place => entries[place]? :=
    funext (bottom_holds sound.queue)
  rw [headers, read, sound.queue.count]
  clear read sound
  induction entries with
  | nil => rfl
  | cons entry entries ih =>
    rw [length_cons, range_succ_eq_map, filterMap_cons, filterMap_map]
    simp [ih]

end

end IndexTable

end CodeReading.Brpc
