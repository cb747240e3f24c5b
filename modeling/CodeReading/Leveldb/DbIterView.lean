import CodeReading.Leveldb.DbIter

/-!
# The iterator of the database is a cursor over the snapshot

Both searches are described by the entries that they have passed. Forward, what is visible
behind the inner iterator is hidden by the key to skip, and nothing up to that key is left
to show. Backward, the last visible entry passed is the newest so far of its user key, and
no later user key is left to show.
-/

namespace CodeReading.Leveldb

open Cursor List Option
open DbIter (entry)

variable {State Key Value : Type} [LinearOrder Key]
  {inner : Iterator State (InternalKey Key) (Item Key Value)} {items : List (Item Key Value)}
  {shows : State → Place (Item Key Value) → Prop} {sequence limit : Nat}

abbrev itemCursor (items : List (Item Key Value)) :
    Iterator (Place (Item Key Value)) (InternalKey Key) (Item Key Value) :=
  cursor (fun target item => decide (target ≤ item.key)) items

omit [LinearOrder Key] in
theorem any_holds [DecidablePred wanted] {saved : Option Key} :
    (saved.any fun key => decide (wanted key)) = true ↔ ∃ key ∈ saved, wanted key := by
  cases saved <;> simp

section

variable {before after : List (Item Key Value)}

omit [LinearOrder Key] in
theorem split_mem (whole : before.reverse ++ after = items) (item : Item Key Value) :
    item ∈ items ↔ item ∈ before ∨ item ∈ after := by
  rw [← whole, mem_append, mem_reverse]

theorem split_lt (sorted : Sorted items) (whole : before.reverse ++ after = items)
    (leftMember : left ∈ before) (rightMember : right ∈ after) :
    left.key < right.key := by
  rw [← whole] at sorted
  exact (pairwise_append.mp sorted).2.2 left (mem_reverse.mpr leftMember) right rightMember

section

variable (sorted : Sorted items)
include sorted

theorem split_first (whole : before.reverse ++ item :: after = items) (mem : other ∈ after) :
    item.key < other.key := by
  rw [← whole] at sorted
  exact (pairwise_cons.mp (pairwise_append.mp sorted).2.1).1 other mem

/-- Beyond the first item that a key reaches, all are reached. -/
theorem dropWhile_reached
    (mem : item ∈ items.dropWhile fun item => !decide (key ≤ item.key)) : key ≤ item.key := by
  induction items with
  | nil => cases mem
  | cons first rest ih =>
    obtain ⟨before, later⟩ := pairwise_cons.mp sorted
    by_cases reached : key ≤ first.key
    · rw [dropWhile_cons_of_neg (by simpa using reached)] at mem
      cases mem_cons.mp mem with
      | inl same => exact same ▸ reached
      | inr inRest => exact reached.trans (before item inRest).le
    · rw [dropWhile_cons_of_pos (by simpa using reached)] at mem
      exact ih later mem

theorem split_nearest (whole : (item :: before).reverse ++ after = items) (mem : other ∈ before) :
    other.key < item.key := by
  rw [← whole, reverse_cons, append_assoc] at sorted
  exact (pairwise_append.mp sorted).2.2 other (mem_reverse.mpr mem) item
    (.head _)

/-- When the nearest item before a place has a smaller user key, all before it have. -/
theorem before_of_head (whole : before.reverse ++ after = items)
    (head : ∀ item ∈ before.head?, item.key.userKey < key) :
    ∀ item ∈ before, item.key.userKey < key := by
  intro item mem
  cases before with
  | nil => cases mem
  | cons nearest before =>
    have less := head nearest rfl
    cases mem_cons.mp mem with
    | inl same => exact same ▸ less
    | inr earlier => exact (userKey_mono (split_nearest sorted whole earlier).le).trans_lt less

end

end

section

/-- The state of a forward search for a user key within the bound. -/
structure Scanning (items : List (Item Key Value)) (sequence : Nat) (bound : Key → Prop)
    (before rest : List (Item Key Value)) (skip : Option Key) : Prop where
  whole : before.reverse ++ rest = items
  passed : ∀ item ∈ before, item.key.sequence ≤ sequence → bound item.key.userKey →
    ∃ key ∈ skip, item.key.userKey ≤ key
  hidden : ∀ key ∈ skip, ∀ userKey ≤ key, bound userKey → view items userKey sequence = none
  ahead : ∀ item ∈ rest, item.key.sequence ≤ sequence →
    (∀ key ∈ skip, key ≤ item.key.userKey) ∧
      (bound item.key.userKey ∨ ∃ key ∈ skip, item.key.userKey ≤ key)

variable {bound : Key → Prop} {before rest : List (Item Key Value)} {skip : Option Key}

/-- What there is to show lies ahead. -/
theorem scanning_newest (scanning : Scanning items sequence bound before rest skip)
    (within : bound userKey)
    (seen : view items userKey sequence = some value) :
    ∃ item ∈ rest, newest items userKey sequence = some item ∧ item.key.type = .value ∧
      item.key.userKey = userKey := by
  obtain ⟨item, found, isValue, _⟩ := view_member seen
  obtain ⟨mem, ⟨rfl, visible⟩, _⟩ := newest_some found
  refine ⟨item, ?_, found, isValue, rfl⟩
  cases (split_mem scanning.whole item).mp mem with
  | inl earlier =>
    obtain ⟨key, isSkip, below⟩ := scanning.passed item earlier visible within
    rw [scanning.hidden key isSkip _ below within] at seen
    cases seen
  | inr later => exact later

variable {item : Item Key Value}

theorem scanning_pass (scanning : Scanning items sequence bound before (item :: rest) skip)
    (unseen : item.key.sequence ≤ sequence → ∃ key ∈ skip, item.key.userKey ≤ key) :
    Scanning items sequence bound (item :: before) rest skip := by
  constructor
  · rw [reverse_cons, append_assoc]
    exact scanning.whole
  · intro other mem visible within
    cases mem_cons.mp mem with
    | inl same => exact same ▸ unseen (same ▸ visible)
    | inr earlier => exact scanning.passed other earlier visible within
  · exact scanning.hidden
  · intro other mem
    exact scanning.ahead other (.tail _ mem)

section

variable (sorted : Sorted items)
  (scanning : Scanning items sequence bound before (item :: rest) skip)
  (visible : item.key.sequence ≤ sequence)
include sorted scanning visible

theorem scanning_deletion (deletion : item.key.type = .deletion) :
    Scanning items sequence bound (item :: before) rest (some item.key.userKey) := by
  constructor
  · rw [reverse_cons, append_assoc]
    exact scanning.whole
  · intro other mem _ _
    refine ⟨_, rfl, ?_⟩
    cases mem_cons.mp mem with
    | inl same => rw [same]
    | inr earlier => exact userKey_mono (split_lt sorted scanning.whole earlier (.head _)).le
  · rintro _ ⟨⟩ userKey below within
    cases seen : view items userKey sequence with
    | none => rfl
    | some value =>
      obtain ⟨other, inRest, found, isValue, rfl⟩ := scanning_newest scanning within seen
      obtain ⟨_, _, least⟩ := newest_some found
      cases mem_cons.mp inRest with
      | inl same =>
        rw [same, deletion] at isValue
        cases isValue
      | inr later =>
        -- A later item of the same user key is not the newest.
        have less := split_first sorted scanning.whole later
        have same := le_antisymm below (userKey_mono less.le)
        have mem := (split_mem scanning.whole item).mpr (.inr (.head _))
        exact absurd less (not_lt.mpr (least item mem same.symm visible))
  · intro other mem otherVisible
    have less := split_first sorted scanning.whole mem
    constructor
    · rintro _ ⟨⟩
      exact userKey_mono less.le
    · cases (scanning.ahead other (.tail _ mem) otherVisible).2 with
      | inl within => exact .inl within
      | inr hidden =>
        obtain ⟨key, isSkip, below⟩ := hidden
        have order := (scanning.ahead item (.head _) visible).1 key isSkip
        exact .inr ⟨_, rfl, below.trans order⟩

/-- A visible value that is not hidden is the first entry to show. -/
theorem scanning_value (open_ : ∀ key ∈ skip, ¬ item.key.userKey ≤ key) :
    newest items item.key.userKey sequence = some item ∧ bound item.key.userKey ∧
      ∀ userKey value, bound userKey → view items userKey sequence = some value →
        item.key.userKey ≤ userKey := by
  have within : bound item.key.userKey := by
    cases (scanning.ahead item (.head _) visible).2 with
    | inl inside => exact inside
    | inr hidden =>
      obtain ⟨key, isSkip, below⟩ := hidden
      exact absurd below (open_ key isSkip)
  refine ⟨?_, within, ?_⟩
  · apply newest_eq (sorted_distinct sorted)
      ((split_mem scanning.whole item).mpr (.inr (.head _))) rfl visible
    intro other mem same otherVisible
    cases (split_mem scanning.whole other).mp mem with
    | inl earlier =>
      obtain ⟨key, isSkip, below⟩ := scanning.passed other earlier otherVisible (same ▸ within)
      exact absurd (same ▸ below) (open_ key isSkip)
    | inr inRest =>
      cases mem_cons.mp inRest with
      | inl equal => rw [equal]
      | inr later => exact (split_first sorted scanning.whole later).le
  · intro userKey value inside seen
    obtain ⟨other, inRest, _, _, rfl⟩ := scanning_newest scanning inside seen
    cases mem_cons.mp inRest with
    | inl equal => rw [equal]
    | inr later => exact userKey_mono (split_first sorted scanning.whole later).le

end

section

variable (items : List (Item Key Value)) (shows : State → Place (Item Key Value) → Prop)
  (sequence : Nat)

/-- The inner iterator stands on the entry to show. -/
def Stands (iter : State) (item : Item Key Value) : Prop :=
  ∃ before after, shows iter (.here before item after) ∧
    before.reverse ++ item :: after = items ∧
    newest items item.key.userKey sequence = some item ∧ item.key.type = .value

/-- What a forward search ends with: the first entry within the bound, or nothing. -/
def Arrives (bound : Key → Prop) (found : State × Bool) : Prop :=
  (found.2 = true ∧ ∃ item, Stands items shows sequence found.1 item ∧ bound item.key.userKey ∧
      ∀ userKey value, bound userKey → view items userKey sequence = some value →
        item.key.userKey ≤ userKey) ∨
    found.2 = false ∧ (∃ place, shows found.1 place) ∧
      ∀ userKey value, bound userKey → view items userKey sequence ≠ some value

end

theorem findNextUserEntry_arrives (sorted : Sorted items)
    (simulates : Simulates inner (itemCursor items) shows) {iter : State}
    (shown : shows iter (.resume before rest))
    (scanning : Scanning items sequence bound before rest skip) (enough : rest.length < limit) :
    Arrives items shows sequence bound (findNextUserEntry inner sequence limit iter skip) := by
  induction limit generalizing iter before rest skip with
  | zero => cases enough
  | succ limit ih =>
    have current : inner.entry iter = rest.head? :=
      (simulates.entry _ _ shown).trans (resume_entry before rest)
    rw [findNextUserEntry, current]
    cases rest with
    | nil =>
      refine .inr ⟨rfl, ⟨_, shown⟩, ?_⟩
      intro userKey _ within seen
      obtain ⟨item, none, _⟩ := scanning_newest scanning within seen
      cases none
    | cons item rest =>
      have moved : shows (inner.next iter) (.resume (item :: before) rest) :=
        simulates.next _ _ shown rfl
      have fewer : rest.length < limit := by
        rw [length_cons] at enough
        omega
      simp only [head?_cons]
      split
      · rename_i visible
        split
        · rename_i deletion
          exact ih moved (scanning_deletion sorted scanning visible deletion) fewer
        · rename_i isValue
          split
          · rename_i covered
            exact ih moved
              (scanning_pass scanning fun _ => any_holds.mp covered) fewer
          · rename_i open_
            have notHidden : ∀ key ∈ skip, ¬ item.key.userKey ≤ key := fun key isSkip below =>
              open_ (any_holds.mpr ⟨key, isSkip, below⟩)
            obtain ⟨found, within, least⟩ := scanning_value sorted scanning visible notHidden
            exact .inl ⟨rfl, item, ⟨before, rest, shown, scanning.whole, found, isValue⟩, within,
              least⟩
      · rename_i invisible
        exact ih moved
          (scanning_pass scanning fun visible => absurd visible invisible) fewer

end

section

/-- The state of a backward search for a user key within the bound. With a value saved, it
is the last visible entry passed; without one, what there is to show lies before. -/
structure Returning (items : List (Item Key Value)) (sequence : Nat) (bound : Key → Prop)
    (back ahead : List (Item Key Value)) (scan : PrevScan State Key Value) : Prop where
  whole : back.reverse ++ ahead = items
  within : ∀ item ∈ back, item.key.sequence ≤ sequence → bound item.key.userKey
  progress : (scan.valueType = .deletion ∧
      ∀ userKey value, bound userKey → view items userKey sequence = some value →
        ∃ item ∈ back, newest items userKey sequence = some item) ∨
    scan.valueType = .value ∧ ∃ item ∈ ahead, scan.savedKey = some item.key.userKey ∧
      scan.savedValue = some item.value ∧ item.key.type = .value ∧
      item.key.sequence ≤ sequence ∧ bound item.key.userKey ∧
      (∀ other ∈ ahead, other.key.sequence ≤ sequence → item.key ≤ other.key) ∧
      ∀ userKey value, bound userKey → view items userKey sequence = some value →
        userKey ≤ item.key.userKey

variable {bound : Key → Prop} {back ahead : List (Item Key Value)}
  {scan : PrevScan State Key Value}

section

variable (items : List (Item Key Value)) (shows : State → Place (Item Key Value) → Prop)
  (sequence : Nat)

/-- The entry that is shown backward: saved, with the inner iterator before everything
visible of its user key. -/
structure Saved (scan : PrevScan State Key Value) (key : Key) (value : Value) : Prop where
  savedKey : scan.savedKey = some key
  savedValue : scan.savedValue = some value
  seen : view items key sequence = some value
  place : ∃ back ahead, shows scan.iter (.retreat ahead back) ∧ back.reverse ++ ahead = items ∧
    (∀ item ∈ back.head?, item.key.userKey < key) ∧
    ∀ item ∈ ahead, item.key.sequence ≤ sequence → key ≤ item.key.userKey

/-- What a backward search ends with: the last entry within the bound, or nothing. -/
def Returned (bound : Key → Prop) (scan : PrevScan State Key Value) : Prop :=
  (scan.valueType = .value ∧ ∃ key value, Saved items shows sequence scan key value ∧ bound key ∧
      ∀ userKey value, bound userKey → view items userKey sequence = some value →
        userKey ≤ key) ∨
    scan.valueType = .deletion ∧ (∃ place, shows scan.iter place) ∧
      ∀ userKey value, bound userKey → view items userKey sequence ≠ some value

end

variable {item : Item Key Value} {iter : State}

theorem returning_pass (returning : Returning items sequence bound (item :: back) ahead scan)
    (invisible : ¬ item.key.sequence ≤ sequence) :
    Returning items sequence bound back (item :: ahead) { scan with iter := iter } := by
  constructor
  · have whole := returning.whole
    rwa [reverse_cons, append_assoc] at whole
  · intro other mem
    exact returning.within other (.tail _ mem)
  · cases returning.progress with
    | inl nothing =>
      refine .inl ⟨nothing.1, ?_⟩
      intro userKey value inside seen
      obtain ⟨other, mem, found⟩ := nothing.2 userKey value inside seen
      refine ⟨other, ?_, found⟩
      cases mem_cons.mp mem with
      | inl same => exact absurd (same ▸ (newest_some found).2.1.2) invisible
      | inr earlier => exact earlier
    | inr something =>
      obtain ⟨isValue, saved, mem, key, value, type, visible, inside, least, greatest⟩ := something
      refine .inr ⟨isValue, saved, .tail _ mem, key, value, type, visible, inside, ?_, greatest⟩
      intro other otherMember otherVisible
      cases mem_cons.mp otherMember with
      | inl same => exact absurd (same ▸ otherVisible) invisible
      | inr later => exact least other later otherVisible

section

variable (sorted : Sorted items)
  (returning : Returning items sequence bound (item :: back) ahead scan)
  (visible : item.key.sequence ≤ sequence)
  (goesOn : ¬ (scan.valueType ≠ .deletion ∧ scan.savedKey.any fun key => decide (item.key.userKey < key)))
include sorted returning visible goesOn

/-- A visible item that does not end the search: nothing later than its user key remains,
and what there is to show is it or lies before it. -/
theorem returning_group (inside : bound userKey) (seen : view items userKey sequence = some value) :
    ∃ other ∈ item :: back, newest items userKey sequence = some other := by
  cases returning.progress with
  | inl nothing => exact nothing.2 userKey value inside seen
  | inr something =>
    obtain ⟨isValue, saved, mem, key, _, _, _, _, least, greatest⟩ := something
    have notBefore : ¬ item.key.userKey < saved.key.userKey := by
      intro less
      apply goesOn
      refine ⟨by rw [isValue]; decide, ?_⟩
      rw [key]
      exact decide_eq_true less
    have order := split_lt sorted returning.whole (.head _) mem
    have sameUser : item.key.userKey = saved.key.userKey :=
      le_antisymm (userKey_mono order.le) (not_lt.mp notBefore)
    obtain ⟨other, found, _⟩ := view_member seen
    obtain ⟨otherMember, ⟨rfl, otherVisible⟩, newestFirst⟩ := newest_some found
    refine ⟨other, ?_, found⟩
    cases (split_mem returning.whole other).mp otherMember with
    | inl earlier => exact earlier
    | inr later =>
      -- The item is newer than everything passed of its user key.
      have saves := least other later otherVisible
      have users : other.key.userKey = item.key.userKey := by
        rw [sameUser]
        exact le_antisymm (greatest _ _ inside seen) (userKey_mono saves)
      have itemMember := (split_mem returning.whole item).mpr (.inl (.head _))
      have contrary := newestFirst item itemMember users.symm visible
      exact absurd (order.trans_le saves) (not_lt.mpr contrary)

theorem returning_deletion (deletion : item.key.type = .deletion) :
    Returning items sequence bound back (item :: ahead) ⟨iter, .deletion, none, none⟩ := by
  constructor
  · have whole := returning.whole
    rwa [reverse_cons, append_assoc] at whole
  · intro other mem
    exact returning.within other (.tail _ mem)
  · refine .inl ⟨rfl, ?_⟩
    intro _ _ inside seen
    obtain ⟨other, mem, found⟩ := returning_group sorted returning visible goesOn inside seen
    refine ⟨other, ?_, found⟩
    cases mem_cons.mp mem with
    | inl same =>
      obtain ⟨_, foundToo, isValue, _⟩ := view_member seen
      rw [some.inj (found.symm.trans foundToo)] at same
      rw [same, deletion] at isValue
      cases isValue
    | inr earlier => exact earlier

theorem returning_value (isValue : item.key.type = .value) :
    Returning items sequence bound back (item :: ahead)
      ⟨iter, .value, some item.key.userKey, some item.value⟩ := by
  constructor
  · have whole := returning.whole
    rwa [reverse_cons, append_assoc] at whole
  · intro other mem
    exact returning.within other (.tail _ mem)
  · refine .inr ⟨rfl, item, (.head _), rfl, rfl, isValue, visible,
      returning.within item (.head _) visible, ?_, ?_⟩
    · intro other mem _
      cases mem_cons.mp mem with
      | inl same => rw [same]
      | inr later => exact (split_lt sorted returning.whole (.head _) later).le
    · intro userKey value inside seen
      obtain ⟨other, mem, found⟩ := returning_group sorted returning visible goesOn inside seen
      obtain ⟨_, ⟨rfl, _⟩, _⟩ := newest_some found
      cases mem_cons.mp mem with
      | inl same => rw [same]
      | inr earlier => exact userKey_mono (split_nearest sorted returning.whole earlier).le

end

/-- A search that stops before an item of an earlier user key, or at the beginning, has
saved the last entry within the bound. -/
theorem returning_stop (sorted : Sorted items) (returning : Returning items sequence bound back ahead scan)
    (shown : shows scan.iter (.retreat ahead back)) (isValue : scan.valueType = .value)
    (passed : ∀ key ∈ scan.savedKey, ∀ item ∈ back, item.key.userKey < key) :
    Returned items shows sequence bound scan := by
  cases returning.progress with
  | inl nothing =>
    rw [isValue] at nothing
    cases nothing.1
  | inr something =>
    obtain ⟨_, saved, mem, key, value, type, visible, inside, least, greatest⟩ := something
    have earlier := passed _ key
    have found : newest items saved.key.userKey sequence = some saved := by
      apply newest_eq (sorted_distinct sorted)
        ((split_mem returning.whole saved).mpr (.inr mem)) rfl visible
      intro other otherMember same otherVisible
      cases (split_mem returning.whole other).mp otherMember with
      | inl before => exact absurd same (earlier other before).ne
      | inr later => exact least other later otherVisible
    refine .inl ⟨isValue, saved.key.userKey, saved.value, ⟨key, value, ?_, back, ahead, shown,
      returning.whole, ?_, ?_⟩, inside, greatest⟩
    · rw [view, found]
      simp [Item.content, type]
    · intro item isHead
      exact earlier item (mem_of_mem_head? isHead)
    · intro item inAhead itemVisible
      exact userKey_mono (least item inAhead itemVisible)

theorem findPrevLoop_returned (sorted : Sorted items)
    (simulates : Simulates inner (itemCursor items) shows)
    (shown : shows scan.iter (.retreat ahead back))
    (returning : Returning items sequence bound back ahead scan) (enough : back.length < limit) :
    Returned items shows sequence bound (findPrevLoop inner sequence limit scan) := by
  induction limit generalizing back ahead scan with
  | zero => cases enough
  | succ limit ih =>
    have current : inner.entry scan.iter = back.head? :=
      (simulates.entry _ _ shown).trans (retreat_entry back ahead)
    rw [findPrevLoop, current]
    cases back with
    | nil =>
      cases type : scan.valueType with
      | deletion =>
        refine .inr ⟨type, ⟨_, shown⟩, ?_⟩
        intro userKey value inside seen
        cases returning.progress with
        | inl nothing =>
          obtain ⟨item, none, _⟩ := nothing.2 userKey value inside seen
          cases none
        | inr something =>
          rw [type] at something
          cases something.1
      | value =>
        apply returning_stop sorted returning shown type
        intro key _ item none
        cases none
    | cons item back =>
      have moved : shows (inner.prev scan.iter) (.retreat (item :: ahead) back) :=
        simulates.prev _ _ shown rfl
      have fewer : back.length < limit := by
        rw [length_cons] at enough
        omega
      simp only [head?_cons]
      split
      · rename_i visible
        split
        · rename_i stops
          obtain ⟨notDeletion, before⟩ := stops
          have isValue : scan.valueType = .value := by
            cases type : scan.valueType with
            | deletion => exact absurd type notDeletion
            | value => rfl
          apply returning_stop sorted returning shown isValue
          intro key isSaved _ mem
          obtain ⟨_, isKey, less⟩ := any_holds.mp before
          obtain rfl := some.inj (isKey.symm.trans isSaved)
          cases mem_cons.mp mem with
          | inl same => exact same ▸ less
          | inr earlier =>
            exact (userKey_mono (split_nearest sorted returning.whole earlier).le).trans_lt less
        · rename_i goesOn
          split
          · rename_i deletion
            exact ih moved
              (returning_deletion sorted returning visible goesOn deletion) fewer
          · rename_i isValue
            exact ih moved
              (returning_value sorted returning visible goesOn isValue) fewer
      · rename_i invisible
        exact ih moved (returning_pass returning invisible) fewer

end

section

/-- Where `DBIter` can be between calls. -/
inductive Positioned (items : List (Item Key Value))
    (shows : State → Place (Item Key Value) → Prop) (sequence : Nat)
    (it : DbIter State Key Value) : Prop where
  | off (invalid : it.valid = false) (place : Place (Item Key Value)) (shown : shows it.iter place)
  | forward (valid : it.valid = true) (direction : it.direction = .forward)
      (item : Item Key Value) (stands : Stands items shows sequence it.iter item)
  | reverse (valid : it.valid = true) (direction : it.direction = .reverse) (key : Key)
      (value : Value)
      (saved : Saved items shows sequence ⟨it.iter, .value, it.savedKey, it.savedValue⟩ key value)

variable {it : DbIter State Key Value}

theorem positioned_shows (positioned : Positioned items shows sequence it) :
    ∃ place, shows it.iter place := by
  cases positioned with
  | off _ place shown => exact ⟨place, shown⟩
  | forward _ _ item stands =>
    obtain ⟨_, _, shown, _⟩ := stands
    exact ⟨_, shown⟩
  | reverse _ _ key value saved =>
    obtain ⟨_, _, shown, _⟩ := saved.place
    exact ⟨_, shown⟩

theorem stands_entry (simulates : Simulates inner (itemCursor items) shows) {iter : State}
    (stands : Stands items shows sequence iter item) : inner.entry iter = some item := by
  obtain ⟨_, _, shown, _⟩ := stands
  exact simulates.entry _ _ shown

theorem stands_view {iter : State} (stands : Stands items shows sequence iter item) :
    view items item.key.userKey sequence = some item.value := by
  obtain ⟨_, _, _, _, found, isValue⟩ := stands
  rw [view, found]
  simp [Item.content, isValue]

theorem arrives_entry (sorted : Sorted items) (simulates : Simulates inner (itemCursor items) shows)
    {bound : Key → Prop} [DecidablePred bound] (arrives : Arrives items shows sequence bound found)
    (iter : it.iter = found.1) (valid : it.valid = found.2) (direction : it.direction = .forward) :
    Positioned items shows sequence it ∧ it.entry inner =
      (snapshotEntries items sequence).find? fun entry => decide (bound entry.1) := by
  cases arrives with
  | inl arrived =>
    obtain ⟨isFound, item, stands, within, least⟩ := arrived
    rw [← iter] at stands
    refine ⟨.forward (valid.trans isFound) direction item stands, ?_⟩
    have shown : it.entry inner = some (item.key.userKey, item.value) := by
      simp [entry, valid, isFound, direction, stands_entry simulates stands]
    rw [shown]
    refine (find_least (snapshotEntries_ordered sorted)
      (snapshotEntries_mem.mpr (stands_view stands)) (decide_eq_true within) ?_).symm
    rintro ⟨userKey, value⟩ mem inside
    exact least userKey value (of_decide_eq_true inside) (snapshotEntries_mem.mp mem)
  | inr missed =>
    obtain ⟨notFound, ⟨place, shown⟩, nothing⟩ := missed
    refine ⟨.off (valid.trans notFound) place (iter ▸ shown), ?_⟩
    have none : it.entry inner = none := by simp [entry, valid, notFound]
    rw [none, eq_comm, find?_eq_none]
    rintro ⟨userKey, value⟩ mem inside
    exact nothing userKey value (of_decide_eq_true inside) (snapshotEntries_mem.mp mem)

theorem returned_entry (sorted : Sorted items) (bound : Key → Prop) [DecidablePred bound]
    (direction : it.direction = .reverse)
    (returned : Returned items shows sequence bound (findPrevLoop inner sequence limit
      { it with valueType := .deletion })) :
    Positioned items shows sequence (it.findPrevUserEntry inner sequence limit) ∧
      (it.findPrevUserEntry inner sequence limit).entry inner =
        (snapshotEntries items sequence).reverse.find? fun entry => decide (bound entry.1) := by
  rw [DbIter.findPrevUserEntry]
  generalize findPrevLoop inner sequence limit
    { it with valueType := .deletion } = scan at returned ⊢
  cases returned with
  | inl arrived =>
    obtain ⟨isValue, key, value, saved, within, greatest⟩ := arrived
    simp only [isValue]
    constructor
    · exact .reverse rfl direction key value
        { saved with }
    · have shown : entry inner
          { scan with direction := it.direction, valid := true } = some (key, value) := by
        simp [entry, direction, saved.savedKey, saved.savedValue]
      rw [shown]
      refine (find_greatest (snapshotEntries_ordered sorted)
        (snapshotEntries_mem.mpr saved.seen) (decide_eq_true within) ?_).symm
      rintro ⟨userKey, other⟩ mem inside
      exact greatest userKey other (of_decide_eq_true inside) (snapshotEntries_mem.mp mem)
  | inr missed =>
    obtain ⟨deletion, ⟨place, shown⟩, nothing⟩ := missed
    simp only [deletion]
    constructor
    · exact .off rfl place shown
    · have none : entry inner
          (⟨scan.iter, none, none, .forward, false⟩ : DbIter State Key Value) = none := rfl
      rw [none, eq_comm, find?_eq_none]
      rintro ⟨userKey, value⟩ mem inside
      exact nothing userKey value (of_decide_eq_true inside)
        (snapshotEntries_mem.mp (mem_reverse.mp mem))

end

section

variable {it : DbIter State Key Value}

/-- The state is positioned and shows the entry. -/
def Presents (inner : Iterator State (InternalKey Key) (Item Key Value))
    (items : List (Item Key Value)) (shows : State → Place (Item Key Value) → Prop)
    (sequence : Nat) (it : DbIter State Key Value) (entry : Option (Key × Value)) : Prop :=
  Positioned items shows sequence it ∧ it.entry inner = entry

variable {iter : State}

theorem findNextUserEntry_invalid (invalid : ¬ (inner.entry iter).isSome) (skip : Option Key) :
    findNextUserEntry inner sequence limit iter skip = (iter, false) := by
  rw [not_isSome_iff_eq_none] at invalid
  cases limit with
  | zero => rfl
  | succ limit => rw [findNextUserEntry, invalid]

omit [LinearOrder Key] in
theorem split_length {before after : List (Item Key Value)}
    (whole : before.reverse ++ after = items) : before.length ≤ items.length ∧
      after.length ≤ items.length := by
  rw [← whole, length_append, length_reverse]
  omega

variable (sorted : Sorted items) (simulates : Simulates inner (itemCursor items) shows)

include sorted simulates

/-- The end of the operations that search forward. They do without the search when the
inner iterator has become invalid. -/
theorem search_presents [DecidablePred bound]
    (arrives : Arrives items shows sequence bound (findNextUserEntry inner sequence limit iter
      skip)) (stays : invalid.iter = iter)
    (ends : invalid.valid = false) (direction : invalid.direction = .forward) :
    Presents inner items shows sequence
      (if (inner.entry iter).isSome then it.scanForward inner sequence limit iter skip else invalid)
      ((snapshotEntries items sequence).find? fun entry => decide (bound entry.1)) := by
  by_cases valid : (inner.entry iter).isSome = true
  · rw [if_pos valid]
    exact arrives_entry sorted simulates arrives rfl rfl rfl
  · rw [findNextUserEntry_invalid valid] at arrives
    rw [if_neg valid]
    exact arrives_entry sorted simulates arrives stays ends direction

omit sorted in
/-- The loop that leaves a user key arrives at the nearest item before all of its items. -/
theorem leaveKey_shows {before after : List (Item Key Value)}
    (shown : shows iter (.here before item after))
    (whole : before.reverse ++ item :: after = items) (room : before.length < limit)
    (behind : ∀ other ∈ item :: after, key ≤ other.key.userKey) :
    ∃ back ahead, shows (leaveKey inner (some key) limit iter).1 (.retreat ahead back) ∧
      (leaveKey inner (some key) limit iter).2 = back.head?.isSome ∧
      back.reverse ++ ahead = items ∧ (∀ other ∈ back.head?, other.key.userKey < key) ∧
      ∀ other ∈ ahead, key ≤ other.key.userKey := by
  induction limit generalizing before item after iter with
  | zero => cases room
  | succ limit ih =>
    have moved : shows (inner.prev iter) (.retreat (item :: after) before) :=
      simulates.prev _ _ shown rfl
    have onNearest := (simulates.entry _ _ moved).trans (retreat_entry before (item :: after))
    simp only [leaveKey, onNearest]
    cases before with
    | nil =>
      refine ⟨[], item :: after, moved, rfl, whole, ?_, behind⟩
      intro other none
      cases none
    | cons nearest before =>
      simp only [head?_cons, Option.any_some]
      by_cases less : nearest.key.userKey < key
      · simp only [less, decide_true, if_true]
        refine ⟨nearest :: before, item :: after, moved, rfl, whole, ?_, behind⟩
        rintro _ ⟨⟩
        exact less
      · simp only [less, decide_false, Bool.false_eq_true, if_false]
        rw [length_cons] at room
        rw [reverse_cons, append_assoc] at whole
        apply ih moved whole (by omega)
        intro other mem
        cases mem_cons.mp mem with
        | inl same => exact same ▸ not_lt.mp less
        | inr later => exact behind other later

variable (enough : items.length < limit)

include enough

section

variable (positioned : Positioned items shows sequence it)
include positioned

theorem seekToFirst_presents :
    Presents inner items shows sequence (it.seekToFirst inner sequence limit)
      (snapshotEntries items sequence).head? := by
  obtain ⟨_, shown⟩ := positioned_shows positioned
  have moved : shows (inner.seekToFirst it.iter) (.resume [] items) :=
    simulates.seekToFirst _ _ shown
  have scanning : Scanning items sequence (fun _ => True) [] items none := by
    constructor
    · rfl
    · intro item none
      cases none
    · intro key none
      cases none
    · intro item _ _
      refine ⟨?_, .inl trivial⟩
      intro key none
      cases none
  have head : (snapshotEntries items sequence).head? =
      (snapshotEntries items sequence).find? fun _ => decide True := by
    cases snapshotEntries items sequence <;> rfl
  rw [head]
  exact search_presents sorted simulates
    (findNextUserEntry_arrives sorted simulates moved scanning enough) rfl rfl rfl

theorem seek_presents (target : Key) :
    Presents inner items shows sequence (it.seek inner sequence limit target)
      ((snapshotEntries items sequence).find? fun entry => decide (target ≤ entry.1)) := by
  obtain ⟨_, shown⟩ := positioned_shows positioned
  have moved := simulates.seek (lookupKey target sequence) _ _ shown
  let before := items.takeWhile fun item => !decide (lookupKey target sequence ≤ item.key)
  let after := items.dropWhile fun item => !decide (lookupKey target sequence ≤ item.key)
  have whole : before.reverse.reverse ++ after = items := by
    rw [reverse_reverse]
    exact takeWhile_append_dropWhile
  have reached : ∀ item ∈ after, lookupKey target sequence ≤ item.key := by
    intro item mem
    exact dropWhile_reached sorted mem
  have scanning : Scanning items sequence (fun userKey => target ≤ userKey) before.reverse after
      none := by
    constructor
    · exact whole
    · intro item mem visible inside
      have before := mem_takeWhile_imp (mem_reverse.mp mem)
      have key : lookupKey target sequence ≤ item.key := by
        rw [lookupKey_le]
        cases lt_or_eq_of_le inside with
        | inl less => exact .inl less
        | inr same => exact .inr ⟨same, visible⟩
      simp [key] at before
    · intro key none
      cases none
    · intro item mem _
      refine ⟨?_, .inl ?_⟩
      · intro key none
        cases none
      · cases (lookupKey_le _ _ _).mp (reached item mem) with
        | inl less => exact less.le
        | inr same => exact same.1.le
  have room := (split_length whole).2
  exact search_presents sorted simulates
    (findNextUserEntry_arrives sorted simulates moved scanning (room.trans_lt enough)) rfl rfl rfl

theorem seekToLast_presents :
    Presents inner items shows sequence (it.seekToLast inner sequence limit)
      (snapshotEntries items sequence).getLast? := by
  obtain ⟨_, shown⟩ := positioned_shows positioned
  have moved : shows (inner.seekToLast it.iter) (.retreat [] items.reverse) :=
    simulates.seekToLast _ _ shown
  have returning : Returning items sequence (fun _ => True) items.reverse []
      (⟨inner.seekToLast it.iter, .deletion, it.savedKey, none⟩ : PrevScan State Key Value) := by
    constructor
    · rw [reverse_reverse, append_nil]
    · intro item _ _
      trivial
    · refine .inl ⟨rfl, ?_⟩
      intro _ _ _ seen
      obtain ⟨item, found, _⟩ := view_member seen
      exact ⟨item, mem_reverse.mpr (newest_some found).1, found⟩
  have final : (snapshotEntries items sequence).getLast? =
      (snapshotEntries items sequence).reverse.find? fun _ => decide True := by
    rw [← head?_reverse]
    cases (snapshotEntries items sequence).reverse <;> rfl
  have room : items.reverse.length < limit := by rwa [length_reverse]
  rw [final]
  exact returned_entry sorted (fun _ => True) rfl
    (findPrevLoop_returned sorted simulates moved returning room)

end

theorem nextKey_presents {before rest : List (Item Key Value)}
    (whole : before.reverse ++ rest = items) (moved : shows iter (.resume before rest))
    (passed : ∀ item ∈ before, item.key.userKey ≤ key)
    (ahead : ∀ item ∈ rest, item.key.sequence ≤ sequence → key ≤ item.key.userKey) :
    Arrives items shows sequence (fun userKey => key < userKey)
      (findNextUserEntry inner sequence limit iter (some key)) := by
  have room := (split_length whole).2
  apply findNextUserEntry_arrives sorted simulates moved _ (room.trans_lt enough)
  constructor
  · exact whole
  · intro item mem _ beyond
    exact absurd beyond (not_lt.mpr (passed item mem))
  · rintro _ ⟨⟩ userKey below beyond
    exact absurd beyond (not_lt.mpr below)
  · intro item mem visible
    have order := ahead item mem visible
    constructor
    · rintro _ ⟨⟩
      exact order
    · cases lt_or_eq_of_le order with
      | inl less => exact .inl less
      | inr same => exact .inr ⟨key, rfl, same.ge⟩

variable {entry : Key × Value}

theorem prevKey_presents {back ahead : List (Item Key Value)}
    (direction : it.direction = .reverse) (whole : back.reverse ++ ahead = items)
    (shown : shows it.iter (.retreat ahead back)) (before : ∀ item ∈ back, item.key.userKey < key)
    (behind : ∀ item ∈ ahead, item.key.sequence ≤ sequence → key ≤ item.key.userKey) :
    Presents inner items shows sequence (it.findPrevUserEntry inner sequence limit)
      ((snapshotEntries items sequence).reverse.find? fun other => decide (other.1 < key)) := by
  have room := (split_length whole).1
  apply returned_entry sorted (fun userKey => userKey < key) direction
  refine findPrevLoop_returned sorted simulates shown ?_ (room.trans_lt enough)
  constructor
  · exact whole
  · intro item mem _
    exact before item mem
  · refine .inl ⟨rfl, ?_⟩
    intro userKey _ less seen
    obtain ⟨item, found, _⟩ := view_member seen
    obtain ⟨mem, ⟨rfl, visible⟩, _⟩ := newest_some found
    refine ⟨item, ?_, found⟩
    cases (split_mem whole item).mp mem with
    | inl earlier => exact earlier
    | inr later => exact absurd less (not_lt.mpr (behind item later visible))

section

variable (positioned : Positioned items shows sequence it) (current : it.entry inner = some entry)
include positioned current

theorem next_presents : Presents inner items shows sequence (it.next inner sequence limit)
      ((snapshotEntries items sequence).find? fun other => decide (entry.1 < other.1)) := by
  cases positioned with
  | off invalid place shown => simp [DbIter.entry, invalid] at current
  | forward valid direction item stands =>
    have onItem := stands_entry simulates stands
    obtain ⟨before, after, shown, whole, _⟩ := stands
    simp only [DbIter.entry, valid, direction, onItem, if_true, map_some, some.injEq] at current
    subst current
    have moved : shows (inner.next it.iter) (.resume (item :: before) after) :=
      simulates.next _ _ shown rfl
    have split : (item :: before).reverse ++ after = items := by
      rw [reverse_cons, append_assoc]
      exact whole
    have arrives : Arrives items shows sequence (fun userKey => item.key.userKey < userKey)
        (findNextUserEntry inner sequence limit (inner.next it.iter) (some item.key.userKey)) := by
      apply nextKey_presents sorted simulates enough split moved
      · intro other mem
        cases mem_cons.mp mem with
        | inl same => rw [same]
        | inr earlier => exact userKey_mono (split_lt sorted whole earlier (.head _)).le
      · intro other mem _
        exact userKey_mono (split_lt sorted split (.head _) mem).le
    simp only [DbIter.next, direction, onItem, map_some]
    exact search_presents sorted simulates arrives rfl rfl rfl
  | reverse valid direction key value saved =>
    obtain ⟨isKey, isValue, _, back, ahead, shown, whole, head, behind⟩ := saved
    simp only at isKey isValue shown
    simp only [DbIter.entry, valid, direction, isKey, isValue, if_true, bind_some,
      map_some, some.injEq] at current
    subst current
    have earlier := before_of_head sorted whole head
    -- The inner iterator stands before the entries of the key, or off the beginning.
    have onBack := (simulates.entry _ _ shown).trans (retreat_entry back ahead)
    have moved : shows (if (inner.entry it.iter).isSome then inner.next it.iter
        else inner.seekToFirst it.iter) (.resume back ahead) := by
      rw [onBack]
      cases back with
      | nil =>
        have first := simulates.seekToFirst _ _ shown
        rw [← whole] at first
        exact first
      | cons item back => exact simulates.next _ _ shown rfl
    have arrives := nextKey_presents sorted simulates enough whole moved
      (fun item mem => (earlier item mem).le) behind
    simp only [DbIter.next, direction, isKey]
    exact search_presents sorted simulates arrives rfl rfl rfl

theorem prev_presents : Presents inner items shows sequence (it.prev inner sequence limit)
      ((snapshotEntries items sequence).reverse.find? fun other => decide (other.1 < entry.1)) := by
  cases positioned with
  | off invalid place shown => simp [DbIter.entry, invalid] at current
  | forward valid direction item stands =>
    have onItem := stands_entry simulates stands
    obtain ⟨_, after, shown, whole, _⟩ := stands
    simp only [DbIter.entry, valid, direction, onItem, if_true, map_some, some.injEq] at current
    subst current
    have room := (split_length whole).1.trans_lt enough
    have onward : ∀ other ∈ item :: after, item.key.userKey ≤ other.key.userKey := by
      intro other mem
      cases mem_cons.mp mem with
      | inl same => rw [same]
      | inr later =>
        have ordered := (pairwise_append.mp (whole ▸ sorted)).2.1
        exact userKey_mono ((pairwise_cons.mp ordered).1 other later).le
    obtain ⟨back, ahead, left, found, split, head, behind⟩ :=
      leaveKey_shows simulates shown whole room onward
    have earlier := before_of_head sorted split head
    simp only [DbIter.prev, direction, onItem, map_some]
    cases back with
    | nil =>
      rw [found, head?_nil, isSome_none, if_neg Bool.false_ne_true]
      constructor
      · exact .off rfl _ left
      · symm
        apply find?_eq_none.mpr
        rintro ⟨userKey, value⟩ mem less
        have seen := snapshotEntries_mem.mp (mem_reverse.mp mem)
        obtain ⟨other, isNewest, _⟩ := view_member seen
        obtain ⟨inItems, ⟨rfl, _⟩, _⟩ := newest_some isNewest
        rw [← split] at inItems
        exact not_lt.mpr (behind other inItems) (of_decide_eq_true less)
    | cons nearest back =>
      rw [found, head?_cons, isSome_some, if_pos rfl]
      exact prevKey_presents sorted simulates enough rfl split left earlier
        fun other mem _ => behind other mem
  | reverse valid direction key value saved =>
    obtain ⟨isKey, isValue, seen, back, ahead, shown, whole, head, behind⟩ := saved
    simp only at isKey isValue shown
    simp only [DbIter.entry, valid, direction, isKey, isValue, if_true, bind_some,
      map_some, some.injEq] at current
    subst current
    simp only [DbIter.prev, direction]
    exact prevKey_presents sorted simulates enough direction whole shown
      (before_of_head sorted whole head) behind

end

/-- `DBIter` does what the cursor over the entries of its snapshot does. -/
theorem dbIterator_simulates :
    Simulates (dbIterator inner sequence limit)
      (cursor (fun target entry => decide (target ≤ entry.1)) (snapshotEntries items sequence))
      fun it place => Positioned items shows sequence it ∧
        place.Of (snapshotEntries items sequence) ∧ it.entry inner = place.entry := by
  apply simulates_ordered (snapshotEntries_ordered sorted)
  · intro it positioned
    exact seekToFirst_presents sorted simulates enough positioned
  · intro it positioned
    exact seekToLast_presents sorted simulates enough positioned
  · intro target it positioned
    exact seek_presents sorted simulates enough positioned target
  · intro it entry positioned current
    exact next_presents sorted simulates enough positioned current
  · intro it entry positioned current
    exact prev_presents sorted simulates enough positioned current

end

/-- Over any inner iterator that is a cursor over a sorted list of items, `DBIter` shows
after every sequence of calls what the cursor over the sorted map of its snapshot shows. A
call to move on is out of order for both at the same points. -/
theorem dbIter_cursor (inner : Iterator State (InternalKey Key) (Item Key Value))
    (items : List (Item Key Value)) (shows : State → Place (Item Key Value) → Prop)
    (sorted : Sorted items) (simulates : Simulates inner (itemCursor items) shows)
    (iter : State) (place : Place (Item Key Value)) (shown : shows iter place)
    (sequence limit : Nat) (enough : items.length < limit) (commands : List (Command Key)) :
    Option.Rel (fun it place => DbIter.entry inner it = place.entry)
      (Machine.run (dbIterator inner sequence limit).step (DbIter.start iter) commands)
      (Machine.run (cursor (fun target entry => decide (target ≤ entry.1))
        (snapshotEntries items sequence)).step .off commands) := by
  apply simulates_run (dbIterator_simulates sorted simulates enough)
  exact ⟨.off rfl place shown, trivial, rfl⟩

/-- A walk back and forth over a deleted key, a key with two versions and one that the
snapshot does not see. -/
theorem dbIter_cursor_back_and_forth :
    let items : List (Item Nat Nat) :=
      [⟨⟨1, 2, .value⟩, 10⟩, ⟨⟨1, 1, .value⟩, 11⟩, ⟨⟨2, 4, .deletion⟩, 0⟩, ⟨⟨2, 3, .value⟩, 20⟩,
        ⟨⟨3, 9, .value⟩, 30⟩, ⟨⟨4, 5, .value⟩, 40⟩]
    let run := Machine.run (dbIterator (itemCursor items) 5 7).step (DbIter.start .off)
      [.seek 2, .prev, .next, .prev]
    Option.Rel (fun it place => DbIter.entry (itemCursor items) it = place.entry) run
        (Machine.run (cursor (fun target entry => decide (target ≤ entry.1))
          (snapshotEntries items 5)).step .off [.seek 2, .prev, .next, .prev]) ∧
      (run.bind fun it => it.entry (itemCursor items)) = some (1, 10) := by
  refine ⟨?_, by decide⟩
  apply dbIter_cursor _ _ Eq _ (simulates_refl _) _ _ rfl
  · decide
  · rw [Sorted]
    decide

end CodeReading.Leveldb
