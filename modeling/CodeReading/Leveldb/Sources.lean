import CodeReading.Leveldb.Version

/-!
# Reading from sources in order of age

A point lookup asks one sorted source after the other and stops at the first that has an
entry of the user key. When every source is newer than those behind it, for each user
key, the answer is the newest entry that the snapshot sees in any of them. It then
depends only on which items there are, not on how they are spread over sources.
-/

namespace CodeReading.Leveldb

open List
open SaverState (ofNewest)

variable {Key Value : Type}

/-- The first answer, or the second when the first is that nothing was found. -/
def SaverState.orElse (first second : SaverState Value) : SaverState Value :=
  match first with
  | .notFound => second
  | state => state

@[simp] theorem orElse_notFound (state : SaverState Value) :
    state.orElse .notFound = state := by
  cases state <;> rfl

theorem orElse_assoc (first second third : SaverState Value) :
    (first.orElse second).orElse third = first.orElse (second.orElse third) := by
  cases first <;> rfl

theorem firstHit_cons (state : SaverState Value) (rest : List (SaverState Value)) :
    firstHit (state :: rest) = state.orElse (firstHit rest) := by
  cases state <;> rfl

@[simp] theorem firstHit_singleton (state : SaverState Value) : firstHit [state] = state := by
  cases state <;> rfl

theorem firstHit_append (left right : List (SaverState Value)) :
    firstHit (left ++ right) = (firstHit left).orElse (firstHit right) := by
  induction left with
  | nil => rfl
  | cons state rest ih => rw [cons_append, firstHit_cons, firstHit_cons, ih, orElse_assoc]

/-- What nothing was found in does not matter. -/
theorem firstHit_filter {Source : Type} (read : Source → SaverState Value) (asked : Source → Bool)
    (sources : List Source)
    (silent : ∀ source ∈ sources, asked source = false → read source = .notFound) :
    firstHit ((sources.filter asked).map read) = firstHit (sources.map read) := by
  induction sources with
  | nil => rfl
  | cons source rest ih =>
    have later := ih fun other mem => silent other (.tail _ mem)
    rw [filter_cons, map_cons, firstHit_cons]
    by_cases wanted : asked source = true
    · rw [if_pos wanted, map_cons, firstHit_cons, later]
    · rw [if_neg wanted, later, silent source mem_cons_self (Bool.eq_false_iff.mpr wanted)]
      rfl

theorem ofNewest_orElse (item : Item Key Value) (state : SaverState Value) :
    (ofNewest (some item)).orElse state = ofNewest (some item) := by
  cases type : item.key.type <;> simp [ofNewest, type, SaverState.orElse]

/-- For every user key the first source holds the newer entries. -/
def Newer (newer older : List (Item Key Value)) : Prop :=
  ∀ recent ∈ newer, ∀ old ∈ older, recent.key.userKey = old.key.userKey →
    old.key.sequence < recent.key.sequence

/-- Sources from the newest to the oldest. -/
def Layered (sources : List (List (Item Key Value))) : Prop := sources.Pairwise Newer

variable [LinearOrder Key]

theorem newest_congr (distinct : Distinct left)
    (same : ∀ item, item ∈ left ↔ item ∈ right) (userKey : Key) (sequence : Nat) :
    newest left userKey sequence = newest right userKey sequence := by
  cases found : newest right userKey sequence with
  | none =>
    rw [newest_none]
    intro item mem
    exact newest_none.mp found item ((same item).mp mem)
  | some item =>
    obtain ⟨mem, ⟨user, old⟩, least⟩ := newest_some found
    apply newest_eq distinct ((same item).mpr mem) user old
    intro other inside
    exact least other ((same other).mp inside)

variable {sources : List (List (Item Key Value))}

theorem newest_layer (distinct : Distinct (source ++ rest))
    (newer : Newer source rest) (userKey : Key) (sequence : Nat) :
    ofNewest (newest (source ++ rest) userKey sequence) =
      (ofNewest (newest source userKey sequence)).orElse
        (ofNewest (newest rest userKey sequence)) := by
  cases found : newest source userKey sequence with
  | some item =>
    obtain ⟨mem, ⟨user, old⟩, least⟩ := newest_some found
    have first : newest (source ++ rest) userKey sequence = some item := by
      apply newest_eq distinct (mem_append_left _ mem) user old
      intro other inside otherUser otherOld
      cases mem_append.mp inside with
      | inl own => exact least other own otherUser otherOld
      | inr later =>
        have same : item.key.userKey = other.key.userKey := user.trans otherUser.symm
        exact (lt_of_newer same (newer item mem other later same)).le
    rw [first, ofNewest_orElse]
  | none =>
    have silent := newest_none.mp found
    have behind : newest (source ++ rest) userKey sequence = newest rest userKey sequence := by
      cases foundRest : newest rest userKey sequence with
      | none =>
        rw [newest_none]
        intro item mem
        exact (mem_append.mp mem).elim (silent item) (newest_none.mp foundRest item)
      | some item =>
        obtain ⟨mem, ⟨user, old⟩, least⟩ := newest_some foundRest
        apply newest_eq distinct (mem_append_right _ mem) user old
        intro other inside otherUser otherOld
        cases mem_append.mp inside with
        | inl own => exact absurd ⟨otherUser, otherOld⟩ (silent other own)
        | inr later => exact least other later otherUser otherOld
    rw [behind]
    rfl

section

variable (layered : Layered sources) (sorted : ∀ source ∈ sources, Sorted source)
include layered sorted

theorem layered_distinct : Distinct sources.flatten := by
  induction sources with
  | nil => intro left mem; cases mem
  | cons source rest ih =>
    obtain ⟨before, later⟩ := pairwise_cons.mp layered
    have own := sorted_distinct (sorted source (.head _))
    have others := ih later fun other mem => sorted other (.tail _ mem)
    have crossing : ∀ recent ∈ source, ∀ old ∈ rest.flatten, recent.key ≠ old.key := by
      intro recent recentMember old oldMember same
      obtain ⟨other, inside, oldInside⟩ := mem_flatten.mp oldMember
      have less := before other inside recent recentMember old oldInside (by rw [same])
      rw [same] at less
      exact lt_irrefl _ less
    intro left leftMember right rightMember same
    rw [flatten_cons, mem_append] at leftMember rightMember
    cases leftMember with
    | inl leftOwn =>
      cases rightMember with
      | inl rightOwn => exact own left leftOwn right rightOwn same
      | inr rightLater => exact absurd same (crossing left leftOwn right rightLater)
    | inr leftLater =>
      cases rightMember with
      | inl rightOwn => exact absurd same.symm (crossing right rightOwn left leftLater)
      | inr rightLater => exact others left leftLater right rightLater same

theorem firstHit_newest (userKey : Key) (sequence : Nat) :
    firstHit (sources.map fun source => lookup source userKey sequence) =
      ofNewest (newest sources.flatten userKey sequence) := by
  induction sources with
  | nil => rfl
  | cons source rest ih =>
    have distinct := layered_distinct layered sorted
    obtain ⟨before, later⟩ := pairwise_cons.mp layered
    have newer : Newer source rest.flatten := by
      intro recent mem old oldMember
      obtain ⟨other, inside, oldInside⟩ := mem_flatten.mp oldMember
      exact before other inside recent mem old oldInside
    rw [map_cons, firstHit_cons, lookup_newest (sorted source mem_cons_self),
      ih later fun other mem => sorted other (.tail _ mem),
      flatten_cons, newest_layer distinct newer]

end

end CodeReading.Leveldb
