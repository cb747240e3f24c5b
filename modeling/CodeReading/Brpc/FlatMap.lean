import Mathlib.Algebra.Order.Ring.Int

/-!
# The flat map

`butil::FlatMap` is a hash table whose hash and comparison are parameters. Here it is the
list of its elements, and two keys are the same when both their hashes and the comparison
say so. The buckets could only confuse keys that compare equal with different hashes.

On a set of clean keys where being the same is to have the same canonical form, the map is
a function of the canonical form.
-/

namespace CodeReading.Brpc

open List

variable {Key Value : Type}

abbrev FlatMap (Key Value : Type) := List (Key × Value)

namespace FlatMap

section

variable (same : Key → Key → Bool)

def seek (map : FlatMap Key Value) (key : Key) : Option Value :=
  (map.find? fun element => same element.1 key).map Prod.snd

/-- An assignment to `operator[]`. An element that is there keeps its key. -/
def assign (key : Key) (value : Value) : FlatMap Key Value → FlatMap Key Value
  | [] => [(key, value)]
  | element :: map =>
      if same element.1 key then (element.1, value) :: map else element :: assign key value map

def erase (map : FlatMap Key Value) (key : Key) : FlatMap Key Value :=
  map.eraseP fun element => same element.1 key

end

section

variable {same : Key → Key → Bool} {Canonical : Type} {canonical : Key → Canonical}
  {clean : Key → Prop}

/-- Clean keys are the same when their canonical forms are. -/
def Agrees (same : Key → Key → Bool) (canonical : Key → Canonical) (clean : Key → Prop) : Prop :=
  ∀ left right, clean left → clean right → (same left right = true ↔ canonical left = canonical right)

/-- The keys of a map are clean and different. -/
structure Proper (canonical : Key → Canonical) (clean : Key → Prop)
    (map : FlatMap Key Value) : Prop where
  clean : ∀ element ∈ map, clean element.1
  distinct : map.Pairwise fun left right => canonical left.1 ≠ canonical right.1

variable {map : FlatMap Key Value}

theorem proper_nil : Proper canonical clean ([] : FlatMap Key Value) :=
  ⟨by simp, .nil⟩

theorem proper_tail (proper : Proper canonical clean (element :: map)) :
    Proper canonical clean map :=
  ⟨fun other mem => proper.clean other (.tail _ mem), proper.distinct.tail⟩

variable {key : Key}

theorem seek_cons : seek same (element :: map) key =
      if same element.1 key then some element.2 else seek same map key := by
  rw [seek, find?_cons]
  cases same element.1 key with
  | true | false => rfl

theorem erase_cons : erase same (element :: map) key =
      if same element.1 key then map else element :: erase same map key := by
  rw [erase, eraseP_cons]
  cases same element.1 key with
  | true | false => rfl

theorem assign_mem (mem : element ∈ assign same key value map) :
    element.1 = key ∨ ∃ other ∈ map, other.1 = element.1 := by
  induction map with
  | nil =>
    rw [assign, mem_singleton] at mem
    exact .inl (congrArg Prod.fst mem)
  | cons first map ih =>
    rw [assign] at mem
    split at mem
    · cases mem_cons.mp mem with
      | inl replaced => exact .inr ⟨first, (.head _), (congrArg Prod.fst replaced).symm⟩
      | inr later => exact .inr ⟨element, .tail _ later, rfl⟩
    · cases mem_cons.mp mem with
      | inl isFirst => exact .inr ⟨first, (.head _), (congrArg Prod.fst isFirst).symm⟩
      | inr later =>
        cases ih later with
        | inl isKey => exact .inl isKey
        | inr inMap =>
          obtain ⟨other, otherMember, sameKey⟩ := inMap
          exact .inr ⟨other, .tail _ otherMember, sameKey⟩

section

variable (agrees : Agrees same canonical clean) (proper : Proper canonical clean map)
  (cleanKey : clean key)
include agrees proper cleanKey

theorem assign_proper : Proper canonical clean (assign same key value map) := by
  constructor
  · intro element mem
    cases assign_mem mem with
    | inl isKey => exact isKey ▸ cleanKey
    | inr inMap =>
      obtain ⟨other, otherMember, sameKey⟩ := inMap
      exact sameKey ▸ proper.clean other otherMember
  · induction map with
    | nil => exact pairwise_singleton _ _
    | cons first map ih =>
      obtain ⟨before, rest⟩ := pairwise_cons.mp proper.distinct
      rw [assign]
      split
      · exact pairwise_cons.mpr ⟨before, rest⟩
      · rename_i differs
        refine pairwise_cons.mpr ⟨?_, ih (proper_tail proper)⟩
        intro element mem
        cases assign_mem mem with
        | inl isKey =>
          rw [isKey]
          intro equal
          exact differs ((agrees first.1 key (proper.clean first (.head _))
            cleanKey).mpr equal)
        | inr inMap =>
          obtain ⟨other, otherMember, sameKey⟩ := inMap
          exact sameKey ▸ before other otherMember

theorem seek_assign {other : Key} (cleanOther : clean other) [DecidableEq Canonical] :
    seek same (assign same key value map) other =
      if canonical key = canonical other then some value else seek same map other := by
  induction map with
  | nil =>
    rw [assign, seek_cons]
    simp [agrees key other cleanKey cleanOther]
  | cons first map ih =>
    have cleanFirst := proper.clean first (.head _)
    rw [assign]
    split
    · rename_i isKey
      rw [agrees first.1 key cleanFirst cleanKey] at isKey
      rw [seek_cons, seek_cons]
      simp only [agrees first.1 other cleanFirst cleanOther, isKey]
      split
      · rfl
      · rfl
    · rename_i differs
      rw [agrees first.1 key cleanFirst cleanKey] at differs
      rw [seek_cons, seek_cons, ih (proper_tail proper)]
      simp only [agrees first.1 other cleanFirst cleanOther]
      exact ite_ite_comm _ _ _ _ fun isFirst equal => differs (isFirst.trans equal.symm)

end

theorem erase_proper (proper : Proper canonical clean map) :
    Proper canonical clean (erase same map key) := by
  have sublist : (erase same map key).Sublist map := eraseP_sublist
  exact ⟨fun element mem => proper.clean element (sublist.subset mem),
    proper.distinct.sublist sublist⟩

section

variable (proper : Proper canonical clean map) (agrees : Agrees same canonical clean)
  (cleanKey : clean key)
include proper agrees cleanKey

/-- No element has the canonical form of one that stands before all of them. -/
theorem seek_none (absent : ∀ element ∈ map, canonical element.1 ≠ canonical key) :
    seek same map key = none := by
  rw [seek, Option.map_eq_none_iff, find?_eq_none]
  intro element mem isSame
  exact absent element mem ((agrees _ _ (proper.clean element mem) cleanKey).mp isSame)

theorem seek_erase {other : Key} (cleanOther : clean other) [DecidableEq Canonical] :
    seek same (erase same map key) other =
      if canonical key = canonical other then none else seek same map other := by
  induction map with
  | nil =>
    split
    · rfl
    · rfl
  | cons first map ih =>
    have cleanFirst := proper.clean first (.head _)
    obtain ⟨before, _⟩ := pairwise_cons.mp proper.distinct
    by_cases isKey : same first.1 key = true
    · rw [erase_cons, if_pos isKey, seek_cons]
      rw [agrees first.1 key cleanFirst cleanKey] at isKey
      simp only [agrees first.1 other cleanFirst cleanOther, isKey]
      split
      · rename_i isOther
        apply seek_none (proper_tail proper) agrees cleanOther
        intro element mem equal
        exact before element mem (isKey.trans (isOther.trans equal.symm))
      · rfl
    · rw [erase_cons, if_neg isKey, seek_cons, seek_cons, ih (proper_tail proper)]
      rw [agrees first.1 key cleanFirst cleanKey] at isKey
      simp only [agrees first.1 other cleanFirst cleanOther]
      exact ite_ite_comm _ _ _ _ fun isFirst equal => isKey (isFirst.trans equal.symm)

end

end

end FlatMap

end CodeReading.Brpc
