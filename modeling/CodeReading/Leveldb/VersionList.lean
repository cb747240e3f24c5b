import Mathlib.Algebra.Order.Ring.Int
import Mathlib.Data.List.Count
import Mathlib.Data.List.Perm.Basic

/-!
# A list of counted nodes

The version set links the versions that are in use. Each counts its references, and leaves
the list when the last one is released. As long as every release gives back a reference
that somebody holds, a node is in the list exactly as long as it has a holder.
-/

namespace CodeReading.Leveldb

open List

/-- A node of the list, with a name of its own. Its `int refs_` is the number of its holders
(`Counted`), taken to be below `2 ^ 31`. -/
structure Node (Payload : Type) where
  id : Nat
  payload : Payload
  refs : Nat

namespace Node

variable {Payload : Type}

def ref (id : Nat) (nodes : List (Node Payload)) : List (Node Payload) :=
  nodes.map fun node => if node.id = id then { node with refs := node.refs + 1 } else node

/-- `Unref`, which removes the node with its last reference. -/
def unref (id : Nat) (nodes : List (Node Payload)) : List (Node Payload) :=
  nodes.filterMap fun node =>
    if node.id = id then
      if node.refs = 1 then none else some { node with refs := node.refs - 1 }
    else some node

/-- The nodes count the references of the holders, and every node that is held is there. -/
structure Counted (nodes : List (Node Payload)) (holders : List Nat) : Prop where
  exact : ∀ node ∈ nodes, node.refs = holders.count node.id
  held : ∀ node ∈ nodes, node.id ∈ holders
  listed : ∀ id ∈ holders, ∃ node ∈ nodes, node.id = id

variable {nodes : List (Node Payload)} {holders : List Nat} {id : Nat}

/-- Every node has the name and the payload of one of the others. -/
def Copies (others nodes : List (Node Payload)) : Prop :=
  ∀ node ∈ nodes, ∃ old ∈ others, old.id = node.id ∧ old.payload = node.payload

theorem ref_copies : Copies nodes (ref id nodes) := by
  intro node mem
  obtain ⟨old, inside, rfl⟩ := mem_map.mp mem
  refine ⟨old, inside, ?_⟩
  split
  · exact ⟨rfl, rfl⟩
  · exact ⟨rfl, rfl⟩

theorem unref_copies : Copies nodes (unref id nodes) := by
  intro node mem
  obtain ⟨old, inside, kept⟩ := mem_filterMap.mp mem
  refine ⟨old, inside, ?_⟩
  split at kept
  · split at kept
    · cases kept
    · cases kept
      exact ⟨rfl, rfl⟩
  · cases kept
    exact ⟨rfl, rfl⟩

section

variable (counted : Counted nodes holders)
include counted

theorem counted_perm (perm : holders.Perm others) : Counted nodes others := by
  constructor
  · intro node mem
    rw [← perm.count_eq]
    exact counted.exact node mem
  · intro node mem
    exact perm.mem_iff.mp (counted.held node mem)
  · intro id mem
    exact counted.listed id (perm.mem_iff.mpr mem)

theorem ref_counted (mem : id ∈ holders) : Counted (ref id nodes) (id :: holders) := by
  constructor
  · intro node inside
    obtain ⟨old, oldInside, rfl⟩ := mem_map.mp inside
    have exact := counted.exact old oldInside
    by_cases same : old.id = id
    · rw [if_pos same, same, count_cons_self, ← same, exact]
    · rw [if_neg same, count_cons_of_ne (Ne.symm same), exact]
  · intro node inside
    obtain ⟨old, oldInside, sameId, _⟩ := ref_copies node inside
    exact .tail _ (sameId ▸ counted.held old oldInside)
  · intro other holds
    have held : other ∈ holders := by
      cases mem_cons.mp holds with
      | inl same => exact same ▸ mem
      | inr held => exact held
    obtain ⟨node, inside, rfl⟩ := counted.listed other held
    refine ⟨_, mem_map_of_mem inside, ?_⟩
    split
    · rfl
    · rfl

theorem unref_counted : Counted (unref id nodes) (holders.erase id) := by
  constructor
  · intro node inside
    obtain ⟨old, oldInside, kept⟩ := mem_filterMap.mp inside
    have exact := counted.exact old oldInside
    split at kept
    · rename_i same
      split at kept
      · cases kept
      · cases kept
        rw [← same, count_erase_self, exact]
    · rename_i different
      cases kept
      rw [count_erase_of_ne different, exact]
  · intro node inside
    obtain ⟨old, oldInside, kept⟩ := mem_filterMap.mp inside
    have exact := counted.exact old oldInside
    have held := counted.held old oldInside
    split at kept
    · rename_i same
      split at kept
      · cases kept
      · rename_i several
        cases kept
        have positive : 0 < holders.count old.id := count_pos_iff.mpr held
        apply count_pos_iff.mp
        rw [← same, count_erase_self]
        simp only
        omega
    · rename_i different
      cases kept
      exact (mem_erase_of_ne different).mpr held
  · intro other holds
    obtain ⟨node, inside, rfl⟩ := counted.listed other (mem_of_mem_erase holds)
    have exact := counted.exact node inside
    by_cases same : node.id = id
    · have several : node.refs ≠ 1 := by
        have positive := count_pos_iff.mpr holds
        rw [same, count_erase_self, ← same, ← exact] at positive
        omega
      exact ⟨{ node with refs := node.refs - 1 },
        mem_filterMap.mpr ⟨node, inside, by rw [if_pos same, if_neg several]⟩, rfl⟩
    · exact ⟨node, mem_filterMap.mpr ⟨node, inside, if_neg same⟩, rfl⟩

theorem release_counted (perm : holders.Perm (id :: others)) : Counted (unref id nodes) others := by
  have released : Counted (unref id nodes) ((id :: others).erase id) :=
    unref_counted (counted_perm counted perm)
  rw [erase_cons_head] at released
  exact released

theorem append_counted (fresh : ∀ node ∈ nodes, node.id ≠ id) (payload : Payload) :
    Counted (nodes ++ [⟨id, payload, 1⟩]) (id :: holders) := by
  have unheld : id ∉ holders := by
    intro held
    obtain ⟨node, inside, same⟩ := counted.listed id held
    exact fresh node inside same
  constructor
  · intro node inside
    cases mem_append.mp inside with
    | inl old =>
      rw [count_cons_of_ne (Ne.symm (fresh node old))]
      exact counted.exact node old
    | inr new => rw [mem_singleton.mp new, count_cons_self, count_eq_zero.mpr unheld]
  · intro node inside
    cases mem_append.mp inside with
    | inl old => exact .tail _ (counted.held node old)
    | inr new =>
      rw [mem_singleton.mp new]
      exact .head _
  · intro other holds
    cases mem_cons.mp holds with
    | inl same => exact ⟨_, mem_append_right _ (mem_singleton_self _), same.symm⟩
    | inr held =>
      obtain ⟨node, inside, isOther⟩ := counted.listed other held
      exact ⟨node, mem_append_left _ inside, isOther⟩

end

end Node

end CodeReading.Leveldb
