import Mathlib.Algebra.Order.Ring.Int

/-!
# Arrays of AMF fields

`AMFArray` keeps four fields inline and the others in a deque. A field is copied with all that it
holds, and cleared before it is assigned to. An assignment that shrinks an array counts its index up
while the size goes down, and stops halfway.
-/

namespace CodeReading.Brpc

open List Function

/-- `AMFField`: what the marker says of the union. An object is a map, an array as below; `other`
are the markers with nothing to hold. -/
inductive AMFField where
  | number (bits : UInt64)
  | bool (value : Bool)
  | string (long : Bool) (bytes : List UInt8)
  | object (ecma : Bool) (names : List (List UInt8)) (value : List UInt8 → AMFField)
  | array (size : Nat) (cell : Nat → AMFField) (more : Nat)
  | other (marker : UInt8)

namespace AMFField

/-- `AMF_MARKER_UNDEFINED`, which `SlowerClear` leaves and a new field has. -/
def undefined : AMFField := other 6

/-- The copy constructor. Strings, objects and arrays get storage of their own, the latter as in
the copy constructor of `AMFArray`. -/
def copy : AMFField → AMFField
  | number bits => number bits
  | bool value => bool value
  | string long bytes => string long bytes
  | object ecma names value => object ecma names fun name => (value name).copy
  | array size cell more =>
      array size
        (fun index => if min size 4 ≤ index ∧ index < 4 then undefined else (cell index).copy)
        (if size > 4 then more else 0)
  | other marker => other marker

/-- `operator=`, with nothing for a field that is assigned to itself: `Clear` comes first. -/
def assign : Option AMFField → AMFField
  | some rhs => rhs.copy
  | none => undefined.copy

end AMFField

/-- `AMFArray`. The cells are the inline fields below 4, and from there on the deque, which has
`more` of them. -/
structure AMFArray where
  size : Nat
  cell : Nat → AMFField
  more : Nat

namespace AMFArray

variable {array rhs : AMFArray}

/-- `AddField`, and what the caller sets the field to. -/
def addField (array : AMFArray) (field : AMFField) : AMFArray :=
  if array.size < 4 ∨ array.size - 4 < array.more then
    { array with size := array.size + 1, cell := update array.cell array.size field }
  else ⟨array.size + 1, update array.cell (4 + array.more) field, array.more + 1⟩

def elements (array : AMFArray) : List AMFField := (range array.size).map array.cell

/-- The deque has no spare fields. -/
def Packed (array : AMFArray) : Prop := array.more = array.size - 4

theorem addField_packed (packed : array.Packed) (field : AMFField) : (array.addField field).Packed ∧
    (array.addField field).elements = array.elements ++ [field] := by
  have isNext : array.addField field =
      ⟨array.size + 1, update array.cell array.size field, array.size + 1 - 4⟩ := by
    unfold Packed at packed
    unfold addField
    split <;> congr <;> omega
  rw [isNext]
  refine ⟨rfl, ?_⟩
  simp only [elements, range_succ, map_append, map_singleton, update_self]
  congr 1
  exact map_congr_left fun _ inside => update_of_ne (Nat.ne_of_lt (mem_range.mp inside)) _ _

/-- A field is cleared to the AMFField.undefined. -/
def removeLastField (array : AMFArray) : AMFArray :=
  if array.size = 0 then array
  else if array.size ≤ 4 then
    ⟨array.size - 1, update array.cell (array.size - 1) AMFField.undefined, array.more⟩
  else { array with size := array.size - 1, more := array.more - 1 }

def clear (array : AMFArray) : AMFArray :=
  ⟨0, fun index => if index < min array.size 4 then AMFField.undefined else array.cell index, 0⟩

/-- The copy constructor. -/
def copy (rhs : AMFArray) : AMFArray :=
  ⟨rhs.size, fun index =>
    if min rhs.size 4 ≤ index ∧ index < 4 then AMFField.undefined else (rhs.cell index).copy,
    if rhs.size > 4 then rhs.more else 0⟩

/-- The second loop of `operator=`. -/
def trim : Nat → Nat → AMFArray → AMFArray
  | 0, _, array => array
  | turns + 1, index, array =>
      if index < array.size then trim turns (index + 1) array.removeLastField else array

/-- `operator=`, with nothing for an array that is assigned to itself. -/
def assign (array : AMFArray) (source : Option AMFArray) : AMFArray :=
  let rhs := source.getD array
  if array.size < rhs.size then rhs.copy
  else
    trim array.size rhs.size ((range rhs.size).foldl (fun array index => { array with
      cell := update array.cell index (AMFField.assign (source.map fun rhs => rhs.cell index)) })
        array)

/-- The arrays that the calls make. -/
inductive Built : AMFArray → Prop
  | new : Built ⟨0, fun _ => AMFField.undefined, 0⟩
  | add {array : AMFArray} (field : AMFField) : Built array → Built (array.addField field)
  | removeLastField {array : AMFArray} : Built array → Built array.removeLastField
  | clear {array : AMFArray} : Built array → Built array.clear

theorem removeLastField_packed (packed : array.Packed) : array.removeLastField.Packed ∧
    array.removeLastField.size = array.size - 1 ∧
    ∀ index < array.size - 1, array.removeLastField.cell index = array.cell index := by
  unfold Packed at packed
  unfold removeLastField
  split
  · exact ⟨packed, by omega, fun _ _ => rfl⟩
  · split
    · exact ⟨show array.more = array.size - 1 - 4 by omega, rfl, fun index inside =>
        update_of_ne (Nat.ne_of_lt inside) _ _⟩
    · exact ⟨show array.more - 1 = array.size - 1 - 4 by omega, rfl, fun _ _ => rfl⟩

theorem Built.packed (built : Built array) : array.Packed := by
  induction built with
  | new | clear _ _ => rfl
  | add field _ ih => exact (addField_packed ih field).1
  | removeLastField _ ih => exact (removeLastField_packed ih).1

end AMFArray

end CodeReading.Brpc
