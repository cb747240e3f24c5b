import CodeReading.NetLink.Resumption

/-!
# Trees of elements

The bytes of a tree are its elements' own bytes in the order of a walk from the root. What
the constructors make is a tree whose elements fit, as long as no length reaches 2^32 - 1.
Reading it back needs more: that no map has 2^31 pairs, since its vector would be made of
twice as many elements in 32 bits, and that it is no higher than a 32-bit index of the
stack can tell.
-/

namespace CodeReading.NetLink.Element

open List UInt8 Nat Tag

mutual

def bytes : Element → Bytes
  | null => []
  | primitive type => [type]
  | number buffer => buffer
  | data _ header buffer => header ++ buffer.getD []
  | containerHeader _ header => header
  | container _ header elements => header ++ bytesAll elements

def bytesAll : List Element → Bytes
  | [] => []
  | element :: rest => element.bytes ++ bytesAll rest

end

mutual

def height : Element → Nat
  | null => 1
  | primitive _ => 1
  | number _ => 1
  | data _ _ _ => 1
  | containerHeader _ _ => 1
  | container _ _ elements => heightAll elements + 1

def heightAll : List Element → Nat
  | [] => 0
  | element :: rest => max element.height (heightAll rest)

end

theorem bytes_eq (element : Element) :
    element.bytes = element.own ++ bytesAll element.children := by
  cases element <;> simp [bytes, own, children, getElementsVector, bytesAll]

theorem bytesAll_append (first second : List Element) :
    bytesAll (first ++ second) = bytesAll first ++ bytesAll second := by
  induction first with
  | nil => rfl
  | cons element rest ih => rw [cons_append, bytesAll, bytesAll, ih, append_assoc]

theorem height_le_heightAll (mem : child ∈ elements) : child.height ≤ heightAll elements := by
  induction elements with
  | nil => exact absurd mem not_mem_nil
  | cons element rest ih =>
    rw [heightAll]
    cases mem_cons.mp mem with
    | inl same => exact same ▸ Nat.le_max_left _ _
    | inr later => exact Nat.le_trans (ih later) (Nat.le_max_right _ _)

variable {element : Element}

theorem child_height (mem : child ∈ element.children) : child.height < element.height := by
  cases element with
  | container kind header elements =>
    rw [height]
    exact lt_succ_of_le (height_le_heightAll mem)
  | _ => exact absurd mem not_mem_nil

/-- A condition on an element and on everything below it. -/
inductive Everywhere (condition : Element → Prop) : Element → Prop
  | intro (element : Element) (here : condition element)
      (under : ∀ child ∈ element.children, Everywhere condition child) :
      Everywhere condition element

theorem Everywhere.here (everywhere : Everywhere condition element) : condition element := by
  cases everywhere with
  | intro _ here _ => exact here

theorem Everywhere.child {condition : Element → Prop} {child : Element}
    (everywhere : Everywhere condition element) (mem : child ∈ element.children) :
    Everywhere condition child := by
  cases everywhere with
  | intro _ here under => exact under _ mem

theorem leaf_everywhere (here : condition element)
    (leaf : element.children = []) : Everywhere condition element :=
  .intro element here fun _ mem => absurd (leaf ▸ mem) not_mem_nil

/-- The size of the vector of a map with so many pairs fits 32 bits. -/
def FewPairs : Element → Prop
  | container .map header _ => ContainerKind.map.length header < 2 ^ 31
  | _ => True

/-- A tree that can be read back. -/
structure Portable (element : Element) : Prop where
  fits : Everywhere Fits element
  pairs : Everywhere FewPairs element
  height : element.height ≤ 2 ^ 32

theorem Portable.child {child : Element} (portable : element.Portable)
    (mem : child ∈ element.children) : child.Portable where
  fits := portable.fits.child mem
  pairs := portable.pairs.child mem
  height := Nat.le_trans (Nat.le_of_lt (child_height mem)) portable.height

theorem height_pos (element : Element) : 0 < element.height := by
  cases element <;> exact succ_pos _

theorem bytes_ne_nil (fits : element.Fits) : element.bytes ≠ [] := by
  rw [bytes_eq]
  exact append_ne_nil_of_left_ne_nil (ne_nil_of_length_pos fits.own_pos) _

section

/-- A length in the low bits of a tag that leaves room for it. -/
theorem shortTag (low high : UInt8) {length : Nat} (room : low.toNat + length < high.toNat) :
    (low ≤ low + length.toUInt8 ∧ low + length.toUInt8 < high) ∧
      (firstByte [low + length.toUInt8]).toNat - low.toNat = length := by
  have bound : high.toNat < 256 := toNat_lt high
  have code : (low + length.toUInt8).toNat = low.toNat + length := by
    rw [UInt8.toNat_add, UInt8.toNat_ofNat', mod_eq_of_lt (show length < 2 ^ 8 by omega),
      mod_eq_of_lt (by omega)]
  rw [le_iff_toNat_le, lt_iff_toNat_lt, firstByte, headD_cons, code]
  exact ⟨⟨Nat.le_add_right _ _, room⟩, Nat.add_sub_cancel_left _ _⟩

variable {type : UInt8}

theorem select_string (low : Tag.fixstr ≤ type) (high : type < Tag.nil) :
    select true type = data .string [] none := by
  simp only [select, Tag.fixmap, Tag.fixint, Tag.fixarray, Tag.fixstr, Tag.nil,
    le_iff_toNat_le, lt_iff_toNat_lt, reduceToNat] at low high ⊢
  rw [if_neg (by omega), if_neg (by omega), if_neg (by omega), if_pos high]

theorem select_array (low : fixarray ≤ type) (high : type < fixstr) :
    select true type = container .array [] [] := by
  simp only [select, fixmap, fixint, fixarray, fixstr,
    le_iff_toNat_le, lt_iff_toNat_lt, reduceToNat] at low high ⊢
  rw [if_neg (by omega), if_neg (by omega), if_pos high]
  rfl

theorem select_map (low : fixmap ≤ type) (high : type < fixarray) :
    select true type = container .map [] [] := by
  simp only [select, fixmap, fixint, fixarray,
    le_iff_toNat_le, lt_iff_toNat_lt, reduceToNat] at low high ⊢
  rw [if_neg (by omega), if_pos high]
  rfl

theorem select_number (short : type.toNat < 0x80 ∨ 0xE0 ≤ type.toNat) :
    select true type = number [] := by
  simp only [select, fixmap, fixint, le_iff_toNat_le, lt_iff_toNat_lt, reduceToNat]
  exact if_pos short

theorem ofBool_fits (value : Bool) : (ofBool value).Fits := by
  cases value <;> exact .primitive _ rfl

/-- Data of any length, where an empty one has no buffer. -/
theorem data_fits {header bytes : Bytes}
    (selected : select true (firstByte header) = data kind [] none)
    (headerLength : header.length = kind.headerLength (firstByte header))
    (starts : 0 < header.length) (length : kind.endPos header = bytes.length) :
    (data kind header (if 0 < bytes.length then some bytes else none)).Fits := by
  cases bytes with
  | nil =>
    exact .data kind header none selected headerLength starts length.symm
      ⟨fun _ => length, fun _ => rfl⟩
  | cons byte rest =>
    exact .data kind header (some (byte :: rest)) selected headerLength starts length.symm
      ⟨(nomatch ·), fun empty => absurd (length.symm.trans empty) (succ_ne_zero _)⟩

theorem binary_fits (content : Bytes) (small : content.length < 2 ^ 32) : (binary content).Fits := by
  unfold binary
  split
  · exact data_fits rfl rfl Nat.two_pos loadUint_storeUint
  · split
    · exact data_fits rfl rfl (succ_pos 2) loadUint_storeUint
    · exact data_fits rfl rfl (succ_pos 4) loadUint_storeUint

theorem string_fits (content : Bytes) (small : content.length < 2 ^ 32) : (string content).Fits := by
  unfold string
  split
  · obtain ⟨between, code⟩ := shortTag fixstr nil
      (show 160 + content.length < 192 by omega)
    exact data_fits (select_string between.1 between.2) (if_pos between).symm Nat.one_pos
      ((if_pos between).trans code)
  split
  · exact data_fits rfl rfl Nat.two_pos loadUint_storeUint
  split
  · exact data_fits rfl rfl (succ_pos 2) loadUint_storeUint
  · exact data_fits rfl rfl (succ_pos 4) loadUint_storeUint

/-- Extended data always has a buffer, for its type. -/
theorem typed_fits (selected : select true (firstByte header) = data .extended [] none)
    (headerLength : header.length = DataKind.extended.headerLength (firstByte header))
    (starts : 0 < header.length) (length : DataKind.extended.endPos header = content.length + 1) :
    (data .extended header (some (type :: content))).Fits :=
  .data .extended header _ selected headerLength starts length.symm
    ⟨(nomatch ·), fun empty => absurd (length.symm.trans empty) (succ_ne_zero _)⟩

theorem extended_fits (type : UInt8) (content : Bytes) (small : content.length < 2 ^ 32 - 1) :
    (extended type content).Fits := by
  unfold extended
  split
  · next one => exact typed_fits rfl rfl Nat.one_pos (by rw [one]; rfl)
  split
  · next two => exact typed_fits rfl rfl Nat.one_pos (by rw [two]; rfl)
  split
  · next four => exact typed_fits rfl rfl Nat.one_pos (by rw [four]; rfl)
  split
  · next eight => exact typed_fits rfl rfl Nat.one_pos (by rw [eight]; rfl)
  split
  · next sixteen => exact typed_fits rfl rfl Nat.one_pos (by rw [sixteen]; rfl)
  split
  · exact typed_fits rfl rfl Nat.two_pos
      (congrArg (· + 1) loadUint_storeUint)
  split
  · exact typed_fits rfl rfl (succ_pos 2)
      (congrArg (· + 1) loadUint_storeUint)
  · refine typed_fits rfl rfl (succ_pos 4)
      ((congrArg (fun length => (length + 1) % 2 ^ 32)
        loadUint_storeUint).trans (mod_eq_of_lt (by omega)))

/-- A number that is its own first byte. -/
theorem shortNumber_fits (short : type.toNat < 0x80 ∨ 0xE0 ≤ type.toNat) :
    (number [type]).Fits := by
  refine .number [type] (select_number short) (if_pos ?_).symm Nat.one_pos
  rw [lt_iff_toNat_lt, le_iff_toNat_le]
  exact short

theorem ofUint64_fits (value : Nat) : (ofUint64 value).Fits := by
  unfold ofUint64
  split
  · next short =>
    refine shortNumber_fits (.inl ?_)
    rw [toNat_ofNat']
    omega
  split
  · exact .number _ rfl rfl Nat.two_pos
  split
  · exact .number _ rfl rfl (succ_pos 2)
  split
  · exact .number _ rfl rfl (succ_pos 4)
  · exact .number _ rfl rfl (succ_pos 8)

theorem ofInt64_fits (value : Int) : (ofInt64 value).Fits := by
  unfold ofInt64
  split
  · next short =>
    refine shortNumber_fits ?_
    rw [toNat_ofNat']
    omega
  split
  · exact .number _ rfl rfl Nat.two_pos
  split
  · exact .number _ rfl rfl (succ_pos 2)
  split
  · exact .number _ rfl rfl (succ_pos 4)
  · exact .number _ rfl rfl (succ_pos 8)

theorem ofFloat_fits (bits : Nat) : (ofFloat bits).Fits := .number _ rfl rfl (succ_pos 4)

theorem ofDouble_fits (bits : Nat) : (ofDouble bits).Fits := .number _ rfl rfl (succ_pos 8)

theorem array_fits (elements : List Element) (small : elements.length < 2 ^ 32) :
    (array elements).Fits := by
  unfold array
  rw [mod_eq_of_lt small]
  dsimp only
  split
  · obtain ⟨between, code⟩ := shortTag fixarray fixstr
      (show 144 + elements.length < 160 by omega)
    exact .container .array _ elements (select_array between.1 between.2) (if_pos between).symm
      Nat.one_pos ((if_pos between).trans code).symm
  split
  · exact .container .array _ elements rfl rfl (succ_pos 2)
      (loadUint_storeUint).symm
  · exact .container .array _ elements rfl rfl (succ_pos 4)
      (loadUint_storeUint).symm

theorem map_fits (elements : List Element) (small : elements.length / 2 < 2 ^ 32) :
    (map elements).Fits := by
  unfold map
  rw [mod_eq_of_lt small]
  dsimp only
  have size : (elements.take (elements.length / 2 * 2)).length = elements.length / 2 * 2 := by
    rw [length_take]
    omega
  generalize elements.length / 2 = length at small size ⊢
  split
  · obtain ⟨between, code⟩ := shortTag fixmap fixarray
      (show 128 + length < 144 by omega)
    exact .container .map _ _ (select_map between.1 between.2) (if_pos between).symm Nat.one_pos
      (size.trans (congrArg (· * 2) ((if_pos between).trans code).symm))
  split
  · exact .container .map _ _ rfl rfl (succ_pos 2)
      (size.trans (congrArg (· * 2) (loadUint_storeUint).symm))
  · exact .container .map _ _ rfl rfl (succ_pos 4)
      (size.trans (congrArg (· * 2) (loadUint_storeUint).symm))

end

end CodeReading.NetLink.Element
