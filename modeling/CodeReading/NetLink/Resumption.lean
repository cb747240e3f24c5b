import CodeReading.NetLink.Element
import Mathlib.Tactic.Common

/-!
# Writing and reading an element in parts

What an element writes itself are its own bytes: all of them, or the header of a
container. A call of `serialize` writes some of them from its position on, and a call of
`deserialize` reads as many from a stream that goes on with them, however little room or
input the stream has. So an element stopped at any of its bytes goes on with the next.
-/

namespace CodeReading.NetLink.Element

open List

/-- The bytes of an element without its children. -/
def own : Element → Bytes
  | null => []
  | primitive type => [type]
  | number buffer => buffer
  | data _ header buffer => header ++ buffer.getD []
  | containerHeader _ header => header
  | container _ header _ => header

def children (element : Element) : List Element := element.getElementsVector.getD []

/-- An element as the constructors leave it: its first byte selects its class, and its
header says how long it is. -/
inductive Fits : Element → Prop
  | primitive (type : UInt8) (selected : select true type = primitive Tag.nil) :
      Fits (primitive type)
  | number (buffer : Bytes) (selected : select true (firstByte buffer) = number [])
      (length : buffer.length = numberEndPos (firstByte buffer))
      (starts : 0 < buffer.length) : Fits (number buffer)
  | data (kind : DataKind) (header : Bytes) (buffer : Option Bytes)
      (selected : select true (firstByte header) = data kind [] none)
      (headerLength : header.length = kind.headerLength (firstByte header))
      (starts : 0 < header.length)
      (length : (buffer.getD []).length = kind.endPos header)
      (empty : buffer = none ↔ kind.endPos header = 0) : Fits (data kind header buffer)
  | container (kind : ContainerKind) (header : Bytes) (elements : List Element)
      (selected : select true (firstByte header) = container kind [] [])
      (headerLength : header.length = kind.headerLength (firstByte header))
      (starts : 0 < header.length)
      (length : elements.length = kind.members (kind.length header)) :
      Fits (container kind header elements)

theorem Fits.own_length {element : Element} (fits : element.Fits) :
    element.own.length = element.getHeaderLength + element.getEndPos := by
  cases fits with
  | primitive type selected => rfl
  | number buffer selected length starts => simp [own, length, getHeaderLength, getEndPos]
  | data kind header buffer selected headerLength starts length empty =>
    simp [own, headerLength, length, getHeaderLength, getEndPos]
  | container kind header elements selected headerLength starts length =>
    simp [own, headerLength, getHeaderLength, getEndPos]

theorem Fits.own_pos {element : Element} (fits : element.Fits) : 0 < element.own.length := by
  cases fits with
  | primitive type selected => exact Nat.one_pos
  | number _ _ _ starts | container _ _ _ _ _ starts _ => exact starts
  | data kind header buffer selected headerLength starts length empty =>
    exact Nat.lt_of_lt_of_le starts (length_append.symm ▸ Nat.le_add_right _ _)

section

variable {place : Nat}

/-- A stretch of a string that crosses a boundary. -/
theorem drop_take_append {first second : Bytes} (before : place ≤ first.length) (count : Nat) :
    ((first ++ second).drop place).take (first.length - place + count) =
      first.drop place ++ second.take count := by
  rw [drop_append_of_le_length before, take_append, length_drop,
    take_of_length_le (by rw [length_drop]; omega)]
  congr 2
  omega

theorem serializeHeader_before (before : place < header.length) (bytes room : Nat) :
    serializeHeader header.length header (-(header.length : Int) + place) bytes room =
      ((header.drop place).take (min (min bytes (header.length - place)) room),
        -(header.length : Int) +
          (place + min (min bytes (header.length - place)) room : Nat)) := by
  have negative : -(header.length : Int) + place < 0 := by omega
  have index : ((header.length : Int) + (-(header.length : Int) + place)).toNat = place := by omega
  have left : (-(-(header.length : Int) + place)).toNat = header.length - place := by omega
  simp only [serializeHeader, if_pos negative, index, left, length_take, length_drop]
  congr 1
  omega

theorem serializeHeader_after {length : Nat} (after : 0 ≤ pos)
    (bytes room : Nat) : serializeHeader length header pos bytes room = ([], pos) :=
  if_neg (by omega)

/-- A call writes the next of the element's own bytes, and at least one if the stream has
room. -/
theorem Fits.serialize_own {element : Element} (fits : element.Fits)
    (inside : place < element.own.length) (bytes : Nat) (room : Nat × Nat) :
    ∃ count, place + count ≤ element.own.length ∧
      element.serialize (element.startSerialize + place) bytes room =
        ((element.own.drop place).take count, element.startSerialize + (place + count : Nat)) ∧
      (0 < bytes → 0 < room.1 → 0 < room.2 → 0 < count) := by
  cases fits with
  | primitive type selected =>
    obtain rfl : place = 0 := Nat.lt_one_iff.mp inside
    by_cases fair : 0 < bytes ∧ 0 < room.1
    · refine ⟨1, Nat.le_refl 1, ?_, fun _ _ _ => Nat.one_pos⟩
      exact if_pos ⟨fair.1, rfl, fair.2⟩
    · refine ⟨0, Nat.zero_le 1, ?_, fun some space _ => absurd ⟨some, space⟩ fair⟩
      exact if_neg fun all => fair ⟨all.1, all.2.2⟩
  | number buffer selected length starts =>
    have inside : place < buffer.length := inside
    refine ⟨min (min bytes (buffer.length - place)) room.1, ?_, ?_, ?_⟩
    · simp only [own]
      omega
    · have left : ((numberEndPos (firstByte buffer) : Int) - (0 + place)).toNat =
          buffer.length - place := by omega
      simp only [serialize, startSerialize, getHeaderLength, own, Int.ofNat_zero, Int.neg_zero,
        Int.zero_add, Int.toNat_natCast, length_take, length_drop] at left ⊢
      rw [left]
      congr 1
      omega
    · intro some space _
      omega
  | data kind header buffer selected headerLength starts length empty =>
    have inside : place < header.length + kind.endPos header := by
      simpa only [own, length_append, length] using inside
    simp only [serialize, startSerialize, getHeaderLength, own, ← headerLength,
      length_append, length]
    by_cases before : place < header.length
    · rw [serializeHeader_before before]
      generalize taken : min (min bytes (header.length - place)) room.1 = first
      by_cases complete : place + first = header.length
      · -- the header is complete, and the data begins in the same call
        have reached : -(header.length : Int) + (place + first : Nat) = 0 := by omega
        have whole : first = header.length - place := by omega
        subst whole
        cases buffer with
        | none =>
          refine ⟨header.length - place, by omega, ?_, by omega⟩
          simp
        | some content =>
          refine ⟨header.length - place + min (min bytes (kind.endPos header)) room.2, by omega,
            ?_, by omega⟩
          have size : content.length = kind.endPos header := length
          simp only [reached, Int.le_refl, if_true, Int.toNat_zero, drop_zero, Int.sub_zero,
            Int.toNat_natCast, Option.getD_some, drop_take_append (Nat.le_of_lt before)]
          rw [take_of_length_le (Nat.le_of_eq length_drop)]
          congr 1
          simp only [length_take]
          omega
      · refine ⟨first, by omega, ?_, by omega⟩
        have negative : ¬(0 : Int) ≤ -(header.length : Int) + (place + first : Nat) := by omega
        have cut : ((header ++ buffer.getD []).drop place).take first =
            (header.drop place).take first := by
          rw [drop_append_of_le_length (Nat.le_of_lt before),
            take_append_of_le_length (by rw [length_drop]; omega)]
        cases buffer with
        | none => simp only [cut]
        | some content => simp only [cut, if_neg negative]
    · have after : (0 : Int) ≤ -(header.length : Int) + place := by omega
      rw [serializeHeader_after after]
      cases buffer with
      | none =>
        have none_left : kind.endPos header = 0 := empty.mp rfl
        omega
      | some content =>
        have size : content.length = kind.endPos header := length
        have index : (-(header.length : Int) + place).toNat = place - header.length := by omega
        have left : ((kind.endPos header : Int) - (-(header.length : Int) + place)).toNat =
            header.length + kind.endPos header - place := by omega
        refine ⟨min (min bytes (header.length + kind.endPos header - place)) room.2, by omega, ?_,
          by omega⟩
        simp only [if_pos after, index, left, Option.getD_some, nil_append,
          drop_append, drop_eq_nil_of_le (Nat.le_of_not_lt before)]
        congr 1
        simp only [length_take, length_drop]
        omega
  | container kind header elements selected headerLength starts length =>
    have before : place < header.length := inside
    refine ⟨min (min bytes (header.length - place)) room.1, ?_, ?_, by omega⟩
    · simp only [own]
      omega
    · simp only [serialize, startSerialize, getHeaderLength, own, ← headerLength]
      exact serializeHeader_before before bytes room.1

end

section

/-- The second element has the first so many of the first one's own bytes. A buffer for
data is there before its first byte, or not. -/
inductive Begun : Element → Nat → Element → Prop
  | primitive (type : UInt8) : Begun (primitive type) 1 (primitive type)
  | number (buffer : Bytes) (place : Nat) : Begun (number buffer) place (number (buffer.take place))
  | data (kind : DataKind) (header : Bytes) (buffer part : Option Bytes) (place : Nat)
      (content : part.getD [] = (buffer.getD []).take (place - header.length))
      (present : header.length < place → part ≠ none)
      (absent : buffer = none → part = none) :
      Begun (data kind header buffer) place (data kind (header.take place) part)
  | container (kind : ContainerKind) (header : Bytes) (elements : List Element) (place : Nat) :
      Begun (container kind header elements) place (container kind (header.take place) [])

theorem firstByte_take (some : 0 < place) : firstByte (bytes.take place) = firstByte bytes := by
  obtain ⟨place, rfl⟩ := Nat.exists_eq_add_one.mpr some
  cases bytes <;> rfl

/-- An element that is being read stands before its end as long as bytes are missing. -/
theorem Fits.begun_inside (fits : element.Fits)
    (begun : Begun element place part) (some : 0 < place) (within : place ≤ element.own.length) :
    element.startSerialize + place < part.getEndPos ↔ place < element.own.length := by
  cases fits with
  | primitive type selected =>
    cases begun
    simp [startSerialize, getHeaderLength, getEndPos, own]
  | number buffer selected length starts =>
    cases begun
    simp only [startSerialize, getHeaderLength, getEndPos, own, firstByte_take some, ← length]
    omega
  | data kind header buffer selected headerLength starts length empty =>
    cases begun with
    | data _ _ _ part _ content present absent =>
      simp only [own, length_append, length] at within ⊢
      simp only [startSerialize, getHeaderLength, getEndPos, ← headerLength]
      by_cases before : place < header.length
      · omega
      · rw [take_of_length_le (by omega)]
        omega
  | container kind header elements selected headerLength starts length =>
    cases begun
    simp only [startSerialize, getHeaderLength, getEndPos, own, ← headerLength]
    omega

variable {input : Bytes}

section

variable {sent : Bytes} {count : Nat} (stream : input ++ coming = sent ++ more)
  (arrived : count ≤ input.length) (within : count ≤ sent.length)
include stream arrived within

/-- The bytes that have arrived are the next ones of what is sent. -/
theorem take_of_arrived : input.take count = sent.take count := by
  rw [← take_append_of_le_length arrived, stream, take_append_of_le_length within]

theorem stream_drop : input.drop count ++ coming = sent.drop count ++ more := by
  rw [← drop_append_of_le_length arrived, stream, drop_append_of_le_length within]

end

theorem copyTo_take {full : Bytes} (within : place ≤ full.length) (count : Nat) :
    copyTo (full.take place) place ((full.drop place).take count) = full.take (place + count) := by
  have beyond : (full.take place).drop (place + ((full.drop place).take count).length) = [] :=
    drop_eq_nil_of_le (by rw [length_take]; omega)
  rw [copyTo, beyond, take_take, Nat.min_self, append_nil, take_add]

/-- `sgetn` returns the first bytes of the input, as many as asked for, arrived and left. -/
theorem sgetn_eq : sgetn input bytes arrived = input.take (min (min bytes arrived) input.length) :=
  take_eq_take_min

theorem copyTo_sgetn {full : Bytes} (inside : place ≤ full.length)
    (stream : input ++ coming = full.drop place ++ more) (bytes arrived : Nat) :
    ∃ count, place + count ≤ full.length ∧ count ≤ input.length ∧
      sgetn input (min bytes (full.length - place)) arrived = input.take count ∧
      copyTo (full.take place) place (input.take count) = full.take (place + count) ∧
      (0 < bytes → 0 < arrived → 0 < input.length → place < full.length → 0 < count) := by
  refine ⟨min (min (min bytes (full.length - place)) arrived) input.length, by omega, by omega,
    sgetn_eq, ?_, by omega⟩
  rw [take_of_arrived stream (by omega) (by rw [length_drop]; omega), copyTo_take inside]

theorem deserializeHeader_before {header : Bytes} (before : place < header.length)
    (stream : input ++ coming = header.drop place ++ more) (bytes arrived : Nat) :
    ∃ count, place + count ≤ header.length ∧ count ≤ input.length ∧
      deserializeHeader header.length (header.take place) (-(header.length : Int) + place) input
          bytes arrived =
        (header.take (place + count), -(header.length : Int) + (place + count : Nat),
          input.take count) ∧
      (0 < bytes → 0 < arrived → 0 < input.length → 0 < count) := by
  have negative : -(header.length : Int) + place < 0 := by omega
  have index : ((header.length : Int) + (-(header.length : Int) + place)).toNat = place := by omega
  have left : (-(-(header.length : Int) + place)).toNat = header.length - place := by omega
  obtain ⟨count, within, enough, read, copied, moves⟩ :=
    copyTo_sgetn (Nat.le_of_lt before) stream bytes arrived
  refine ⟨count, within, enough, ?_, fun some first here => moves some first here before⟩
  simp only [deserializeHeader, if_pos negative, index, left, read, copied, length_take]
  refine Prod.ext rfl (Prod.ext ?_ rfl)
  simp only
  omega

theorem deserializeHeader_after {length : Nat} (after : 0 ≤ pos)
    (input : Bytes) (bytes arrived : Nat) :
    deserializeHeader length header pos input bytes arrived = (header, pos, []) :=
  if_neg (by omega)

theorem deserializeContent_own
    (inside : place ≤ (buffer.getD []).length) (empty : buffer = none ↔ (buffer.getD []).length = 0)
    (content : part.getD [] = (buffer.getD []).take place) (absent : buffer = none → part = none)
    (stream : input ++ coming = (buffer.getD []).drop place ++ more) (bytes arrived : Nat) :
    ∃ count next, place + count ≤ (buffer.getD []).length ∧ count ≤ input.length ∧
      deserializeContent (buffer.getD []).length part place input bytes arrived =
        (next, ((place + count : Nat) : Int), input.take count) ∧
      next.getD [] = (buffer.getD []).take (place + count) ∧
      (0 < place + count → next ≠ none) ∧ (buffer = none → next = none) ∧
      (0 < bytes → 0 < arrived → 0 < input.length → place < (buffer.getD []).length →
        0 < count) := by
  obtain ⟨count, within, enough, read, copied, moves⟩ := copyTo_sgetn inside stream bytes arrived
  by_cases some : 0 < (buffer.getD []).length
  · have left : (((buffer.getD []).length : Int) - place).toNat =
        (buffer.getD []).length - place := by omega
    refine ⟨count, .some ((buffer.getD []).take (place + count)), within, enough, ?_, rfl,
      fun _ => Option.some_ne_none _, fun missing => absurd (empty.mp missing) (Nat.ne_of_gt some),
      moves⟩
    simp [deserializeContent, if_pos some, left, content, read, copied, Nat.min_eq_left enough]
  · obtain rfl : place = 0 := by omega
    obtain rfl : count = 0 := by omega
    refine ⟨0, part, within, enough, ?_, content, fun impossible => absurd impossible (by omega),
      absent, moves⟩
    simp [deserializeContent, if_neg some]

/-- A call reads the next of the element's own bytes, and at least one if one has arrived. -/
theorem Fits.deserialize_own (fits : element.Fits)
    (begun : Begun element place part) (started : 0 < place) (inside : place < element.own.length)
    (stream : input ++ coming = element.own.drop place ++ more) (bytes : Nat) (arrived : Nat × Nat) :
    ∃ count next, place + count ≤ element.own.length ∧ count ≤ input.length ∧
      part.deserialize (element.startSerialize + place) input bytes arrived =
        (next, element.startSerialize + (place + count : Nat), input.take count) ∧
      Begun element (place + count) next ∧
      (0 < bytes → 0 < arrived.1 → 0 < arrived.2 → 0 < input.length → 0 < count) := by
  cases fits with
  | primitive type selected => exact absurd (Nat.lt_one_iff.mp inside) (Nat.ne_of_gt started)
  | number buffer selected length starts =>
    have inside : place < buffer.length := inside
    cases begun
    obtain ⟨count, within, enough, read, copied, moves⟩ :=
      copyTo_sgetn (Nat.le_of_lt inside) stream bytes arrived.1
    refine ⟨count, .number (buffer.take (place + count)), within, enough, ?_, .number buffer _,
      fun some first _ here => moves some first here inside⟩
    have left : ((numberEndPos (firstByte buffer) : Int) - place).toNat = buffer.length - place := by
      omega
    simp [deserialize, startSerialize, getHeaderLength, firstByte_take started, left, read, copied,
      Nat.min_eq_left enough]
  | data kind header buffer selected headerLength starts length empty =>
    cases begun with
    | data _ _ _ part _ content present absent =>
      have inside : place < header.length + (buffer.getD []).length := by
        rw [← length_append]
        exact inside
      rw [← length] at empty
      simp only [deserialize, startSerialize, getHeaderLength, own, firstByte_take started,
        ← headerLength, length_append] at stream ⊢
      by_cases before : place < header.length
      · rw [drop_append_of_le_length (Nat.le_of_lt before), append_assoc] at stream
        obtain ⟨first, within, enough, read, moves⟩ :=
          deserializeHeader_before before stream bytes arrived.1
        rw [read]
        by_cases complete : place + first = header.length
        · -- the header is complete, and the data begins in the same call
          have reached : -(header.length : Int) + (place + first : Nat) = (0 : Nat) := by omega
          have whole : header.take (place + first) = header :=
            take_of_length_le (Nat.le_of_eq complete.symm)
          have unread : part.getD [] = (buffer.getD []).take 0 := by
            rw [content, Nat.sub_eq_zero_of_le (Nat.le_of_lt before)]
          have following : input.drop first ++ coming = (buffer.getD []).drop 0 ++ more := by
            rw [stream_drop stream enough (by rw [length_drop]; omega), drop_drop,
              complete, drop_length, nil_append, drop_zero]
          obtain ⟨second, next, bounded, left, rest, kept, made, none, -⟩ :=
            deserializeContent_own (Nat.zero_le _) empty unread absent following bytes arrived.2
          rw [length_drop] at left
          refine ⟨first + second, .data kind header next, by omega, by omega, ?_, ?_, by omega⟩
          · simp only [reached, whole, Int.natCast_nonneg, if_true, ← length, length_take,
              Nat.min_eq_left enough, rest, ← take_add]
            refine Prod.ext rfl (Prod.ext ?_ rfl)
            simp only
            omega
          · have same : header.take (place + (first + second)) = header :=
              take_of_length_le (by omega)
            have begun := Begun.data kind header buffer next (place + (first + second))
            rw [same] at begun
            refine begun ?_ (fun some => made (by omega)) none
            rw [kept]
            congr 1
            omega
        · have negative : ¬(0 : Int) ≤ -(header.length : Int) + (place + first : Nat) := by omega
          refine ⟨first, .data kind (header.take (place + first)) part, by omega, enough, ?_, ?_,
            fun some first _ here => moves some first here⟩
          · simp only [if_neg negative]
          · refine .data kind header buffer part _ ?_ (by omega) absent
            rw [content]
            congr 1
            omega
      · obtain ⟨place, rfl⟩ := Nat.exists_eq_add_of_le (Nat.le_of_not_lt before)
        have reached : -(header.length : Int) + (header.length + place : Nat) = (place : Nat) := by
          omega
        have whole (count : Nat) : header.take (header.length + count) = header :=
          take_of_length_le (Nat.le_add_right _ _)
        rw [drop_append, drop_eq_nil_of_le (Nat.le_add_right _ _), nil_append,
          Nat.add_sub_cancel_left] at stream
        rw [Nat.add_sub_cancel_left] at content
        obtain ⟨count, next, bounded, left, rest, kept, made, none, moves⟩ :=
          deserializeContent_own (by omega) empty content absent stream bytes arrived.2
        refine ⟨count, .data kind header next, by omega, left, ?_, ?_,
          fun some _ first here => moves some first here (by omega)⟩
        · simp only [reached, whole, deserializeHeader_after (Int.natCast_nonneg place),
            Int.natCast_nonneg, if_true, ← length, length_nil, drop_zero, nil_append, rest]
          refine Prod.ext rfl (Prod.ext ?_ rfl)
          simp only
          omega
        · have begun := Begun.data kind header buffer next (header.length + (place + count))
          rw [whole, Nat.add_sub_cancel_left] at begun
          rw [Nat.add_assoc]
          exact begun kept (fun some => made (by omega)) none
  | container kind header elements selected headerLength starts length =>
    have inside : place < header.length := inside
    cases begun
    obtain ⟨count, within, enough, read, moves⟩ :=
      deserializeHeader_before inside stream bytes arrived.1
    refine ⟨count, .container kind (header.take (place + count)) [], within, enough, ?_,
      .container kind header elements _, fun some first _ here => moves some first here⟩
    simp [deserialize, startSerialize, getHeaderLength, firstByte_take started, ← headerLength,
      read]

end

end CodeReading.NetLink.Element
