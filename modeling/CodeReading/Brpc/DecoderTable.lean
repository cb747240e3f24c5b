import CodeReading.Brpc.Hpacker
import CodeReading.Machine

/-!
# The table of the decoder

The peer chooses what the decoder adds to its table and how large the table may become. The
queue of the table was made for entries of at least 34 bytes and for the size given to
`Init`. Within these two assumptions no `CHECK` of `AddHeader` fails, whatever the bytes
are, and the size of the table is the sum of the sizes of its entries.
-/

namespace CodeReading.Brpc

open Option IndexTable

namespace HPacker

/-- A header that has a name, and at least two bytes in its name and value. -/
def Substantial (header : Header) : Prop :=
  header.name ≠ [] ∧ 2 ≤ header.name.length + header.value.length

instance (header : Header) : Decidable (Substantial header) := inferInstanceAs (Decidable (_ ∧ _))

theorem substantial_size (substantial : Substantial header) : 34 ≤ headerSize header := by
  have := substantial.2
  rw [headerSize]
  omega

/-- What a call of `Decode` adds is substantial, and no update makes the table larger than it
was at first. -/
def fitsTurns (maxTableSize : Nat) : Nat → HPacker → Bytes → Bool
  | 0, _, _ => true
  | _ + 1, _, [] => true
  | turns + 1, packer, firstByte :: tail =>
      let source := firstByte :: tail
      match representation firstByte with
      | .indexed | .literal => true
      | .incremental =>
          match packer.decodeWithKnownPrefix source 6 with
          | .incomplete _ | .malformed => true
          | .parsed _ header _ => decide (Substantial header)
      | .sizeUpdate =>
          match decodeInteger source 5 with
          | .incomplete _ | .malformed => true
          | .parsed _ maxSize rest =>
              decide (maxSize > defaultHeaderTableSize) ||
                decide (maxSize ≤ maxTableSize) &&
                  (packer.decodeTable.resetMaxSize maxSize).all fun decodeTable =>
                    fitsTurns maxTableSize turns { packer with decodeTable := decodeTable } rest

def Fits (maxTableSize : Nat) (packer : HPacker) (source : Bytes) : Prop :=
  fitsTurns maxTableSize (source.length + 1) packer source = true

instance (maxTableSize : Nat) (packer : HPacker) (source : Bytes) :
    Decidable (Fits maxTableSize packer source) := inferInstanceAs (Decidable (_ = _))

/-- The calls of `Decode` on one byte sequence after another. The step is undefined when a
`CHECK` fails. -/
def decodeStep (packer : HPacker) (source : Bytes) : Option HPacker :=
  (packer.decode source).map Prod.fst

/-- The size of the table is that of its entries, and is within the limit. -/
def SizeKept (packer : HPacker) : Prop :=
  packer.decodeTable.size = totalSize packer.decodeTable.headers ∧
    packer.decodeTable.size ≤ packer.decodeTable.maxSize

/-- The table of a decoder for the size given to `Init`. -/
structure DecoderSound (maxTableSize : Nat) (packer : HPacker) (entries : List Header) : Prop where
  sound : packer.decodeTable.Sound entries
  plain : packer.decodeTable.needIndexes = false
  within : totalSize entries ≤ packer.decodeTable.maxSize
  bounded : packer.decodeTable.maxSize ≤ maxTableSize
  cap : packer.decodeTable.headerQueue.cap = maxTableSize / 34
  large : ∀ entry ∈ entries, 34 ≤ headerSize entry

variable {maxTableSize : Nat} {packer : HPacker} {entries : List Header}

section

variable (sound : DecoderSound maxTableSize packer entries)
include sound

theorem decoderSound_sizeKept : SizeKept packer := by
  rw [SizeKept, headers_sound sound.sound, sound.sound.size]
  exact ⟨rfl, sound.within⟩

theorem addHeader_decoderSound (substantial : Substantial header) :
    ∃ decodeTable, packer.decodeTable.addHeader header = some decodeTable ∧
      DecoderSound maxTableSize { packer with decodeTable := decodeTable }
        (addEntry packer.decodeTable.maxSize entries header) := by
  have within := addEntry_within packer.decodeTable.maxSize entries header
  have large : ∀ entry ∈ addEntry packer.decodeTable.maxSize entries header,
      34 ≤ headerSize entry := by
    intro entry mem
    cases addEntry_mem mem with
    | inl isHeader => exact isHeader ▸ substantial_size substantial
    | inr earlier => exact sound.large entry earlier
  have room := length_le_of_totalSize large (Nat.le_trans within sound.bounded)
  rw [← sound.cap] at room
  have untracked (needed : packer.decodeTable.needIndexes = true) :
      NulFree header.name ∧ packer.decodeTable.addTimes < 2 ^ 31 :=
    Bool.noConfusion (sound.plain.symm.trans needed)
  obtain ⟨decodeTable, isTable, tableSound, frame, maxSize, _⟩ :=
    addHeader_sound sound.sound substantial.1 room untracked
  refine ⟨decodeTable, isTable, tableSound, ?_, ?_, ?_, ?_, large⟩
  · exact frame.needIndexes.trans sound.plain
  · exact maxSize ▸ within
  · exact maxSize ▸ sound.bounded
  · exact frame.cap.trans sound.cap

theorem resetMaxSize_decoderSound {maxSize : Nat} (bounded : maxSize ≤ maxTableSize) :
    ∃ decodeTable, packer.decodeTable.resetMaxSize maxSize = some decodeTable ∧
      DecoderSound maxTableSize { packer with decodeTable := decodeTable }
        (resetEntries maxSize entries) := by
  obtain ⟨decodeTable, isTable, tableSound, frame, isMax⟩ :=
    resetMaxSize_sound sound.sound sound.within maxSize
  refine ⟨decodeTable, isTable, tableSound, ?_, ?_, ?_, ?_, ?_⟩
  · exact frame.needIndexes.trans sound.plain
  · exact isMax ▸ resetEntries_within maxSize entries
  · exact isMax ▸ bounded
  · exact frame.cap.trans sound.cap
  · intro entry mem
    exact sound.large entry ((trim_initial _ _ _).subset mem)

/-- One call. The induction is on the updates of the size that come first. -/
theorem decodeTurns_sound {turns : Nat} (fits : fitsTurns maxTableSize turns packer source = true) :
    ∃ next parsed entries, decodeTurns turns packer source = some (next, parsed) ∧
      DecoderSound maxTableSize next entries := by
  induction turns generalizing packer source entries with
  | zero => exact ⟨packer, _, entries, rfl, sound⟩
  | succ turns ih =>
    cases source with
    | nil => exact ⟨packer, _, entries, rfl, sound⟩
    | cons firstByte tail =>
      rw [decodeTurns]
      rw [fitsTurns] at fits
      cases isKind : representation firstByte with
      | indexed | literal => exact ⟨packer, _, entries, rfl, sound⟩
      | incremental =>
        simp only [isKind] at fits ⊢
        cases read : packer.decodeWithKnownPrefix (firstByte :: tail) 6 with
        | incomplete _ | malformed => exact ⟨packer, _, entries, rfl, sound⟩
        | parsed consumed header rest =>
          rw [read] at fits
          obtain ⟨decodeTable, isTable, next⟩ :=
            addHeader_decoderSound sound (decide_eq_true_eq.mp fits)
          rw [addDecoded, isTable]
          exact ⟨_, _, _, rfl, next⟩
      | sizeUpdate =>
        simp only [isKind] at fits ⊢
        cases read : decodeInteger (firstByte :: tail) 5 with
        | incomplete _ | malformed => exact ⟨packer, _, entries, rfl, sound⟩
        | parsed consumed maxSize rest =>
          simp only [read] at fits ⊢
          by_cases refused : maxSize > defaultHeaderTableSize
          · rw [if_pos refused]
            exact ⟨packer, _, entries, rfl, sound⟩
          · rw [if_neg refused]
            rw [decide_eq_false refused, Bool.false_or, Bool.and_eq_true, decide_eq_true_eq] at fits
            obtain ⟨decodeTable, isTable, next⟩ := resetMaxSize_decoderSound sound fits.1
            rw [isTable] at fits ⊢
            exact ih next fits.2

end

theorem init_decoderSound (isPacker : init maxTableSize = some packer)
    (narrow : maxTableSize / 34 < 2 ^ 31) : DecoderSound maxTableSize packer [] := by
  obtain ⟨_, _, made⟩ := bind_eq_some_iff.mp isPacker
  obtain ⟨decodeTable, isTable, rfl⟩ := map_eq_some_iff.mp made
  obtain ⟨table, sameTable, sound, _, plain, maxSize, cap, _⟩ :=
    init_sound staticTable.endIndex false narrow (fun impossible => nomatch impossible)
  obtain rfl : table = decodeTable := some.inj (sameTable.symm.trans isTable)
  exact ⟨sound, plain, Nat.zero_le _, Nat.le_of_eq maxSize, cap, fun _ mem => nomatch mem⟩

/-- As long as what is added is substantial and the limit does not exceed the first one,
every call of `Decode` returns and leaves the size of the table right. -/
theorem decode_keeps_table (maxTableSize : Nat) (narrow : maxTableSize / 34 < 2 ^ 31)
    (packer : HPacker) (isPacker : init maxTableSize = some packer) (sources : List Bytes)
    (fits : Machine.Guarded decodeStep (Fits maxTableSize) packer sources) :
    ∃ final, Machine.run decodeStep packer sources = some final ∧ SizeKept final := by
  have enabled (packer : HPacker) (source : Bytes) (fits : Fits maxTableSize packer source)
      (holds : ∃ entries, DecoderSound maxTableSize packer entries) :
      ∃ next, decodeStep packer source = some next ∧
        ∃ entries, DecoderSound maxTableSize next entries := by
    obtain ⟨entries, sound⟩ := holds
    obtain ⟨next, _, nextEntries, isNext, nextSound⟩ := decodeTurns_sound sound fits
    refine ⟨next, ?_, nextEntries, nextSound⟩
    rw [decodeStep, decode, isNext]
    rfl
  obtain ⟨final, ran, entries, sound⟩ := Machine.guarded_runs decodeStep (Fits maxTableSize)
    (fun packer => ∃ entries, DecoderSound maxTableSize packer entries) enabled
    ⟨[], init_decoderSound isPacker narrow⟩ fits
  exact ⟨final, ran, decoderSound_sizeKept sound⟩

/-- A header is added, added again after the limit was lowered and raised, and referred to;
then a header that is cut off is refused. -/
theorem decode_keeps_table_updates :
    ∃ packer, init 4096 = some packer ∧
      ∃ final, Machine.run decodeStep packer
        [[0x40, 1, 97, 1, 98], [0x20, 0x3f, 0xe1, 0x1f, 0x40, 1, 97, 1, 98], [0xbe],
          [0x40, 1, 97]] = some final ∧ SizeKept final := by
  have fits : (init 4096).any fun packer => decide (Machine.Guarded decodeStep (Fits 4096) packer
      [[0x40, 1, 97, 1, 98], [0x20, 0x3f, 0xe1, 0x1f, 0x40, 1, 97, 1, 98], [0xbe],
        [0x40, 1, 97]]) := by decide
  obtain ⟨packer, isPacker, fits⟩ := (any_eq_true _ _).mp fits
  exact ⟨packer, isPacker, decode_keeps_table 4096 (by decide) packer isPacker _
    (of_decide_eq_true fits)⟩

/-- The queue for 4096 bytes has room for 120 headers. A header with a name of one byte and
no value has 33 bytes, and 121 of them fit into the size. An empty name fails at once, and so
does a second header after the limit was raised above the size given to `Init`. -/
theorem decode_checks_fail :
    (∃ packer, init 4096 = some packer ∧
      Machine.run decodeStep packer (List.replicate 121 [0x40, 1, 97, 0]) = none ∧
      packer.decode [0x40, 0, 1, 98] = none) ∧
    ∃ packer, init 34 = some packer ∧
      Machine.run decodeStep packer [[0x3f, 0xe1, 0x1f, 0x40, 1, 97, 1, 98], [0x40, 1, 97, 1, 98]] =
        none := by
  constructor
  · have fails : (init 4096).any fun packer =>
        (Machine.run decodeStep packer (List.replicate 121 [0x40, 1, 97, 0])).isNone &&
          (packer.decode [0x40, 0, 1, 98]).isNone := by decide
    obtain ⟨packer, isPacker, fails⟩ := (any_eq_true _ _).mp fails
    rw [Bool.and_eq_true, isNone_iff_eq_none, isNone_iff_eq_none] at fails
    exact ⟨packer, isPacker, fails⟩
  · have fails : (init 34).any fun packer => (Machine.run decodeStep packer
        [[0x3f, 0xe1, 0x1f, 0x40, 1, 97, 1, 98], [0x40, 1, 97, 1, 98]]).isNone := by
      decide
    obtain ⟨packer, isPacker, fails⟩ := (any_eq_true _ _).mp fails
    exact ⟨packer, isPacker, isNone_iff_eq_none.mp fails⟩

end HPacker

end CodeReading.Brpc
