import CodeReading.Brpc.Hpacker

/-!
# Encoder and decoder stay in step

One coder encodes a sequence of headers and another, with tables of the same size, decodes
the bytes. The table of the decoder holds the entries of the table of the encoder with their
names in lower case, so both evict the same entries, and an index that the encoder finds in
its maps is the place where the decoder has the header.

The limits are those of the integers that the decoder accepts: for the indices, and for the
lengths of strings as they are encoded. The maps take names for the same that differ only
after a zero byte, so names must have none.
-/

namespace CodeReading.Brpc

open Option IndexTable List
open UInt8 (ofNat)

namespace HPacker

/-- The first byte of an indexed header and of a literal says what it is. -/
theorem representation_indexed (small : value < 2 ^ 7) :
    representation (0x80 ||| ofNat value) = .indexed := by
  have all : ∀ value : Fin 128, representation (0x80 ||| ofNat value) = .indexed := by
    decide +kernel
  exact all ⟨value, small⟩

theorem representation_literal {policy : HeaderIndexPolicy} (small : value < 2 ^ policy.mark.2) :
    representation (policy.mark.1 ||| ofNat value) =
      if policy = .indexHeader then .incremental else .literal := by
  have marks : ∀ policy : HeaderIndexPolicy, policy ∈
      [HeaderIndexPolicy.indexHeader, .notIndexHeader, .neverIndexHeader] := by
    intro policy
    cases policy with
    | indexHeader | notIndexHeader | neverIndexHeader => decide
  have all : ∀ policy ∈ [HeaderIndexPolicy.indexHeader, .notIndexHeader, .neverIndexHeader],
      ∀ value : Fin (2 ^ policy.mark.2),
        representation (policy.mark.1 ||| ofNat value) =
          if policy = .indexHeader then .incremental else .literal := by decide +kernel
  exact all policy (marks policy) ⟨value, small⟩

theorem mark_prefixed (policy : HeaderIndexPolicy) : Prefixed policy.mark.1 policy.mark.2 := by
  cases policy with
  | indexHeader | notIndexHeader | neverIndexHeader => decide +kernel

theorem staticHeaders_lowered : ∀ header ∈ staticHeaders, header.lowered = header := by
  decide +kernel

/-- The sizes of tables whose indices the decoder accepts. -/
def Addressable (maxTableSize : Nat) : Prop := 61 + maxTableSize / 34 < maxHpackInteger.toNat

/-- The headers that can be written with the options. -/
structure Encodable (header : Header) (options : HPackOptions) : Prop where
  named : header.name ≠ []
  valued : header.value ≠ []
  nulFree : NulFree header.name
  shortName : header.name.length < maxHpackInteger.toNat
  shortValue : header.value.length < maxHpackInteger.toNat
  name : encodedLength (lower header.name) options.encodeName < maxHpackInteger.toNat
  value : encodedLength header.value options.encodeValue < maxHpackInteger.toNat

/-- The table of the decoder is that of the encoder in lower case. -/
structure Synced (maxTableSize : Nat) (encoder decoder : HPacker) (entries : List Header)
    (times : Nat) : Prop where
  encoded : encoder.encodeTable.Sound entries
  decoded : decoder.decodeTable.Sound (entries.map Header.lowered)
  tracked : encoder.encodeTable.needIndexes = true
  plain : decoder.decodeTable.needIndexes = false
  encoderStart : encoder.encodeTable.startIndex = 62
  decoderStart : decoder.decodeTable.startIndex = 62
  encoderMax : encoder.encodeTable.maxSize = maxTableSize
  decoderMax : decoder.decodeTable.maxSize = maxTableSize
  encoderCap : encoder.encodeTable.headerQueue.cap = maxTableSize / 34
  decoderCap : decoder.decodeTable.headerQueue.cap = maxTableSize / 34
  within : totalSize entries ≤ maxTableSize
  large : ∀ entry ∈ entries, 34 ≤ headerSize entry
  addTimes : encoder.encodeTable.addTimes ≤ times

variable {encoder decoder : HPacker} {header : Header} {options : HPackOptions}

theorem synced_length (synced : Synced maxTableSize encoder decoder entries times) :
    entries.length ≤ maxTableSize / 34 := length_le_of_totalSize synced.large synced.within

theorem headerAt_static (start : decoder.decodeTable.startIndex = 62)
    (isEntry : staticHeaders[place]? = some entry) :
    decoder.headerAt (1 + place) = some entry ∧ entry.lowered = entry ∧ 1 + place < 62 := by
  obtain ⟨sound, first, _⟩ := staticTable_sound
  have count : staticHeaders.length = 61 := by decide
  obtain ⟨inside, rfl⟩ := List.getElem?_eq_some_iff.mp isEntry
  refine ⟨?_, staticHeaders_lowered _ (getElem_mem inside), by omega⟩
  rw [headerAt, start, if_neg (by omega), ← first, headerAt_sound sound, isEntry]

theorem headerAt_entry (synced : Synced maxTableSize encoder decoder entries times)
    (isEntry : entries[place]? = some entry) :
    decoder.headerAt (62 + place) = some entry.lowered ∧ 62 + place ≤ 61 + maxTableSize / 34 := by
  have length := synced_length synced
  obtain ⟨_, _⟩ := List.getElem?_eq_some_iff.mp isEntry
  refine ⟨?_, by omega⟩
  rw [headerAt, synced.decoderStart, if_pos (by omega), ← synced.decoderStart,
    headerAt_sound synced.decoded, getElem?_map, isEntry]
  rfl

variable {index : Nat}

theorem firstPositive_ne (found : firstPositive index other ≠ 0) :
    firstPositive index other = index ∧ index ≠ 0 ∨ firstPositive index other = other ∧ other ≠ 0 := by
  rw [firstPositive] at found ⊢
  split
  · rename_i positive
    exact Or.inl ⟨rfl, by omega⟩
  · rename_i notPositive
    rw [if_neg notPositive] at found
    exact Or.inr ⟨rfl, found⟩

section

variable (synced : Synced maxTableSize encoder decoder entries times)
  (addressable : Addressable maxTableSize)
include synced addressable

/-- An index found in either table is one at which the decoder has what was sought. -/
theorem found_synced (search : IndexTable → Nat) (sought : Header → Prop)
    (finds : ∀ {table : IndexTable} {entries : List Header}, table.Sound entries → table.needIndexes
      = true → table.startIndex + entries.length ≤ 2 ^ 31 → search table ≠ 0 → ∃ place entry, search
      table = table.startIndex + place ∧ entries[place]? = some entry ∧ sought entry.lowered)
    (searched : firstPositive (search staticTable) (search encoder.encodeTable) = index)
    (found : index ≠ 0) : (∃ other, decoder.headerAt index = some other ∧ sought other) ∧
      index < maxHpackInteger.toNat := by
  subst searched
  have limit : maxHpackInteger.toNat = 10485760 := by decide
  have length := synced_length synced
  rw [Addressable] at addressable
  cases firstPositive_ne found with
  | inl static =>
    obtain ⟨sound, first, needed⟩ := staticTable_sound
    obtain ⟨place, entry, isIndex, isEntry, same⟩ :=
      finds sound needed (by rw [first]; decide) static.2
    obtain ⟨isHeader, lowered, small⟩ := headerAt_static synced.decoderStart isEntry
    rw [static.1, isIndex, first]
    exact ⟨⟨entry, isHeader, lowered ▸ same⟩, by omega⟩
  | inr dynamic =>
    obtain ⟨place, entry, isIndex, isEntry, same⟩ := finds synced.encoded synced.tracked
      (by rw [synced.encoderStart]; omega) dynamic.2
    obtain ⟨isHeader, small⟩ := headerAt_entry synced isEntry
    rw [dynamic.1, isIndex, synced.encoderStart]
    exact ⟨⟨entry.lowered, isHeader, same⟩, by omega⟩

theorem findHeader_synced (searchable : Searchable header)
    (found : encoder.findHeaderFromIndexTable header ≠ 0) :
    decoder.headerAt (encoder.findHeaderFromIndexTable header) = some header.lowered ∧
      encoder.findHeaderFromIndexTable header < maxHpackInteger.toNat := by
  obtain ⟨⟨_, isOther, same⟩, small⟩ := found_synced synced addressable
    (·.getIndexOfHeader header) (· = header.lowered) (fun sound needed narrow =>
      getIndexOfHeader_sound sound needed narrow searchable) rfl found
  exact ⟨same ▸ isOther, small⟩

theorem findName_synced (clean : NulFree name) (found : encoder.findNameFromIndexTable name ≠ 0) :
    (∃ other, decoder.headerAt (encoder.findNameFromIndexTable name) = some other ∧
      other.name = lower name) ∧
      encoder.findNameFromIndexTable name < maxHpackInteger.toNat :=
  found_synced synced addressable (·.getIndexOfName name) (·.name = lower name)
    (fun sound needed narrow => getIndexOfName_sound sound needed narrow clean) rfl found

end

theorem lower_lower (text : Bytes) : lower (lower text) = lower text := by
  have all : ∀ byte : Fin 256, asciiTolower (asciiTolower (ofNat byte)) =
      asciiTolower (ofNat byte) := by decide +kernel
  rw [lower, lower, List.map_map]
  apply map_congr_left
  intro byte _
  have here := all ⟨byte.toNat, byte.toNat_lt⟩
  rwa [UInt8.ofNat_toNat] at here

section

variable {nameIndex : Nat} (encodable : Encodable header options)
  (small : nameIndex < maxHpackInteger.toNat)
  (named : nameIndex ≠ 0 →
    ∃ other, decoder.headerAt nameIndex = some other ∧ other.name = lower header.name)
  (rest : Bytes)
include encodable small named rest

/-- The decoder reads a literal back, if it has the name that an index stands for. -/
theorem decodeWithKnownPrefix_encodeLiteral :
    decoder.decodeWithKnownPrefix (encodeLiteral nameIndex header options ++ rest)
        options.indexPolicy.mark.2 =
      .parsed (encodeLiteral nameIndex header options).length header.lowered rest := by
  have readIndex := fun more => decodeInteger_encodeInteger (mark_prefixed options.indexPolicy)
    nameIndex more small
  have readName := fun more => decodeString_encodeString true header.name options.encodeName
    more encodable.shortName encodable.name
  have readValue := decodeString_encodeString false header.value options.encodeValue
    rest encodable.shortValue encodable.value
  simp only [if_true] at readName
  simp only [Bool.false_eq_true, if_false] at readValue
  rw [encodeLiteral, decodeWithKnownPrefix]
  simp only [append_assoc, readIndex]
  by_cases indexed : nameIndex = 0
  · rw [decodeName, if_neg (not_not.mpr indexed), if_pos indexed]
    simp [readName, readValue, Header.lowered, lower_lower, Nat.add_assoc]
  · obtain ⟨_, isOther, sameName⟩ := named indexed
    rw [decodeName, if_pos indexed, isOther, if_neg indexed]
    simp only [nil_append, readValue, length_append, sameName, Header.lowered]
    rfl

theorem decode_encodeLiteral :
    decoder.decode (encodeLiteral nameIndex header options ++ rest) =
      if options.indexPolicy = .indexHeader then
        decoder.addDecoded
          (.parsed (encodeLiteral nameIndex header options).length header.lowered rest)
      else some (decoder,
        .parsed (encodeLiteral nameIndex header options).length header.lowered rest) := by
  have read := decodeWithKnownPrefix_encodeLiteral encodable small named rest
  obtain ⟨value, _, below, isFirst⟩ := encodeInteger_first options.indexPolicy.mark.1
    options.indexPolicy.mark.2 nameIndex
  obtain ⟨more, isMore⟩ : ∃ more, encodeLiteral nameIndex header options ++ rest =
      (options.indexPolicy.mark.1 ||| ofNat value) :: more := by
    rw [encodeLiteral, isFirst]
    exact ⟨_, rfl⟩
  have kind := representation_literal below
  rw [isMore] at read ⊢
  rw [decode, decodeTurns, kind]
  cases isPolicy : options.indexPolicy with
  | indexHeader =>
    rw [isPolicy] at read
    simp only [if_true]
    exact congrArg _ read
  | notIndexHeader | neverIndexHeader =>
    rw [isPolicy] at read
    exact congrArg (fun parsed => some (decoder, parsed)) read

end

theorem decode_indexed (small : index < maxHpackInteger.toNat)
    (isHeader : decoder.headerAt index = some header) (rest : Bytes) :
    decoder.decode (encodeInteger 0x80 7 index ++ rest) =
      some (decoder, .parsed (encodeInteger 0x80 7 index).length header rest) := by
  have read := decodeInteger_encodeInteger (show Prefixed 0x80 7 by decide +kernel) index rest small
  obtain ⟨_, _, below, isFirst⟩ := encodeInteger_first 0x80 7 index
  have kind := representation_indexed below
  rw [isFirst, cons_append] at read
  rw [isFirst, cons_append, decode, decodeTurns, kind]
  simp [decodeIndexed, read, isHeader]

section

variable (synced : Synced maxTableSize encoder decoder entries times)
include synced

theorem addHeader_synced (encodable : Encodable header options) (few : times < 2 ^ 31) :
    ∃ encodeTable decodeTable, encoder.encodeTable.addHeader header = some encodeTable ∧
      decoder.decodeTable.addHeader header.lowered = some decodeTable ∧
      Synced maxTableSize { encoder with encodeTable := encodeTable }
        { decoder with decodeTable := decodeTable } (addEntry maxTableSize entries header)
        (times + 1) := by
  have within := addEntry_within maxTableSize entries header
  have lengths : 0 < header.name.length ∧ 0 < header.value.length :=
    ⟨length_pos_iff.mpr encodable.named, length_pos_iff.mpr encodable.valued⟩
  have large : ∀ entry ∈ addEntry maxTableSize entries header, 34 ≤ headerSize entry := by
    intro entry mem
    cases addEntry_mem mem with
    | inl isHeader =>
      rw [isHeader, headerSize]
      omega
    | inr earlier => exact synced.large entry earlier
  have room := length_le_of_totalSize large within
  have addTimes := synced.addTimes
  obtain ⟨encodeTable, isEncode, encodeSound, encodeFrame, encodeMax, encodeTimes⟩ :=
    addHeader_sound synced.encoded encodable.named
      (by rw [synced.encoderMax, synced.encoderCap]; exact room)
      (fun _ => ⟨encodable.nulFree, by omega⟩)
  have lowerNamed : header.lowered.name ≠ [] := by
    intro empty
    exact encodable.named (map_eq_nil_iff.mp empty)
  obtain ⟨decodeTable, isDecode, decodeSound, decodeFrame, decodeMax, _⟩ :=
    addHeader_sound synced.decoded lowerNamed
      (by rw [synced.decoderMax, synced.decoderCap, addEntry_lowered, length_map]; exact room)
      (fun needed => Bool.noConfusion (synced.plain.symm.trans needed))
  rw [synced.encoderMax] at encodeSound
  rw [synced.decoderMax, addEntry_lowered] at decodeSound
  refine ⟨encodeTable, decodeTable, isEncode, isDecode, ?_⟩
  constructor
  · exact encodeSound
  · exact decodeSound
  · exact encodeFrame.needIndexes.trans synced.tracked
  · exact decodeFrame.needIndexes.trans synced.plain
  · exact encodeFrame.startIndex.trans synced.encoderStart
  · exact decodeFrame.startIndex.trans synced.decoderStart
  · exact encodeMax.trans synced.encoderMax
  · exact decodeMax.trans synced.decoderMax
  · exact encodeFrame.cap.trans synced.encoderCap
  · exact decodeFrame.cap.trans synced.decoderCap
  · exact within
  · exact large
  · exact Nat.le_trans encodeTimes (Nat.add_le_add_right addTimes 1)

theorem synced_later : Synced maxTableSize encoder decoder entries (times + 1) :=
  { synced with addTimes := Nat.le_succ_of_le synced.addTimes }

/-- One header: the decoder returns it in lower case, consumes what the encoder wrote for it,
and the tables agree afterwards. -/
theorem encode_synced (addressable : Addressable maxTableSize)
    (encodable : Encodable header options) (few : times < 2 ^ 31) :
    ∃ nextEncoder nextDecoder bytes nextEntries,
      encoder.encode header options = some (nextEncoder, bytes) ∧
      (∀ rest, decoder.decode (bytes ++ rest) =
        some (nextDecoder, .parsed bytes.length header.lowered rest)) ∧
      Synced maxTableSize nextEncoder nextDecoder nextEntries (times + 1) := by
  have searchable : Searchable header := ⟨encodable.nulFree, encodable.valued⟩
  have named := findName_synced synced addressable encodable.nulFree
  obtain ⟨index, isIndex⟩ : ∃ index, index =
      if options.indexPolicy = .neverIndexHeader then 0
      else firstPositive (encoder.findHeaderFromIndexTable header) 0 := ⟨_, rfl⟩
  rw [encode, ← isIndex]
  by_cases found : index ≠ 0
  · have fromTable : index = encoder.findHeaderFromIndexTable header := by
      split at isIndex
      · exact absurd isIndex found
      · rw [isIndex] at found ⊢
        cases firstPositive_ne found with
        | inl header => exact header.1
        | inr other => exact absurd rfl other.2
    have there := findHeader_synced synced addressable searchable (fromTable ▸ found)
    rw [← fromTable] at there
    rw [if_pos found]
    exact ⟨encoder, decoder, _, entries, rfl, decode_indexed there.2 there.1, synced_later synced⟩
  · rw [if_neg found]
    have small : encoder.findNameFromIndexTable header.name < maxHpackInteger.toNat := by
      by_cases none : encoder.findNameFromIndexTable header.name = 0
      · rw [none]
        decide
      · exact (named none).2
    have read := decode_encodeLiteral encodable small fun isNamed => (named isNamed).1
    by_cases adds : options.indexPolicy = .indexHeader
    · obtain ⟨_, _, isEncode, isDecode, next⟩ :=
        addHeader_synced synced encodable few
      simp only [if_pos adds, addDecoded, isDecode, map_some] at read
      simp only [if_pos adds, isEncode, map_some]
      exact ⟨_, _, _, _, rfl, read, next⟩
    · simp only [if_neg adds] at read
      simp only [if_neg adds, map_some]
      exact ⟨_, _, _, _, rfl, read, synced_later synced⟩

end

/-- The coder after each header of a sequence, and the bytes it wrote for it. -/
def encodeAll (packer : HPacker) : List (Header × HPackOptions) → Option (List (HPacker × Bytes))
  | [] => some []
  | (header, options) :: rest =>
      (packer.encode header options).bind fun encoded =>
        (encodeAll encoded.1 rest).map fun later => encoded :: later

/-- The coder after each call of `Decode`, and its result. The calls share the iterator, and
end when there is no header. -/
def decodeAll (packer : HPacker) : Nat → Bytes → Option (List (HPacker × Parsed Header))
  | 0, _ => some []
  | calls + 1, source =>
      (packer.decode source).bind fun decoded =>
        match decoded.2 with
        | .parsed _ _ rest => (decodeAll decoded.1 calls rest).map fun later => decoded :: later
        | .incomplete _ | .malformed => some [decoded]

/-- Every header is decoded from exactly the bytes that were written for it, with its name in
lower case, and the tables agree afterwards. -/
def InStep : List (Header × HPackOptions) → List (HPacker × Bytes) →
    List (HPacker × Parsed Header) → Prop
  | [], [], [] => True
  | (header, _) :: headers, (encoder, bytes) :: encoded, (decoder, parsed) :: decoded =>
      parsed = .parsed bytes.length header.lowered (encoded.map Prod.snd).flatten ∧
        decoder.decodeTable.headers = encoder.encodeTable.headers.map Header.lowered ∧
        InStep headers encoded decoded
  | _, _, _ => False

theorem encodeAll_synced {headers : List (Header × HPackOptions)}
    (synced : Synced maxTableSize encoder decoder entries times)
    (addressable : Addressable maxTableSize) (encodable : ∀ item ∈ headers, Encodable item.1 item.2)
    (few : times + headers.length ≤ 2 ^ 31) :
    ∃ encoded decoded, encoder.encodeAll headers = some encoded ∧
      decoder.decodeAll headers.length (encoded.map Prod.snd).flatten = some decoded ∧
      InStep headers encoded decoded := by
  induction headers generalizing encoder decoder entries times with
  | nil => exact ⟨[], [], rfl, rfl, trivial⟩
  | cons item headers ih =>
    obtain ⟨header, _⟩ := item
    rw [length_cons] at few
    obtain ⟨nextEncoder, nextDecoder, bytes, _, isEncoded, read, next⟩ :=
      encode_synced synced addressable (encodable _ (.head _)) (by omega)
    obtain ⟨encoded, decoded, isLater, readLater, inStep⟩ := ih next
      (fun item mem => encodable item (.tail _ mem)) (by omega)
    have tables : nextDecoder.decodeTable.headers =
        nextEncoder.encodeTable.headers.map Header.lowered := by
      rw [headers_sound next.encoded, headers_sound next.decoded]
    refine ⟨(nextEncoder, bytes) :: encoded, (nextDecoder, _) :: decoded, ?_, ?_, rfl, tables,
      inStep⟩
    · rw [encodeAll, isEncoded, bind_some, isLater]
      rfl
    · rw [map_cons, flatten_cons, length_cons, decodeAll, read, bind_some]
      simp [readLater]

theorem init_synced (isPacker : init maxTableSize = some packer)
    (addressable : Addressable maxTableSize) : Synced maxTableSize packer packer [] 0 := by
  have limit : maxHpackInteger.toNat = 10485760 := by decide
  have narrow : maxTableSize / 34 < 2 ^ 31 := by
    rw [Addressable] at addressable
    omega
  have start : staticTable.endIndex = 62 := by
    obtain ⟨sound, first, _⟩ := staticTable_sound
    rw [endIndex, first, sound.queue.count]
    decide
  obtain ⟨encodeTable, isEncode, made⟩ := bind_eq_some_iff.mp isPacker
  obtain ⟨decodeTable, isDecode, rfl⟩ := map_eq_some_iff.mp made
  have buckets : 34 ≤ maxTableSize := by
    apply Nat.not_lt.mp
    intro _
    have none : maxTableSize / (32 + 2) = 0 := by omega
    rw [IndexTable.init, if_pos ⟨rfl, none⟩] at isEncode
    cases isEncode
  obtain ⟨other, isOther, encoded, encoderStart, tracked, encoderMax, encoderCap, addTimes⟩ :=
    init_sound staticTable.endIndex true narrow (fun _ => buckets)
  obtain rfl : other = encodeTable := some.inj (isOther.symm.trans isEncode)
  obtain ⟨another, isAnother, decoded, decoderStart, plain, decoderMax, decoderCap, _⟩ :=
    init_sound staticTable.endIndex false narrow fun none => absurd none Bool.false_ne_true
  obtain rfl : another = decodeTable := some.inj (isAnother.symm.trans isDecode)
  exact ⟨encoded, decoded, tracked, plain, encoderStart.trans start, decoderStart.trans start,
    encoderMax, decoderMax, encoderCap, decoderCap, Nat.zero_le _,
    fun _ mem => absurd mem not_mem_nil, Nat.le_of_eq addTimes⟩

/-- Encoder and decoder stay in step on every sequence of headers that can be encoded. -/
theorem hpack_in_step (maxTableSize : Nat) (addressable : Addressable maxTableSize)
    (packer : HPacker) (isPacker : init maxTableSize = some packer)
    (headers : List (Header × HPackOptions)) (few : headers.length < 2 ^ 31)
    (encodable : ∀ item ∈ headers, Encodable item.1 item.2) :
    ∃ encoded decoded, packer.encodeAll headers = some encoded ∧
      packer.decodeAll headers.length (encoded.map Prod.snd).flatten = some decoded ∧
      InStep headers encoded decoded :=
  encodeAll_synced (init_synced isPacker addressable) addressable encodable (by omega)

/-- Headers under each of the policies, one of them twice and in different letter case, one too
large for the table and two that do not fit into it together. -/
def mixedHeaders : List (Header × HPackOptions) :=
  [(⟨bytes "Alpha", bytes "one"⟩, {}), (⟨bytes "alpha", bytes "one"⟩, {}),
    (⟨bytes "alpha", bytes "two"⟩, ⟨.indexHeader, true, true⟩),
    (⟨bytes "ALPHA", bytes "two"⟩, ⟨.notIndexHeader, false, false⟩),
    (⟨bytes "beta", bytes "a value that is too long for the table of this size"⟩, {}),
    (⟨bytes ":method", bytes "GET"⟩, ⟨.neverIndexHeader, false, true⟩)]

instance (header : Header) (options : HPackOptions) : Decidable (Encodable header options) :=
  decidable_of_iff (header.name ≠ [] ∧ header.value ≠ [] ∧ 0 ∉ header.name ∧
      header.name.length < maxHpackInteger.toNat ∧ header.value.length < maxHpackInteger.toNat ∧
      encodedLength (lower header.name) options.encodeName < maxHpackInteger.toNat ∧
      encodedLength header.value options.encodeValue < maxHpackInteger.toNat)
    ⟨fun ⟨named, valued, nulFree, shortName, shortValue, name, value⟩ =>
        ⟨named, valued, nulFree, shortName, shortValue, name, value⟩,
      fun ⟨named, valued, nulFree, shortName, shortValue, name, value⟩ =>
        ⟨named, valued, nulFree, shortName, shortValue, name, value⟩⟩

theorem hpack_in_step_mixed :
    ∃ packer, init 70 = some packer ∧
      ∃ encoded decoded, packer.encodeAll mixedHeaders = some encoded ∧
        packer.decodeAll 6 (encoded.map Prod.snd).flatten = some decoded ∧
        InStep mixedHeaders encoded decoded := by
  obtain ⟨packer, isPacker⟩ : ∃ packer, init 70 = some packer :=
    isSome_iff_exists.mp (by decide +kernel)
  exact ⟨packer, isPacker, hpack_in_step 70 (show 61 + 70 / 34 < maxHpackInteger.toNat by decide)
    packer isPacker mixedHeaders (by decide) (by decide +kernel)⟩

/-- Two names that differ after a zero byte and have the same hash. The second header is
written as the index of the first. -/
theorem hpack_zero_byte :
    ∃ packer, init 4096 = some packer ∧
      ∃ encoded decoded, packer.encodeAll [(⟨[0, 0, 101], [97]⟩, {}), (⟨[0, 1, 0], [97]⟩, {})] =
          some encoded ∧
        packer.decodeAll 2 (encoded.map Prod.snd).flatten = some decoded ∧
        decoded.map Prod.snd =
          [.parsed 7 ⟨[0, 0, 101], [97]⟩ [0xbe], .parsed 1 ⟨[0, 0, 101], [97]⟩ []] := by
  have confused : (init 4096).any fun packer =>
      (packer.encodeAll [(⟨[0, 0, 101], [97]⟩, {}), (⟨[0, 1, 0], [97]⟩, {})]).any fun encoded =>
        (packer.decodeAll 2 (encoded.map Prod.snd).flatten).any fun decoded =>
          decide (decoded.map Prod.snd = [.parsed 7 ⟨[0, 0, 101], [97]⟩ [0xbe],
            .parsed 1 ⟨[0, 0, 101], [97]⟩ []]) := by decide +kernel
  obtain ⟨packer, isPacker, confused⟩ := (any_eq_true _ _).mp confused
  obtain ⟨encoded, isEncoded, confused⟩ := (any_eq_true _ _).mp confused
  obtain ⟨decoded, isDecoded, same⟩ := (any_eq_true _ _).mp confused
  exact ⟨packer, isPacker, encoded, decoded, isEncoded, isDecoded, decide_eq_true_eq.mp same⟩

end HPacker

end CodeReading.Brpc
