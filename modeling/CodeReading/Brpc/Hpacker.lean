import CodeReading.Brpc.HpackPrimitives
import CodeReading.Brpc.IndexTableLaws

/-!
# The HPACK coder

`HPacker` has one index table for the headers it encodes and one for the headers it decodes.
Both continue the table of the static headers, which is made once for all. A header is
written as an index, or as a literal that the peer adds to its table or not. The decoder
also understands an update of the size of its table, which the encoder never writes.
-/

namespace CodeReading.Brpc

theorem staticHeaders_named : ∀ header ∈ staticHeaders, header.name ≠ [] ∧ NulFree header.name := by
  simp only [NulFree]
  decide +kernel

theorem staticTable_created :
    ∃ table, IndexTable.init (2 ^ 32 - 1) 1 staticHeaders true = some table ∧
      table.Sound staticHeaders ∧ table.startIndex = 1 ∧ table.needIndexes = true :=
  IndexTable.init_static_sound (by decide) (by decide) staticHeaders_named
    (by decide +kernel)

/-- `s_static_table`, which `CreateStaticTableOrDie` makes. -/
def staticTable : IndexTable :=
  (IndexTable.init (2 ^ 32 - 1) 1 staticHeaders true).get
    (Option.isSome_iff_exists.mpr (staticTable_created.imp fun _ created => created.1))

theorem staticTable_sound :
    staticTable.Sound staticHeaders ∧ staticTable.startIndex = 1 ∧
      staticTable.needIndexes = true := by
  obtain ⟨table, isTable, sound⟩ := staticTable_created
  have same : staticTable = table := by
    rw [staticTable, Option.get_of_eq_some _ isTable]
  rw [same]
  exact sound

structure HPacker where
  encodeTable : IndexTable
  decodeTable : IndexTable

inductive HeaderIndexPolicy where
  | indexHeader
  | notIndexHeader
  | neverIndexHeader
deriving DecidableEq, Repr

structure HPackOptions where
  indexPolicy : HeaderIndexPolicy := .indexHeader
  encodeName : Bool := false
  encodeValue : Bool := false
deriving DecidableEq, Repr

def defaultHeaderTableSize : Nat := 4096

/-- The first of two indices, given as the bits of an `int`, if it is positive. -/
def firstPositive (index other : Nat) : Nat := if 0 < index ∧ index < 2 ^ 31 then index else other

/-- The first bits and the size of the integer of a literal. -/
def HeaderIndexPolicy.mark : HeaderIndexPolicy → UInt8 × Nat
  | .indexHeader => (0x40, 6)
  | .notIndexHeader => (0x00, 4)
  | .neverIndexHeader => (0x10, 4)

/-- What the first four bits of a header say. -/
inductive Representation where
  | indexed
  | incremental
  | sizeUpdate
  | literal
deriving DecidableEq, Repr

/-- The switch of `Decode`. -/
def representation (firstByte : UInt8) : Representation :=
  if firstByte >>> 4 ≥ 8 then .indexed
  else if firstByte >>> 4 ≥ 4 then .incremental
  else if firstByte >>> 4 ≥ 2 then .sizeUpdate
  else .literal

namespace HPacker

def init (maxTableSize : Nat) : Option HPacker :=
  (IndexTable.init maxTableSize staticTable.endIndex [] true).bind fun encodeTable =>
    (IndexTable.init maxTableSize staticTable.endIndex [] false).map fun decodeTable =>
      ⟨encodeTable, decodeTable⟩

theorem init_default : ∃ packer, init 4096 = some packer :=
  Option.isSome_iff_exists.mp (by decide +kernel)

section

variable (packer : HPacker)

def findHeaderFromIndexTable (header : Header) : Nat :=
  firstPositive (staticTable.getIndexOfHeader header) (packer.encodeTable.getIndexOfHeader header)

def findNameFromIndexTable (name : Bytes) : Nat :=
  firstPositive (staticTable.getIndexOfName name) (packer.encodeTable.getIndexOfName name)

/-- A literal: the index of the name, the name if it has none, and the value. -/
def encodeLiteral (nameIndex : Nat) (header : Header) (options : HPackOptions) : Bytes :=
  let mark := options.indexPolicy.mark
  encodeInteger mark.1 mark.2 nameIndex ++
    (if nameIndex = 0 then encodeString true header.name options.encodeName else []) ++
    encodeString false header.value options.encodeValue

def encode (header : Header) (options : HPackOptions) : Option (HPacker × Bytes) :=
  let index :=
    if options.indexPolicy = .neverIndexHeader then 0
    else firstPositive (packer.findHeaderFromIndexTable header) 0
  if index ≠ 0 then some (packer, encodeInteger 0x80 7 index)
  else
    let nameIndex := packer.findNameFromIndexTable header.name
    let added :=
      if options.indexPolicy = .indexHeader then packer.encodeTable.addHeader header
      else some packer.encodeTable
    added.map fun encodeTable =>
      ({ packer with encodeTable := encodeTable }, encodeLiteral nameIndex header options)

def headerAt (index : Nat) : Option Header :=
  if index ≥ packer.decodeTable.startIndex then packer.decodeTable.headerAt index
  else staticTable.headerAt index

/-- The name of a literal: that at the index, or the string that follows. -/
def decodeName (index : Nat) (source : Bytes) : Parsed Bytes :=
  if index ≠ 0 then
    match packer.headerAt index with
    | some header => .parsed 0 header.name source
    | none => .malformed
  else
    match decodeString source with
    | .parsed nameBytes name rest => .parsed nameBytes (lower name) rest
    | .incomplete _ | .malformed => .malformed

/-- `DecodeWithKnownPrefix`. A literal that ends too early is malformed here. -/
def decodeWithKnownPrefix (source : Bytes) (prefixSize : Nat) : Parsed Header :=
  match decodeInteger source prefixSize with
  | .incomplete _ | .malformed => .malformed
  | .parsed indexBytes index rest =>
      match packer.decodeName index rest with
      | .incomplete _ | .malformed => .malformed
      | .parsed nameBytes name rest =>
          match decodeString rest with
          | .incomplete _ | .malformed => .malformed
          | .parsed valueBytes value rest =>
              .parsed (indexBytes + nameBytes + valueBytes) ⟨name, value⟩ rest

def decodeIndexed (source : Bytes) : Parsed Header :=
  match decodeInteger source 7 with
  | .malformed => .malformed
  | .incomplete rest => .incomplete rest
  | .parsed indexBytes index rest =>
      match packer.headerAt index with
      | none => .malformed
      | some header => .parsed indexBytes header rest

/-- The addition of a literal to the table of the decoder. -/
def addDecoded : Parsed Header → Option (HPacker × Parsed Header)
  | .incomplete _ | .malformed => some (packer, .malformed)
  | .parsed consumed header rest =>
      (packer.decodeTable.addHeader header).map fun decodeTable =>
        ({ packer with decodeTable := decodeTable }, .parsed consumed header rest)

end

/-- `HPacker::Decode`, which calls itself after an update of the size. The bytes of the
update are not in the number it returns. -/
def decodeTurns : Nat → HPacker → Bytes → Option (HPacker × Parsed Header)
  | 0, packer, source => some (packer, .incomplete source)
  | _ + 1, packer, [] => some (packer, .incomplete [])
  | turns + 1, packer, firstByte :: tail =>
      let source := firstByte :: tail
      match representation firstByte with
      | .indexed => some (packer, packer.decodeIndexed source)
      | .incremental => packer.addDecoded (packer.decodeWithKnownPrefix source 6)
      | .literal => some (packer, packer.decodeWithKnownPrefix source 4)
      | .sizeUpdate =>
          match decodeInteger source 5 with
          | .malformed => some (packer, .malformed)
          | .incomplete rest => some (packer, .incomplete rest)
          | .parsed _ maxSize rest =>
              if maxSize > defaultHeaderTableSize then some (packer, .malformed)
              else
                (packer.decodeTable.resetMaxSize maxSize).bind fun decodeTable =>
                  decodeTurns turns { packer with decodeTable := decodeTable } rest

/-- `Decode`. Every call takes some bytes, so the calls are no more than the bytes. -/
def decode (packer : HPacker) (source : Bytes) : Option (HPacker × Parsed Header) :=
  decodeTurns (source.length + 1) packer source

end HPacker

end CodeReading.Brpc
