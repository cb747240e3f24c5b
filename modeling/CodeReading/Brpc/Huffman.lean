import CodeReading.Brpc.HpackTables
import Mathlib.Data.List.Basic

/-!
# Huffman codes

The encoder writes the codes of the bytes one after the other, from the highest bit on, and
fills the last byte with ones. The decoder goes down a tree of the codes, bit by bit, whose nodes
are kept in a vector and name their children by their ids. It accepts less than a byte of
padding, which must be ones.

Both are functions of the bits: those the encoder has written are the concatenated codes,
and the decoder reads them in the same order. That the vector holds the tree of the codes, where
a code leads to its own byte, is checked once for the whole table.
-/

namespace CodeReading.Brpc

open List Option Nat

/-- The lowest bits of a number, from the highest on. -/
def bits : Nat → Nat → List Bool
  | 0, _ => []
  | width + 1, number => number.testBit width :: bits width number

def bitsOf (buffer : Bytes) : List Bool := buffer.flatMap fun byte => bits 8 byte.toNat

/-- What `HuffmanTree` is for. A child that is missing is `NULL_NODE`, a value that is missing
`INVALID_VALUE`. -/
inductive HuffmanTree where
  | null
  | node (value : Option Nat) (left right : HuffmanTree)
deriving DecidableEq

open HuffmanTree

namespace HuffmanTree

/-- A node where there is none. -/
def alloc : HuffmanTree → HuffmanTree
  | null => node none null null
  | node value left right => node value left right

/-- A leaf at the end of a path, undefined where another leaf is in the way. -/
def addLeafNode (value : Nat) : List Bool → HuffmanTree → Option HuffmanTree
  | [], tree =>
      match tree.alloc with
      | node none null null => some (node (some value) null null)
      | _ => none
  | bit :: rest, tree =>
      match tree.alloc with
      | node none left right =>
          if bit then (addLeafNode value rest right).map (node none left)
          else (addLeafNode value rest left).map fun left => node none left right
      | _ => none

/-- The leaves of consecutive values. -/
def addLeafNodes : Nat → List HuffmanCode → HuffmanTree → Option HuffmanTree
  | _, [], tree => some tree
  | value, code :: rest, tree =>
      (tree.addLeafNode value (bits code.bitLen code.code)).bind (addLeafNodes (value + 1) rest)

end HuffmanTree

def huffmanTree : HuffmanTree :=
  (HuffmanTree.addLeafNodes 0 huffmanTable (.node none .null .null)).getD .null

structure HuffmanNode where
  leftChild : Nat
  rightChild : Nat
  value : Option Nat

namespace HuffmanNode

def child (node : HuffmanNode) (bit : Bool) : Nat :=
  if bit then node.rightChild else node.leftChild

/-- Two `uint16_t` and an `int32_t`, which is `INVALID_VALUE` where there is no value. -/
def word (node : HuffmanNode) : Nat :=
  node.leftChild + node.rightChild * 2 ^ 16 + node.value.getD (2 ^ 31 - 1) * 2 ^ 32

def ofWord (word : Nat) : HuffmanNode where
  leftChild := word % 2 ^ 16
  rightChild := word / 2 ^ 16 % 2 ^ 16
  value := if word / 2 ^ 32 = 2 ^ 31 - 1 then none else some (word / 2 ^ 32)

end HuffmanNode

/-- `_node_memory`, with 64 bits of a number for each node, which makes it cheap to evaluate. The
ids go from `1` to the size; `0` is `NULL_NODE`. -/
structure NodeMemory where
  size : Nat
  words : Nat

namespace NodeMemory

def word (memory : NodeMemory) (id : Nat) : Nat := memory.words >>> (64 * id) % 2 ^ 64

def node (memory : NodeMemory) (id : Nat) : Option HuffmanNode :=
  if id = 0 ∨ memory.size < id then none else some (.ofWord (memory.word id))

def setNode (memory : NodeMemory) (id : Nat) (node : HuffmanNode) : NodeMemory :=
  { memory with words := memory.words ^^^ (memory.word id ^^^ node.word) <<< (64 * id) }

/-- The id is a `uint16_t`. -/
def allocNode (memory : NodeMemory) : Nat × NodeMemory :=
  let grown := memory.size + 1
  (grown % 2 ^ 16, setNode { memory with size := grown } grown ⟨0, 0, none⟩)

/-- The loop of `AddLeafNode` and what follows it, undefined where a `CHECK` fails or an id is not
in the vector. -/
def addLeafNode (value : Nat) : List Bool → Nat → NodeMemory → Option NodeMemory
  | [], cur, memory =>
      match memory.node cur with
      | some ⟨0, 0, none⟩ => some (memory.setNode cur ⟨0, 0, some value⟩)
      | _ => none
  | bit :: rest, cur, memory =>
      match memory.node cur with
      | some ⟨left, right, none⟩ =>
          match if bit then right else left with
          | 0 =>
              match memory.allocNode with
              | (0, _) => none
              | (newId + 1, grown) =>
                  addLeafNode value rest (newId + 1) (grown.setNode cur
                    (if bit then ⟨left, newId + 1, none⟩ else ⟨newId + 1, right, none⟩))
          | child + 1 => addLeafNode value rest (child + 1) memory
      | _ => none

def addLeafNodes : Nat → List HuffmanCode → NodeMemory → Option NodeMemory
  | _, [], memory => some memory
  | value, code :: rest, memory =>
      (addLeafNode value (bits code.bitLen code.code) 1 memory).bind (addLeafNodes (value + 1) rest)

/-- The nodes from an id on are those of the tree. -/
def holds (memory : NodeMemory) : HuffmanTree → Nat → Bool
  | null, id => id = 0
  | .node value left right, id =>
      match memory.node id with
      | some node => node.value = value && memory.holds left node.leftChild &&
          memory.holds right node.rightChild
      | none => false

end NodeMemory

/-- `s_huffman_tree`. -/
def nodeMemory : NodeMemory :=
  (NodeMemory.addLeafNodes 0 huffmanTable (NodeMemory.allocNode ⟨0, 0⟩).2).getD ⟨0, 0⟩

-- The tree is only evaluated as a whole; a proof should not try to unfold it.
attribute [irreducible] huffmanTree nodeMemory

section

structure HuffmanEncoder where
  out : Bytes
  partialByte : Nat
  remainBit : Nat

def huffmanCode (byte : UInt8) : HuffmanCode := huffmanTable.getD byte.toNat ⟨0, 0⟩

namespace HuffmanEncoder

def start : HuffmanEncoder := ⟨[], 0, 8⟩

/-- The loop of `Encode`, which takes at least one bit in a turn. -/
def encodeBits (code : Nat) : Nat → Nat → HuffmanEncoder → HuffmanEncoder
  | 0, _, encoder => encoder
  | turns + 1, bitsLeft, encoder =>
      if bitsLeft = 0 then encoder
      else
        let adding := min encoder.remainBit bitsLeft
        let addingBits := ((code &&& (2 ^ bitsLeft - 1)) >>> (bitsLeft - adding)) % 2 ^ 8
        let partialByte := encoder.partialByte ||| addingBits <<< (encoder.remainBit - adding)
        let remainBit := encoder.remainBit - adding
        encodeBits code turns (bitsLeft - adding)
          (if remainBit = 0 then ⟨encoder.out ++ [UInt8.ofNat partialByte], 0, 8⟩
          else ⟨encoder.out, partialByte, remainBit⟩)

def encode (encoder : HuffmanEncoder) (byte : UInt8) : HuffmanEncoder :=
  let code := huffmanCode byte
  encodeBits code.code code.bitLen code.bitLen encoder

/-- `EndStream`, with all that has been written. -/
def endStream (encoder : HuffmanEncoder) : Bytes :=
  if encoder.remainBit = 8 then encoder.out
  else encoder.out ++ [UInt8.ofNat (encoder.partialByte ||| (1 <<< encoder.remainBit - 1))]

end HuffmanEncoder

def huffmanEncode (text : Bytes) : Bytes :=
  (text.foldl HuffmanEncoder.encode .start).endStream

end

section

structure HuffmanDecoder where
  out : Bytes
  curNode : Nat
  curDepth : Nat
  padding : Bool

namespace HuffmanDecoder

/-- The decoder at the root, after some output. -/
def atRoot (out : Bytes) : HuffmanDecoder := ⟨out, 1, 0, true⟩

/-- One bit in the loop of `Decode`. -/
def decodeBit (decoder : HuffmanDecoder) (bit : Bool) : Option HuffmanDecoder :=
  (nodeMemory.node decoder.curNode).bind fun cur =>
    (nodeMemory.node (cur.child bit)).bind fun node =>
      match node.value with
      | some value =>
          if value = huffmanEos then none else some (atRoot (decoder.out ++ [UInt8.ofNat value]))
      | none =>
          some ⟨decoder.out, cur.child bit, decoder.curDepth + 1, decoder.padding && bit⟩

def decodeBits (decoder : HuffmanDecoder) : List Bool → Option HuffmanDecoder
  | [] => some decoder
  | bit :: rest => (decoder.decodeBit bit).bind fun next => next.decodeBits rest

/-- `Decode` on every byte. -/
def decode (decoder : HuffmanDecoder) : Bytes → Option HuffmanDecoder
  | [] => some decoder
  | byte :: rest => (decoder.decodeBits (bits 8 byte.toNat)).bind fun next => next.decode rest

def endStream (decoder : HuffmanDecoder) : Option Bytes :=
  if decoder.curDepth = 0 ∨ decoder.curDepth ≤ 7 ∧ decoder.padding then some decoder.out else none

end HuffmanDecoder

def huffmanDecode (buffer : Bytes) : Option Bytes :=
  ((HuffmanDecoder.atRoot []).decode buffer).bind HuffmanDecoder.endStream

end

section

theorem bits_length (width number : Nat) : (bits width number).length = width := by
  induction width with
  | zero => rfl
  | succ width ih => rw [bits, length_cons, ih]

theorem bits_congr (same : ∀ position < width, left.testBit position = right.testBit position) :
    bits width left = bits width right := by
  induction width with
  | zero => rfl
  | succ width ih =>
    rw [bits, bits, same width (lt_succ_self width),
      ih fun position inside => same position (lt_succ_of_lt inside)]

theorem bits_split (upper lower number : Nat) :
    bits (upper + lower) number = bits upper (number / 2 ^ lower) ++ bits lower number := by
  induction upper with
  | zero => rw [zero_add]; rfl
  | succ upper ih =>
    rw [succ_add, bits, bits, testBit_div_two_pow, ih]
    rfl

theorem bits_join (fits : added < 2 ^ lower) :
    bits (upper + lower) (value * 2 ^ lower + added) = bits upper value ++ bits lower added := by
  rw [bits_split, Nat.mul_comm, Nat.mul_add_div (by omega),
    div_eq_of_lt fits, add_zero]
  congr 1
  apply bits_congr
  intro _ inside
  rw [testBit_two_pow_mul_add _ fits, if_pos inside]

theorem bits_ones (width : Nat) : bits width (2 ^ width - 1) = replicate width true := by
  suffices holds : ∀ narrow ≤ width, bits narrow (2 ^ width - 1) = replicate narrow true from
    holds width le_rfl
  intro narrow
  induction narrow with
  | zero => intro _; rfl
  | succ narrow ih =>
    intro inside
    have set : (2 ^ width - 1).testBit narrow = true := by
      rw [testBit_two_pow_sub_one]
      exact decide_eq_true inside
    rw [bits, set, ih (le_of_succ_le inside), replicate_succ]

end

section

open HuffmanEncoder

variable {encoder : HuffmanEncoder} {stream : List Bool}

/-- The encoder has written the bits, the last of them into its partial byte. -/
structure Written (encoder : HuffmanEncoder) (stream : List Bool) : Prop where
  room : 0 < encoder.remainBit
  byte : encoder.remainBit ≤ 8
  held : ∃ value, value < 2 ^ (8 - encoder.remainBit) ∧
    encoder.partialByte = value * 2 ^ encoder.remainBit ∧
    bitsOf encoder.out ++ bits (8 - encoder.remainBit) value = stream

theorem bitsOf_append (left right : Bytes) : bitsOf (left ++ right) = bitsOf left ++ bitsOf right :=
  flatMap_append

/-- What a turn of the loop takes from the code are its highest remaining bits. -/
theorem adding_eq (code : Nat) (some : adding ≤ bitsLeft) (narrow : adding ≤ 8) :
    ((code &&& (2 ^ bitsLeft - 1)) >>> (bitsLeft - adding)) % 2 ^ 8 < 2 ^ adding ∧
      bits adding (((code &&& (2 ^ bitsLeft - 1)) >>> (bitsLeft - adding)) % 2 ^ 8) =
        bits adding (code / 2 ^ (bitsLeft - adding)) := by
  have small : code % 2 ^ bitsLeft / 2 ^ (bitsLeft - adding) < 2 ^ adding := by
    rw [Nat.div_lt_iff_lt_mul (Nat.two_pow_pos _), ← Nat.pow_add, Nat.add_sub_cancel' some]
    omega
  have wide : 2 ^ adding ≤ 2 ^ 8 := Nat.pow_le_pow_right (by omega) narrow
  rw [Nat.and_two_pow_sub_one_eq_mod, Nat.shiftRight_eq_div_pow, mod_eq_of_lt (small.trans_le wide)]
  refine ⟨small, bits_congr ?_⟩
  intro position _
  rw [testBit_div_two_pow, testBit_div_two_pow, testBit_mod_two_pow]
  have below : position + (bitsLeft - adding) < bitsLeft := by omega
  rw [decide_eq_true below, Bool.true_and]

/-- The new bits go below those of the partial byte. -/
theorem partial_eq (room : adding ≤ remain) (fits : added < 2 ^ adding) :
    value * 2 ^ remain ||| added <<< (remain - adding) =
      (value * 2 ^ adding + added) * 2 ^ (remain - adding) := by
  have whole : 2 ^ remain = 2 ^ adding * 2 ^ (remain - adding) := by
    rw [← Nat.pow_add, Nat.add_sub_cancel' room]
  have below : added * 2 ^ (remain - adding) < 2 ^ remain := by
    rw [whole]
    exact Nat.mul_lt_mul_of_pos_right fits (Nat.two_pow_pos _)
  rw [shiftLeft_eq, mul_comm value, ← two_pow_add_eq_or_of_lt below, whole,
    add_mul, mul_comm (2 ^ adding * _) value, mul_assoc]

theorem encodeBits_written (code turns bitsLeft : Nat) (written : Written encoder stream)
    (enough : bitsLeft ≤ turns) :
    Written (encodeBits code turns bitsLeft encoder)
      (stream ++ bits bitsLeft code) := by
  induction turns generalizing bitsLeft encoder stream with
  | zero =>
    obtain rfl : bitsLeft = 0 := le_zero.mp enough
    simpa [encodeBits, bits] using written
  | succ turns ih =>
    rw [encodeBits]
    split
    · rename_i none
      rw [none]
      simpa [bits] using written
    · rename_i some
      obtain ⟨_, _, value, small, isPartial, isStream⟩ := written
      obtain ⟨adding, isAdding⟩ : ∃ adding, adding = min encoder.remainBit bitsLeft := ⟨_, rfl⟩
      have addsLeft : adding ≤ bitsLeft := by omega
      have addsRoom : adding ≤ encoder.remainBit := by omega
      obtain ⟨fits, addedBits⟩ := adding_eq code addsLeft (by omega)
      simp only [← isAdding]
      generalize ((code &&& (2 ^ bitsLeft - 1)) >>> (bitsLeft - adding)) % 2 ^ 8 = added
        at fits addedBits ⊢
      rw [isPartial, partial_eq addsRoom fits]
      -- The bits of the code that are left when these are gone.
      have rest : bits bitsLeft code = bits adding added ++ bits (bitsLeft - adding) code := by
        rw [addedBits, ← bits_split, Nat.add_sub_cancel' addsLeft]
      have wide : 8 - encoder.remainBit + adding = 8 - (encoder.remainBit - adding) := by omega
      have joined : bits (8 - (encoder.remainBit - adding)) (value * 2 ^ adding + added) =
          bits (8 - encoder.remainBit) value ++ bits adding added := by
        rw [← wide, bits_join fits]
      have smallJoined : value * 2 ^ adding + added < 2 ^ (8 - (encoder.remainBit - adding)) := by
        rw [← wide, pow_add]
        calc value * 2 ^ adding + added < value * 2 ^ adding + 2 ^ adding := by omega
          _ = (value + 1) * 2 ^ adding := by rw [add_mul, one_mul]
          _ ≤ 2 ^ (8 - encoder.remainBit) * 2 ^ adding := mul_le_mul_right _ small
      rw [rest, ← append_assoc]
      apply ih _ _ (by omega)
      split
      · rename_i full
        rw [full] at joined smallJoined ⊢
        refine ⟨Nat.succ_pos _, le_rfl, 0, Nat.two_pow_pos _, rfl, ?_⟩
        have whole : UInt8.toNat (UInt8.ofNat ((value * 2 ^ adding + added) * 2 ^ 0)) =
            value * 2 ^ adding + added := by
          rw [pow_zero, mul_one, UInt8.toNat_ofNat']
          exact mod_eq_of_lt smallJoined
        rw [bitsOf_append, ← isStream, append_assoc, append_assoc]
        congr 1
        simp only [bitsOf, flatMap_cons, flatMap_nil, append_nil, whole]
        exact joined
      · refine ⟨by simp only; omega, by simp only; omega, _, smallJoined, rfl, ?_⟩
        rw [joined, ← append_assoc, isStream]

def codeBits (byte : UInt8) : List Bool := bits (huffmanCode byte).bitLen (huffmanCode byte).code

theorem foldl_written (text : Bytes) (written : Written encoder stream) :
    Written (text.foldl encode encoder) (stream ++ text.flatMap codeBits) := by
  induction text generalizing encoder stream with
  | nil => simpa using written
  | cons byte text ih =>
    have next := encodeBits_written (huffmanCode byte).code (huffmanCode byte).bitLen
      (huffmanCode byte).bitLen written le_rfl
    rw [foldl_cons, flatMap_cons, ← append_assoc]
    exact ih next

/-- What is written for a string: the codes of its bytes, and less than a byte of ones. -/
theorem huffmanEncode_bits (text : Bytes) :
    ∃ pad ≤ 7, bitsOf (huffmanEncode text) = text.flatMap codeBits ++ replicate pad true := by
  have start : Written .start [] := ⟨by decide, le_rfl, 0, by decide, rfl, rfl⟩
  obtain ⟨_, _, value, small, isPartial, isStream⟩ := foldl_written text start
  rw [nil_append] at isStream
  rw [huffmanEncode, endStream]
  generalize text.foldl encode .start = encoder at *
  split
  · rename_i none
    refine ⟨0, by decide, ?_⟩
    rw [← isStream, none]
    simp [bits]
  · rename_i some
    refine ⟨encoder.remainBit, by omega, ?_⟩
    have ones : 2 ^ encoder.remainBit - 1 < 2 ^ encoder.remainBit :=
      Nat.sub_lt (Nat.two_pow_pos _) (by decide)
    let filled := value * 2 ^ encoder.remainBit + (2 ^ encoder.remainBit - 1)
    have padded : encoder.partialByte ||| (1 <<< encoder.remainBit - 1) = filled := by
      rw [isPartial, shiftLeft_eq, one_mul, mul_comm value, ← two_pow_add_eq_or_of_lt ones, mul_comm]
    have wide : 8 - encoder.remainBit + encoder.remainBit = 8 := by omega
    have fits : filled < 2 ^ 8 := by
      rw [← wide, pow_add]
      calc filled
          < value * 2 ^ encoder.remainBit + 2 ^ encoder.remainBit := by omega
        _ = (value + 1) * 2 ^ encoder.remainBit := by rw [add_mul, one_mul]
        _ ≤ 2 ^ (8 - encoder.remainBit) * 2 ^ encoder.remainBit := mul_le_mul_right _ small
    have last : bits (8 - encoder.remainBit + encoder.remainBit) filled =
        bits (8 - encoder.remainBit) value ++ bits encoder.remainBit (2 ^ encoder.remainBit - 1) :=
      bits_join ones
    rw [wide, bits_ones] at last
    rw [bitsOf_append, padded, ← isStream, append_assoc]
    simp only [bitsOf, flatMap_cons, flatMap_nil, append_nil,
      UInt8.toNat_ofNat', mod_eq_of_lt fits, last]

end

section

namespace HuffmanTree

/-- The bits lead through inner nodes to the leaf of the value. -/
def leadsTo (value : Nat) : List Bool → HuffmanTree → Bool
  | [], node (some found) _ _ => found == value
  | bit :: rest, node none left right => leadsTo value rest (if bit then right else left)
  | _, _ => false

/-- So many ones lead only through inner nodes. -/
def leadsOn : Nat → HuffmanTree → Bool
  | 0, node none _ _ => true
  | ones + 1, node none _ right => leadsOn ones right
  | _, _ => false

end HuffmanTree

namespace HuffmanTree

variable {tree : HuffmanTree}

theorem leadsTo_nil (leads : tree.leadsTo value [] = true) :
    ∃ left right, tree = node (some value) left right := by
  cases tree with
  | null => cases leads
  | node found left right =>
    cases found with
    | none => cases leads
    | some found => exact ⟨left, right, by rw [eq_of_beq leads]⟩

theorem leadsTo_cons {bit : Bool} (leads : tree.leadsTo value (bit :: rest) = true) :
    ∃ left right, tree = node none left right ∧
      (if bit then right else left).leadsTo value rest = true := by
  cases tree with
  | null => cases leads
  | node found left right =>
    cases found with
    | none => exact ⟨left, right, rfl, leads⟩
    | some found => cases leads

theorem leadsOn_succ (leads : tree.leadsOn (ones + 1) = true) :
    ∃ left right, tree = node none left right ∧ right.leadsOn ones = true := by
  cases tree with
  | null => cases leads
  | node found left right =>
    cases found with
    | none => exact ⟨left, right, rfl, leads⟩
    | some found => cases leads

theorem leadsOn_inner (leads : tree.leadsOn ones = true) :
    ∃ left right, tree = node none left right := by
  cases tree with
  | null =>
    cases ones with
    | zero | succ _ => cases leads
  | node found left right =>
    cases found with
    | none => exact ⟨left, right, rfl⟩
    | some found =>
      cases ones with
      | zero | succ _ => cases leads

end HuffmanTree

/-- The code of every byte, and of the end of the string, leads to its leaf. -/
theorem huffmanTable_leads : (huffmanTable.zipIdx.all fun code =>
    huffmanTree.leadsTo code.2 (bits code.1.bitLen code.1.code)) = true := by
  decide +kernel

theorem huffmanTree_leadsOn : ∀ pad ≤ 7, huffmanTree.leadsOn pad = true := by
  decide +kernel

theorem huffmanTable_length : huffmanTable.length = 257 := by
  decide +kernel

theorem codeBits_leads (byte : UInt8) : huffmanTree.leadsTo byte.toNat (codeBits byte) = true := by
  have inside : byte.toNat < huffmanTable.length := by
    have bound := byte.toNat_lt
    rw [huffmanTable_length]
    omega
  have all := all_eq_true.mp huffmanTable_leads
    (huffmanTable.get ⟨byte.toNat, inside⟩, byte.toNat)
    (mem_zipIdx_iff_getElem?.mpr (getElem?_eq_getElem inside))
  rw [codeBits, huffmanCode, getD_eq_getElem?_getD, getElem?_eq_getElem inside]
  exact all

theorem nodeMemory_holds : nodeMemory.holds huffmanTree 1 = true := by
  decide +kernel

namespace NodeMemory

variable {memory : NodeMemory} {id : Nat} {value : Option Nat} {left right : HuffmanTree}

theorem holds_node (holds : memory.holds (.node value left right) id = true) :
    ∃ node, memory.node id = some node ∧ node.value = value ∧
      ∀ bit, memory.holds (if bit then right else left) (node.child bit) = true := by
  rw [NodeMemory.holds] at holds
  split at holds
  · next node isNode =>
    simp only [Bool.and_eq_true, decide_eq_true_eq] at holds
    refine ⟨node, isNode, holds.1.1, ?_⟩
    rintro (_ | _)
    exacts [holds.1.2, holds.2]
  · cases holds

theorem node_inside {node : HuffmanNode} (isNode : memory.node id = some node) :
    1 ≤ id ∧ id ≤ memory.size := by
  rw [NodeMemory.node] at isNode
  split at isNode
  · cases isNode
  · omega

end NodeMemory

variable {decoder : HuffmanDecoder}

open HuffmanDecoder

/-- The decoder is at the root of a tree. -/
def HuffmanDecoder.At (decoder : HuffmanDecoder) (tree : HuffmanTree) : Prop :=
  nodeMemory.holds tree decoder.curNode = true

/-- One bit, by the subtree that it leads to. -/
theorem decodeBit_at {found : Option Nat} {left right : HuffmanTree}
    (here : decoder.At (node found left right)) (bit : Bool) :
    match if bit then right else left with
    | null => decoder.decodeBit bit = none
    | node (some value) _ _ => decoder.decodeBit bit =
        if value = huffmanEos then none else some (atRoot (decoder.out ++ [UInt8.ofNat value]))
    | node none below above => ∃ next, decoder.decodeBit bit = some next ∧
        next.At (node none below above) ∧ next.out = decoder.out ∧
        next.curDepth = decoder.curDepth + 1 ∧ next.padding = (decoder.padding && bit) := by
  obtain ⟨cur, isCur, _, children⟩ := NodeMemory.holds_node here
  have below := children bit
  simp only [decodeBit, isCur, bind_some]
  generalize (if bit then right else left) = child at below
  match child with
  | null =>
    rw [show cur.child bit = 0 by simpa [NodeMemory.holds] using below]
    rfl
  | .node (some value) _ _ =>
    obtain ⟨_, isThere, isValue, _⟩ := NodeMemory.holds_node below
    simp only [isThere, bind_some, isValue]
  | .node none _ _ =>
    obtain ⟨_, isThere, isValue, _⟩ := NodeMemory.holds_node below
    simp only [isThere, bind_some, isValue]
    exact ⟨_, rfl, below, rfl, rfl, rfl⟩

theorem decodeBits_append (left right : List Bool) :
    decoder.decodeBits (left ++ right) =
      (decoder.decodeBits left).bind fun next => next.decodeBits right := by
  induction left generalizing decoder with
  | nil => rfl
  | cons bit left ih =>
    rw [cons_append, decodeBits, decodeBits, bind_assoc]
    congr 1
    funext next
    exact ih

theorem decode_bits (buffer : Bytes) : decoder.decode buffer = decoder.decodeBits (bitsOf buffer) := by
  induction buffer generalizing decoder with
  | nil => rfl
  | cons byte buffer ih =>
    rw [decode, bitsOf, flatMap_cons, decodeBits_append]
    congr 1
    funext next
    exact ih

theorem decodeBits_leads (notEos : value ≠ huffmanEos) {bit : Bool} (here : decoder.At tree)
    (leads : tree.leadsTo value (bit :: rest) = true) :
    decoder.decodeBits (bit :: rest) = some (.atRoot (decoder.out ++ [UInt8.ofNat value])) := by
  induction rest generalizing decoder tree bit with
  | nil =>
    obtain ⟨left, right, rfl, leadsChild⟩ := leadsTo_cons leads
    obtain ⟨_, _, isLeaf⟩ := leadsTo_nil leadsChild
    have step := decodeBit_at here bit
    rw [isLeaf] at step
    simp [decodeBits, step, if_neg notEos]
  | cons next rest ih =>
    obtain ⟨left, right, rfl, leadsChild⟩ := leadsTo_cons leads
    obtain ⟨_, _, isInner, _⟩ := leadsTo_cons leadsChild
    have step := decodeBit_at here bit
    rw [isInner] at step leadsChild
    obtain ⟨below, taken, there, out, _⟩ := step
    rw [decodeBits, taken, bind_some, ← out]
    exact ih there leadsChild

theorem decodeBits_code (out : Bytes) (byte : UInt8) :
    (atRoot out).decodeBits (codeBits byte) = some (.atRoot (out ++ [byte])) := by
  have leads := codeBits_leads byte
  have notEos : byte.toNat ≠ huffmanEos := by
    have bound := byte.toNat_lt
    rw [huffmanEos]
    omega
  cases isCode : codeBits byte with
  | nil =>
    rw [isCode] at leads
    obtain ⟨_, _, isLeaf⟩ := leadsTo_nil leads
    have inner := huffmanTree_leadsOn 0 (by decide)
    rw [isLeaf] at inner
    cases inner
  | cons bit rest =>
    rw [isCode] at leads
    have read : (atRoot out).decodeBits (bit :: rest) =
        some (.atRoot (out ++ [UInt8.ofNat byte.toNat])) :=
      decodeBits_leads notEos nodeMemory_holds leads
    rw [read, UInt8.ofNat_toNat]

section

variable (text : Bytes)

theorem decodeBits_text (out : Bytes) :
    (atRoot out).decodeBits (text.flatMap codeBits) = some (.atRoot (out ++ text)) := by
  induction text generalizing out with
  | nil => rw [append_nil]; rfl
  | cons byte text ih =>
    rw [flatMap_cons, decodeBits_append, decodeBits_code, bind_some, ih, append_assoc]
    rfl

theorem decodeBits_ones (ones : Nat) (here : decoder.At tree) (leads : tree.leadsOn ones = true)
    (padding : decoder.padding = true) :
    ∃ next, decoder.decodeBits (replicate ones true) = some next ∧ next.out = decoder.out ∧
      next.curDepth = decoder.curDepth + ones ∧ next.padding = true := by
  induction ones generalizing decoder tree with
  | zero => exact ⟨decoder, rfl, rfl, rfl, padding⟩
  | succ ones ih =>
    obtain ⟨_, _, rfl, leadsRight⟩ := leadsOn_succ leads
    obtain ⟨_, _, rfl⟩ := leadsOn_inner leadsRight
    obtain ⟨below, taken, there, belowOut, belowDepth, belowPadding⟩ := decodeBit_at here true
    obtain ⟨next, ran, out, _, pads⟩ := ih there leadsRight (by rw [belowPadding, padding]; rfl)
    refine ⟨next, ?_, out.trans belowOut, by omega, pads⟩
    rw [replicate_succ, decodeBits, taken, bind_some, ran]

theorem huffmanDecode_encode : huffmanDecode (huffmanEncode text) = some text := by
  obtain ⟨pad, few, stream⟩ := huffmanEncode_bits text
  have root : (atRoot text).At huffmanTree := nodeMemory_holds
  obtain ⟨_, ran, out, depth, padding⟩ := decodeBits_ones pad root (huffmanTree_leadsOn pad few) rfl
  rw [huffmanDecode, decode_bits, stream, decodeBits_append, decodeBits_text, nil_append,
    bind_some, ran, bind_some, endStream, if_pos, out]
  · rfl
  · refine Or.inr ⟨?_, padding⟩
    rw [depth]
    exact (zero_add _).trans_le few

/-- The number of bits that the codes of a string have. -/
def bitLength : Nat := (text.map fun byte => (huffmanCode byte).bitLen).sum

/-- The longest codes have 30 bits. -/
theorem bitLength_le : bitLength text ≤ 30 * text.length := by
  have longest : (huffmanTable.all fun code => decide (code.bitLen ≤ 30)) = true := by
    decide +kernel
  induction text with
  | nil => exact le_rfl
  | cons byte text ih =>
    have bounded : (huffmanCode byte).bitLen ≤ 30 := by
      have inside : byte.toNat < huffmanTable.length := by
        have bound := byte.toNat_lt
        rw [huffmanTable_length]
        omega
      rw [huffmanCode, getD_eq_getElem?_getD, getElem?_eq_getElem inside]
      exact of_decide_eq_true (all_eq_true.mp longest _ (getElem_mem inside))
    rw [bitLength, map_cons, sum_cons, ← bitLength, length_cons]
    omega

theorem bitsOf_length (buffer : Bytes) : (bitsOf buffer).length = 8 * buffer.length := by
  induction buffer with
  | nil => rfl
  | cons byte buffer ih =>
    rw [bitsOf, flatMap_cons, length_append, bits_length, length_cons, ← bitsOf, ih]
    omega

theorem flatMap_codeBits_length : (text.flatMap codeBits).length = bitLength text := by
  rw [length_flatMap, bitLength]
  congr 2
  funext byte
  exact bits_length _ _

theorem huffmanEncode_length : (huffmanEncode text).length =
      bitLength text / 8 + if bitLength text % 8 = 0 then 0 else 1 := by
  obtain ⟨_, _, stream⟩ := huffmanEncode_bits text
  have lengths := congrArg length stream
  rw [bitsOf_length, length_append, flatMap_codeBits_length, length_replicate] at lengths
  split
  · omega
  · omega

end

namespace HuffmanTree

/-- The node that a bit leads to. -/
def child : HuffmanTree → Bool → HuffmanTree
  | null, _ => null
  | node _ left right, bit => if bit then right else left

/-- Below a path, every leaf but that of the end of the string has its code as its path. -/
def named : HuffmanTree → List Bool → Bool
  | null, _ => true
  | node value left right, path =>
      value.all (fun value => value = huffmanEos ∨ path = codeBits (UInt8.ofNat value)) &&
        left.named (path ++ [false]) && right.named (path ++ [true])

theorem named_leaf
    (all : tree.named before = true) (leaf : path.foldl child tree = node (some value) left right) :
    value = huffmanEos ∨ before ++ path = codeBits (UInt8.ofNat value) := by
  induction path generalizing tree before with
  | nil =>
    rw [foldl_nil] at leaf
    rw [leaf, named] at all
    simpa using (Bool.and_eq_true_iff.mp (Bool.and_eq_true_iff.mp all).1).1
  | cons bit path ih =>
    rw [← singleton_append, ← append_assoc]
    cases tree with
    | null => exact ih (show null.named (before ++ [bit]) = true from rfl) leaf
    | node found below above =>
      obtain ⟨rest, right⟩ := Bool.and_eq_true_iff.mp all
      obtain ⟨-, left⟩ := Bool.and_eq_true_iff.mp rest
      cases bit with
      | false => exact ih left leaf
      | true => exact ih right leaf

end HuffmanTree

theorem huffmanTree_named : huffmanTree.named [] = true := by
  decide +kernel

/-- The decoder has read whole codes and stands at the inner node that the bits behind them lead
to. -/
structure Stands (decoder : HuffmanDecoder) (stream path : List Bool) : Prop where
  stream : stream = decoder.out.flatMap codeBits ++ path
  node : decoder.At (path.foldl HuffmanTree.child huffmanTree)
  inner : ∃ left right, path.foldl HuffmanTree.child huffmanTree = .node none left right
  depth : decoder.curDepth = path.length
  padding : decoder.padding = path.all id

variable {next : HuffmanDecoder} {bit : Bool}

theorem stands_atRoot (out : Bytes) : Stands (.atRoot out) (out.flatMap codeBits) [] := by
  refine ⟨by simp [atRoot], nodeMemory_holds, ?_, rfl, rfl⟩
  exact leadsOn_inner (huffmanTree_leadsOn 0 (by decide))

theorem decodeBit_stands (stands : Stands decoder stream path)
    (read : decoder.decodeBit bit = some next) : ∃ path, Stands next (stream ++ [bit]) path := by
  obtain ⟨left, right, isNode⟩ := stands.inner
  have walked : (path ++ [bit]).foldl child huffmanTree =
      if bit then right else left := by
    rw [foldl_append, isNode]
    rfl
  have here := stands.node
  rw [isNode] at here
  have step := decodeBit_at here bit
  rw [← walked, read] at step
  split at step
  · cases step
  · rename_i value _ _ isLeaf
    obtain ⟨notEos, isNext⟩ := ite_none_left_eq_some.mp step.symm
    cases isNext
    have code := (named_leaf huffmanTree_named isLeaf).resolve_left notEos
    refine ⟨[], ?_⟩
    have root := stands_atRoot (decoder.out ++ [UInt8.ofNat value])
    rwa [flatMap_append, flatMap_singleton, ← code, nil_append, ← append_assoc,
      ← stands.stream] at root
  · rename_i below above isInner
    obtain ⟨_, ⟨⟩, there, out, depth, padding⟩ := step
    refine ⟨path ++ [bit], ?_, isInner ▸ there, ⟨below, above, isInner⟩, ?_, ?_⟩
    · rw [stands.stream, out, append_assoc]
    · simp [depth, stands.depth]
    · simp [padding, stands.padding]

theorem decodeBits_stands (stands : Stands decoder stream path)
    (read : decoder.decodeBits rest = some next) : ∃ path, Stands next (stream ++ rest) path := by
  induction rest generalizing decoder stream path with
  | nil =>
    cases read
    exact ⟨path, by rwa [append_nil]⟩
  | cons bit rest ih =>
    obtain ⟨_, first, later⟩ := bind_eq_some_iff.mp read
    obtain ⟨path, moved⟩ := decodeBit_stands stands first
    rw [append_cons]
    exact ih moved later

/-- What the decoder accepts are codes with less than a byte of ones. -/
theorem huffmanDecode_bits (read : huffmanDecode buffer = some text) :
    ∃ pad ≤ 7, bitsOf buffer = text.flatMap codeBits ++ replicate pad true := by
  obtain ⟨_, ran, ended⟩ := bind_eq_some_iff.mp read
  rw [decode_bits] at ran
  obtain ⟨path, stands⟩ := decodeBits_stands (stands_atRoot []) ran
  obtain ⟨accepted, isText⟩ := ite_none_right_eq_some.mp ended
  cases isText
  refine ⟨path.length, ?_, ?_⟩
  · rw [← stands.depth]
    omega
  · have ones : path = replicate path.length true := by
      rw [stands.depth, stands.padding] at accepted
      rcases accepted with none | ⟨-, all⟩
      · rw [length_eq_zero_iff.mp none]
        rfl
      · exact eq_replicate_iff.mpr ⟨rfl, by simpa using all⟩
    rw [← ones]
    exact stands.stream

theorem bitsOf_injective (same : bitsOf left = bitsOf right) : left = right := by
  induction left generalizing right with
  | nil =>
    cases right with
    | nil => rfl
    | cons byte right => cases same
  | cons byte left ih =>
    cases right with
    | nil => cases same
    | cons other right =>
      rw [bitsOf, bitsOf, flatMap_cons, flatMap_cons] at same
      obtain ⟨first, rest⟩ := append_inj same (by rw [bits_length, bits_length])
      have read : ∀ byte : UInt8,
          (bits 8 byte.toNat).foldl (fun value bit => 2 * value + bit.toNat) 0 = byte.toNat := by
        have all : ∀ value : Fin 256, (bits 8 value.val).foldl
            (fun value bit => 2 * value + bit.toNat) 0 = value.val := by
          decide +kernel
        exact fun byte => all ⟨byte.toNat, byte.toNat_lt⟩
      have equal : byte.toNat = other.toNat := by rw [← read byte, first, read other]
      rw [UInt8.toNat_inj.mp equal, ih rest]

end

end CodeReading.Brpc
