import CodeReading.Brpc.Huffman
import CodeReading.Brpc.IndexTable

/-!
# Integers and strings of HPACK

An integer begins in the low bits of a byte and goes on in groups of seven bits; a string is
its length and its bytes, which may be Huffman-coded. A reader returns the number of bytes
it consumed, zero when there are too few, and a negative number when they are malformed. It
has moved its iterator in any case.
-/

namespace CodeReading.Brpc

open List Nat UInt8

/-- The result of a reader: a positive number, zero, or a negative number. What is left of
the input is not used any more in the last case. -/
inductive Parsed (Value : Type) where
  | parsed (consumed : Nat) (value : Value) (rest : Bytes)
  | incomplete (rest : Bytes)
  | malformed
deriving DecidableEq, Repr

/-- The loop of `EncodeInteger` on a number of 32 bits, which has at most five turns. -/
def encodeRest : Nat → Nat → Bytes
  | 0, value => [UInt8.ofNat value]
  | turns + 1, value =>
      if value < 128 then [UInt8.ofNat value]
      else (UInt8.ofNat value &&& 0x7f ||| 0x80) :: encodeRest turns (value >>> 7)

/-- `EncodeInteger`. The number is narrowed to 32 bits by the call. -/
def encodeInteger (msb : UInt8) (prefixSize number : Nat) : Bytes :=
  let value := number % 2 ^ 32
  let maxPrefixValue := 2 ^ prefixSize - 1
  if value < maxPrefixValue then [msb ||| UInt8.ofNat value]
  else (msb ||| UInt8.ofNat maxPrefixValue) :: encodeRest 5 (value - maxPrefixValue)

def maxHpackInteger : UInt64 := 10 * 1024 * 1024

/-- The loop of `DecodeInteger`. A shift by 64 or more, which the language leaves undefined,
is taken modulo 64 as by the processor. -/
def decodeRest : Bytes → UInt64 → UInt64 → Nat → Parsed Nat
  | [], _, _, _ => .incomplete []
  | byte :: rest, number, shift, inBytes =>
      let number := number + (byte &&& 0x7f).toUInt64 <<< shift
      if byte &&& 0x80 ≠ 0 ∧ number < maxHpackInteger then
        decodeRest rest number (shift + 7) (inBytes + 1)
      else if number ≥ maxHpackInteger then .malformed
      else .parsed (inBytes + 1) number.toNat rest

def decodeInteger (source : Bytes) (prefixSize : Nat) : Parsed Nat :=
  match source with
  | [] => .incomplete []
  | first :: rest =>
      let number := first &&& UInt8.ofNat (2 ^ prefixSize - 1)
      if number.toNat < 2 ^ prefixSize - 1 then .parsed 1 number.toNat rest
      else decodeRest rest number.toUInt64 0 1

/-- `EncodeString`, which writes a name in lower case. -/
def encodeString (lowercase : Bool) (string : Bytes) (huffmanEncoding : Bool) : Bytes :=
  let text := if lowercase then lower string else string
  if huffmanEncoding then
    let bitLen := bitLength text % 2 ^ 32
    encodeInteger 0x80 7 (bitLen / 8 + if bitLen % 8 = 0 then 0 else 1) ++ huffmanEncode text
  else encodeInteger 0x00 7 string.length ++ text

def decodeString (source : Bytes) : Parsed Bytes :=
  match source with
  | [] => .incomplete []
  | first :: _ =>
      match decodeInteger source 7 with
      | .parsed inBytes length rest =>
          if length > rest.length then .incomplete rest
          else if first &&& 0x80 = 0 then
            .parsed (inBytes + length) (rest.take length) (rest.drop length)
          else
            match huffmanDecode (rest.take length) with
            | some out => .parsed (inBytes + length) out (rest.drop length)
            | none => .malformed
      | .incomplete _ => .malformed
      | .malformed => .malformed

section

/-- A group of seven bits with the mark that another follows. -/
theorem continued_byte (value : Nat) :
    ((ofNat value &&& 0x7f ||| 0x80) &&& 0x7f).toNat = value % 128 ∧
      (ofNat value &&& 0x7f ||| 0x80) &&& 0x80 ≠ 0 := by
  have all : ∀ byte : Fin 256,
      ((ofNat byte &&& 0x7f ||| 0x80) &&& 0x7f).toNat = byte % 128 ∧
        (ofNat byte &&& 0x7f ||| 0x80) &&& 0x80 ≠ 0 := by decide +kernel
  have here := all ⟨value % 256, mod_lt _ (by decide)⟩
  have same : ofNat (value % 256) = ofNat value := by
    apply UInt8.toNat_inj.mp
    rw [UInt8.toNat_ofNat', UInt8.toNat_ofNat', mod_mod]
  rw [same] at here
  refine ⟨here.1.trans ?_, here.2⟩
  exact mod_mod_of_dvd value (by decide)

theorem final_byte (small : value < 128) :
    (ofNat value &&& 0x7f).toNat = value ∧ ofNat value &&& 0x80 = 0 := by
  have all : ∀ byte : Fin 128,
      (ofNat byte &&& 0x7f).toNat = byte ∧ ofNat byte &&& 0x80 = 0 := by
    decide +kernel
  exact all ⟨value, small⟩

theorem shifted_toNat (number shift : UInt64) {byte : UInt8} (isPart : byte.toNat = part)
    (low : shift.toNat < 64) (small : number.toNat + part * 2 ^ shift.toNat < 2 ^ 64) :
    (number + byte.toUInt64 <<< shift).toNat = number.toNat + part * 2 ^ shift.toNat := by
  rw [UInt64.toNat_add, UInt64.toNat_shiftLeft, toNat_toUInt64, isPart,
    mod_eq_of_lt low, shiftLeft_eq, mod_eq_of_lt (a := part * 2 ^ shift.toNat) (by omega),
    mod_eq_of_lt small]

theorem shift_next (shift : UInt64) (low : shift.toNat < 64) :
    (shift + 7).toNat = shift.toNat + 7 := by
  rw [UInt64.toNat_add]
  exact mod_eq_of_lt (by simp; omega)

theorem decodeRest_last {number shift : UInt64} (inBytes : Nat) (rest : Bytes)
    (below : value < 128) (low : shift.toNat < 64)
    (small : number.toNat + value * 2 ^ shift.toNat < maxHpackInteger.toNat) :
    decodeRest (ofNat value :: rest) number shift inBytes =
      .parsed (inBytes + 1) (number.toNat + value * 2 ^ shift.toNat) rest := by
  have narrow : maxHpackInteger.toNat < 2 ^ 64 := by decide
  obtain ⟨part, unmarked⟩ := final_byte below
  have sum := shifted_toNat number shift part low (by omega)
  have within : number + (ofNat value &&& 0x7f).toUInt64 <<< shift < maxHpackInteger := by
    rw [UInt64.lt_iff_toNat_lt, sum]
    exact small
  rw [decodeRest]
  simp only [unmarked, ne_eq, not_true, false_and, if_false, UInt64.not_le.mpr within]
  rw [sum]

theorem decodeRest_encodeRest {turns value : Nat} (number shift : UInt64) (inBytes : Nat)
    (rest : Bytes) (fits : value < 128 ^ (turns + 1)) (low : shift.toNat + 7 * turns < 64)
    (small : number.toNat + value * 2 ^ shift.toNat < maxHpackInteger.toNat) :
    decodeRest (encodeRest turns value ++ rest) number shift inBytes =
      .parsed (inBytes + (encodeRest turns value).length)
        (number.toNat + value * 2 ^ shift.toNat) rest := by
  have narrow : maxHpackInteger.toNat < 2 ^ 64 := by decide
  induction turns generalizing value number shift inBytes with
  | zero => exact decodeRest_last inBytes rest fits (by omega) small
  | succ turns ih =>
    rw [encodeRest]
    split
    · rename_i below
      exact decodeRest_last inBytes rest below (by omega) small
    · rename_i above
      obtain ⟨part, marked⟩ := continued_byte value
      have pieces : value * 2 ^ shift.toNat =
          value % 128 * 2 ^ shift.toNat + value / 128 * 2 ^ (shift.toNat + 7) := by
        rw [pow_add, mul_comm (2 ^ shift.toNat), ← mul_assoc, ← add_mul]
        congr 1
        omega
      have sum := shifted_toNat number shift part (by omega) (by omega)
      have within : number + ((ofNat value &&& 0x7f ||| 0x80) &&& 0x7f).toUInt64 <<< shift <
          maxHpackInteger := by
        rw [UInt64.lt_iff_toNat_lt, sum]
        omega
      have next := shift_next shift (by omega)
      have fitsNext : value >>> 7 < 128 ^ (turns + 1) := by
        rw [shiftRight_eq_div_pow, div_lt_iff_lt_mul (by decide)]
        rw [pow_succ] at fits
        exact fits
      have quotient : value >>> 7 = value / 128 := shiftRight_eq_div_pow value 7
      rw [cons_append, decodeRest]
      simp only [marked, within, and_self, if_true, ne_eq, not_false_eq_true]
      rw [ih _ _ _ fitsNext (by omega), length_cons, sum, next, quotient]
      · congr 1
        · omega
        · omega
      · rw [sum, next, quotient]
        omega

/-- The mark of a representation leaves the low bits of the first byte to the integer. -/
def Prefixed (msb : UInt8) (prefixSize : Nat) : Prop :=
  ∀ value : Fin (2 ^ prefixSize),
    ((msb ||| UInt8.ofNat value) &&& UInt8.ofNat (2 ^ prefixSize - 1)).toNat = value

instance (msb : UInt8) (prefixSize : Nat) : Decidable (Prefixed msb prefixSize) :=
  inferInstanceAs (Decidable (∀ _, _))

theorem decodeInteger_encodeInteger (prefixed : Prefixed msb prefixSize) (number : Nat)
    (rest : Bytes) (small : number < maxHpackInteger.toNat) :
    decodeInteger (encodeInteger msb prefixSize number ++ rest) prefixSize =
      .parsed (encodeInteger msb prefixSize number).length number rest := by
  have narrow : maxHpackInteger.toNat = 10485760 := by decide
  have same : number % 2 ^ 32 = number := mod_eq_of_lt (by omega)
  have positive := Nat.two_pow_pos prefixSize
  simp only [encodeInteger, same]
  split
  · rename_i inPrefix
    have read := prefixed ⟨number, by omega⟩
    rw [singleton_append, decodeInteger]
    simp [read, inPrefix]
  · rename_i beyond
    have read := prefixed ⟨2 ^ prefixSize - 1, by omega⟩
    simp only at read
    rw [cons_append, decodeInteger]
    simp only [read, lt_irrefl, if_false]
    rw [decodeRest_encodeRest, toNat_toUInt64, read]
    · congr 1
      · rw [length_cons]
        omega
      · rw [show (0 : UInt64).toNat = 0 from rfl, pow_zero]
        omega
    · have wide : 10485760 < 128 ^ (5 + 1) := by decide
      omega
    · decide
    · rw [toNat_toUInt64, read, show (0 : UInt64).toNat = 0 from rfl, pow_zero]
      omega

/-- The limit itself is not read back. -/
example : decodeInteger (encodeInteger 0x80 7 maxHpackInteger.toNat) 7 = .malformed := by
  decide +kernel

end

section

/-- The bytes that follow the length of a string. -/
def encodedLength (text : Bytes) (huffmanEncoding : Bool) : Nat :=
  if huffmanEncoding then (huffmanEncode text).length else text.length

theorem lower_length (text : Bytes) : (lower text).length = text.length := length_map _

theorem encodeInteger_first (msb : UInt8) (prefixSize number : Nat) :
    ∃ value tail, value < 2 ^ prefixSize ∧
      encodeInteger msb prefixSize number = (msb ||| ofNat value) :: tail := by
  have positive := Nat.two_pow_pos prefixSize
  simp only [encodeInteger]
  split
  · rename_i inPrefix
    exact ⟨number % 2 ^ 32, [], by omega, rfl⟩
  · exact ⟨2 ^ prefixSize - 1, _, by omega, rfl⟩

/-- A string of a length that is accepted, with the bytes that follow. -/
theorem decodeString_length (prefixed : Prefixed msb 7) (rest : Bytes)
    (small : coded.length < maxHpackInteger.toNat) {tail : Bytes}
    (isFirst : encodeInteger msb 7 coded.length = first :: tail) :
    decodeString (encodeInteger msb 7 coded.length ++ coded ++ rest) =
      if first &&& 0x80 = 0 then
        .parsed (encodeInteger msb 7 coded.length ++ coded).length coded rest
      else
        match huffmanDecode coded with
        | some out => .parsed (encodeInteger msb 7 coded.length ++ coded).length out rest
        | none => .malformed := by
  have read := decodeInteger_encodeInteger prefixed coded.length (coded ++ rest) small
  have enough : ¬ coded.length > coded.length + rest.length := by omega
  rw [append_assoc]
  generalize encodeInteger msb 7 coded.length = digits at read isFirst ⊢
  subst isFirst
  rw [cons_append] at read ⊢
  rw [decodeString]
  simp only [read, take_left', drop_left', length_append, if_neg enough]

theorem decodeString_encodeString (lowercase : Bool) (string : Bytes) (huffmanEncoding : Bool)
    (rest : Bytes) (short : string.length < maxHpackInteger.toNat)
    (small : encodedLength (if lowercase then lower string else string) huffmanEncoding <
      maxHpackInteger.toNat) :
    decodeString (encodeString lowercase string huffmanEncoding ++ rest) =
      .parsed (encodeString lowercase string huffmanEncoding).length
        (if lowercase then lower string else string) rest := by
  have sameLength : (if lowercase then lower string else string).length = string.length := by
    split
    · exact lower_length string
    · rfl
  simp only [encodeString]
  generalize (if lowercase then lower string else string) = text at *
  cases huffmanEncoding with
  | false =>
    simp only [Bool.false_eq_true, if_false]
    rw [← sameLength] at short ⊢
    obtain ⟨value, tail, below, isFirst⟩ := encodeInteger_first 0x00 7 text.length
    have plain : (0x00 ||| ofNat value) &&& 0x80 = 0 := by
      rw [UInt8.zero_or]
      exact (final_byte below).2
    rw [decodeString_length (by decide) rest short isFirst, if_pos plain]
  | true =>
    simp only [if_true]
    have bound := bitLength_le text
    have narrow : maxHpackInteger.toNat = 10485760 := by decide
    have whole : bitLength text % 2 ^ 32 = bitLength text := mod_eq_of_lt (by omega)
    rw [whole, ← huffmanEncode_length]
    obtain ⟨value, tail, below, isFirst⟩ := encodeInteger_first 0x80 7 (huffmanEncode text).length
    have marked : (0x80 ||| ofNat value) &&& 0x80 ≠ 0 := by
      have all : ∀ value : Fin 128, (0x80 ||| ofNat value) &&& 0x80 ≠ 0 := by decide +kernel
      exact all ⟨value, below⟩
    rw [decodeString_length (by decide) rest small isFirst, if_neg marked, huffmanDecode_encode]

/-- The decoder reads back what was encoded and accepts nothing else, the number that is written
before an encoded string is its length exactly when it has fewer than `2 ^ 32` bits, and the
decoder never leaves the vector of the tree. -/
theorem huffman_code (text buffer : Bytes) :
    (huffmanDecode buffer = some text ↔ buffer = huffmanEncode text) ∧
      (∃ pad ≤ 7, bitsOf (huffmanEncode text) = text.flatMap codeBits ++ List.replicate pad true) ∧
      (∀ lowercase string, (if lowercase then lower string else string) = text →
        ∃ announced ≤ 2 ^ 29, encodeString lowercase string true =
            encodeInteger 0x80 7 announced ++ huffmanEncode text ∧
          (announced = (huffmanEncode text).length ↔ bitLength text < 2 ^ 32)) ∧
      ∀ stream decoder, (HuffmanDecoder.atRoot []).decodeBits stream = some decoder →
        1 ≤ decoder.curNode ∧ decoder.curNode ≤ nodeMemory.size ∧ ∃ path, path <:+ stream ∧
          decoder.At (path.foldl HuffmanTree.child huffmanTree) := by
  obtain ⟨pad, few, written⟩ := huffmanEncode_bits text
  refine ⟨⟨?_, ?_⟩, ⟨pad, few, written⟩, ?_, ?_⟩
  · intro read
    obtain ⟨ones, _, accepted⟩ := huffmanDecode_bits read
    have lengths := congrArg length accepted
    have length := congrArg length written
    rw [bitsOf_length, length_append, length_replicate] at lengths length
    obtain rfl : ones = pad := by omega
    exact bitsOf_injective (accepted.trans written.symm)
  · rintro rfl
    exact huffmanDecode_encode text
  · rintro lowercase string rfl
    rw [huffmanEncode_length]
    generalize isText : (if lowercase then lower string else string) = text
    refine ⟨bitLength text % 2 ^ 32 / 8 + if bitLength text % 2 ^ 32 % 8 = 0 then 0 else 1, ?_,
      by rw [encodeString, isText]; rfl, ?_⟩
    · split <;> omega
    · constructor
      · intro same
        split at same <;> split at same <;> omega
      · intro short
        rw [mod_eq_of_lt short]
  · intro stream decoder read
    obtain ⟨path, stands⟩ := decodeBits_stands (stands_atRoot []) read
    obtain ⟨_, _, inner⟩ := stands.inner
    have node := stands.node
    rw [inner] at node
    obtain ⟨_, isNode, _⟩ := NodeMemory.holds_node node
    obtain ⟨first, last⟩ := NodeMemory.node_inside isNode
    exact ⟨first, last, path, ⟨_, stands.stream.symm⟩, stands.node⟩

theorem huffman_code_www : ∃ decoder announced,
    (HuffmanDecoder.atRoot []).decodeBits (bitsOf (huffmanEncode [119, 119, 119])) = some decoder ∧
      1 ≤ decoder.curNode ∧
      encodeString false [119, 119, 119] true =
        encodeInteger 0x80 7 announced ++ huffmanEncode [119, 119, 119] ∧
      announced = (huffmanEncode [119, 119, 119]).length := by
  obtain ⟨decoded, _, announces, inside⟩ :=
    huffman_code [119, 119, 119] (huffmanEncode [119, 119, 119])
  obtain ⟨decoder, run, _⟩ := Option.bind_eq_some_iff.mp (decoded.mpr rfl)
  rw [decode_bits] at run
  obtain ⟨announced, _, written, exact_iff⟩ := announces false [119, 119, 119] rfl
  exact ⟨decoder, announced, run, (inside _ _ run).1, written, exact_iff.mpr (by decide +kernel)⟩

/-- The length of `2 ^ 29` bytes with codes of eight bits is written as zero. -/
theorem encodeString_wraps :
    encodeString false (List.replicate (2 ^ 29) 38) true =
        encodeInteger 0x80 7 0 ++ huffmanEncode (List.replicate (2 ^ 29) 38) ∧
      (huffmanEncode (List.replicate (2 ^ 29) 38)).length = 2 ^ 29 := by
  have total (count : Nat) : bitLength (replicate count 38) = count * 8 := by
    rw [bitLength, map_replicate, sum_replicate_nat,
      show (huffmanCode 38).bitLen = 8 by decide +kernel]
  have announced (text : Bytes) : encodeString false text true = encodeInteger 0x80 7
      (bitLength text % 2 ^ 32 / 8 + if bitLength text % 2 ^ 32 % 8 = 0 then 0 else 1) ++
        huffmanEncode text := rfl
  rw [announced, huffmanEncode_length, total]
  exact ⟨rfl, rfl⟩

end

end CodeReading.Brpc
