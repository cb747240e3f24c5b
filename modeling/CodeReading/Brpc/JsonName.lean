import CodeReading.Brpc.HpackTables
import Mathlib.Data.List.Infix

/-!
# Field names from JSON

`encode_name` writes a byte that may not stand in an identifier as `_Zddd_`, its value as a signed
`char` in decimal, and `decode_name` reads such patterns back, also one that the name had before.
What lies between the patterns is appended here byte by byte.
-/

namespace CodeReading.Brpc.JsonName

open List

def isWord (byte : UInt8) : Bool := byte.toChar.isAlphanum || byte == 95

def isSpecial (first : Bool) (byte : UInt8) : Bool := !isWord byte || first && byte.toChar.isDigit

def pattern (byte : UInt8) : Bytes :=
  let value := byte.toInt8.toInt
  let first := value.tdiv 100
  let second := (value - first * 100).tdiv 10
  let third := value - first * 100 - second * 10
  [95, 90, .ofInt (first + 48), .ofInt (second + 48), .ofInt (third + 48), 95]

/-- The loop of `encode_name`: whether it converts, and the text. -/
def encodeLoop : Bool → Bytes → Bool × Bytes
  | _, [] => (false, [])
  | first, byte :: rest =>
      if isSpecial first byte then (true, pattern byte ++ (encodeLoop false rest).2)
      else ((encodeLoop false rest).1, byte :: (encodeLoop false rest).2)

def matchPattern : Bytes → Option UInt8
  | start :: mark :: a :: b :: c :: last :: _ =>
      let sum := (a.toNat - 48) * 100 + (b.toNat - 48) * 10 + (c.toNat - 48)
      if start = 95 ∧ mark = 90 ∧ last = 95 ∧ [a, b, c].all (·.toChar.isDigit) ∧ sum < 256 then
        some (.ofNat sum)
      else none
  | _ => none

/-- The loop of `decode_name`, which passes over `skip` bytes after a pattern. -/
def decodeLoop : Nat → Bytes → Bool × Bytes
  | _, [] => (false, [])
  | skip + 1, _ :: rest => decodeLoop skip rest
  | 0, byte :: rest =>
      match matchPattern (byte :: rest) with
      | some value => (true, value :: (decodeLoop 5 rest).2)
      | none => ((decodeLoop 0 rest).1, byte :: (decodeLoop 0 rest).2)

def encodeName : Bytes → Bool × Bytes := encodeLoop true

def decodeName : Bytes → Bool × Bytes := decodeLoop 0

/-- What `decode_name` takes for a pattern at the beginning of a name that was encoded. The last
byte of the pattern may be the first one of another, for a byte of the name. -/
def misread : Bytes → Option UInt8
  | start :: mark :: a :: b :: c :: last :: _ =>
      matchPattern [start, mark, a, b, c, if isWord last then last else 95]
  | _ => none

end CodeReading.Brpc.JsonName
