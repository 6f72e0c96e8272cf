import RenderGraph.Stream.Word
/-!
# Hexadecimal byte text

Byte strings are exchanged as lowercase hexadecimal text without separators, two digits per
byte, high digit first. `Bytes.ofHex?` reads such text back; it also accepts uppercase digits
and refuses an odd number of digits or any other character.
-/

namespace RenderGraph

namespace Bytes

/-- The lowercase hexadecimal digit of a value below sixteen. -/
def hexDigit (v : Nat) : Char :=
  if v < 10 then Char.ofNat (48 + v) else Char.ofNat (87 + v)

/-- The value of one hexadecimal digit, if the character is one. -/
def hexValue? (c : Char) : Option Nat :=
  if '0' ≤ c ∧ c ≤ '9' then some (c.toNat - 48)
  else if 'a' ≤ c ∧ c ≤ 'f' then some (c.toNat - 87)
  else if 'A' ≤ c ∧ c ≤ 'F' then some (c.toNat - 55)
  else none

/-- Two digits per byte, high digit first. -/
def hexChars : Bytes → List Char
  | [] => []
  | b :: r => hexDigit (b.toNat / 16) :: hexDigit (b.toNat % 16) :: hexChars r

/-- The hexadecimal text of a byte string. -/
def toHex (b : Bytes) : String := String.ofList (hexChars b)

/-- Reads pairs of digits into bytes. -/
def ofHexChars? : List Char → Option Bytes
  | [] => some []
  | hi :: lo :: r => do
    let h ← hexValue? hi
    let l ← hexValue? lo
    let rest ← ofHexChars? r
    pure (UInt8.ofNat (16 * h + l) :: rest)
  | [_] => none

/-- Reads hexadecimal text into bytes. -/
def ofHex? (s : String) : Option Bytes := ofHexChars? s.toList

end Bytes

end RenderGraph
