import RenderGraph.Stream.Word
/-!
# UTF-8 text in byte strings

Names and paths travel as UTF-8 bytes. `Utf8.decode` turns such bytes into a `String`, or
reports where the valid prefix ends and why it ends there.

The rules are those of the UTF-8 standard (RFC 3629): a lead byte fixes the length of its
sequence, continuation bytes lie in `0x80..0xBF`, and the second byte is narrowed so that no
overlong form, no surrogate and nothing above `U+10FFFF` is accepted. A sequence that is cut off
by the end of the input is *incomplete*; any other failure is an *invalid* sequence whose length
counts the bytes up to and without the first offending one.
-/

namespace RenderGraph

namespace Utf8

/-- Why a byte string is not UTF-8 text. -/
inductive Error where
  /-- The bytes from `validUpTo` on start a sequence of `length` bytes that is not valid. -/
  | invalid (validUpTo length : Nat)
  /-- The bytes from `validUpTo` on start a sequence that the input cuts off. -/
  | incomplete (validUpTo : Nat)
  deriving DecidableEq, Repr

/-- The message that describes the failure. -/
def Error.message : Error → String
  | .invalid i n => s!"invalid utf-8 sequence of {n} bytes from index {i}"
  | .incomplete i => s!"incomplete utf-8 byte sequence from index {i}"

/-- A continuation byte: `10xxxxxx`. -/
def isCont (b : UInt8) : Bool := 0x80 ≤ b && b ≤ 0xBF

/-- The range the byte after a lead byte must lie in, with the number of bytes of its sequence.
Lead bytes that start no sequence have none. -/
def leadRange (b : UInt8) : Option (Nat × UInt8 × UInt8) :=
  if 0xC2 ≤ b && b ≤ 0xDF then some (2, 0x80, 0xBF)
  else if b = 0xE0 then some (3, 0xA0, 0xBF)
  else if 0xE1 ≤ b && b ≤ 0xEC then some (3, 0x80, 0xBF)
  else if b = 0xED then some (3, 0x80, 0x9F)
  else if 0xEE ≤ b && b ≤ 0xEF then some (3, 0x80, 0xBF)
  else if b = 0xF0 then some (4, 0x90, 0xBF)
  else if 0xF1 ≤ b && b ≤ 0xF3 then some (4, 0x80, 0xBF)
  else if b = 0xF4 then some (4, 0x80, 0x8F)
  else none

/-- The code point of a checked sequence: the payload bits of the lead byte, then six bits per
continuation byte. -/
def codePoint (lead : UInt8) (conts : List UInt8) : Nat :=
  let first := match conts.length with
    | 1 => lead.toNat % 32
    | 2 => lead.toNat % 16
    | _ => lead.toNat % 8
  conts.foldl (fun acc c => acc * 64 + c.toNat % 64) first

/-- One step of the decoder: the sequence at the front of the bytes, read as a character with
the rest of the input, or the failure it meets (`offset` is where the sequence starts). -/
def step (offset : Nat) : (b : Bytes) → b ≠ [] → Except Error (Char × { r : Bytes // r.length < b.length })
  | lead :: rest, _ =>
    if lead < 0x80 then .ok (Char.ofNat lead.toNat, ⟨rest, by simp⟩)
    else match leadRange lead with
      | none => .error (.invalid offset 1)
      | some (len, lo, hi) =>
        match rest with
        | [] => .error (.incomplete offset)
        | second :: rest2 =>
          if ¬(lo ≤ second && second ≤ hi) then .error (.invalid offset 1)
          else if len = 2 then
            .ok (Char.ofNat (codePoint lead [second]), ⟨rest2, by simp only [List.length_cons]; omega⟩)
          else match rest2 with
            | [] => .error (.incomplete offset)
            | third :: rest3 =>
              if ¬isCont third then .error (.invalid offset 2)
              else if len = 3 then
                .ok (Char.ofNat (codePoint lead [second, third]), ⟨rest3, by simp only [List.length_cons]; omega⟩)
              else match rest3 with
                | [] => .error (.incomplete offset)
                | fourth :: rest4 =>
                  if ¬isCont fourth then .error (.invalid offset 3)
                  else .ok (Char.ofNat (codePoint lead [second, third, fourth]),
                    ⟨rest4, by simp only [List.length_cons]; omega⟩)

/-- Decodes the whole input, counting offsets from `offset`. -/
def decodeFrom (offset : Nat) (b : Bytes) (acc : List Char) : Except Error (List Char) :=
  if h : b = [] then .ok acc.reverse
  else match step offset b h with
    | .error e => .error e
    | .ok (c, ⟨rest, _⟩) => decodeFrom (offset + (b.length - rest.length)) rest (c :: acc)
termination_by b.length

/-- Decodes UTF-8 bytes into text. -/
def decode (b : Bytes) : Except Error String :=
  (decodeFrom 0 b []).map String.ofList

end Utf8

/-- The UTF-8 bytes of a string. -/
def Bytes.ofString (s : String) : Bytes := s.toUTF8.toList

end RenderGraph
