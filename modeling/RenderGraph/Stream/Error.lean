import RenderGraph.Stream.Tag
import RenderGraph.Text.Utf8
/-!
# Stream errors

The ways an op-stream can break its schema, each with the message that reports it. Offsets and
counts are byte counts.
-/

namespace RenderGraph.Stream

/-- Why a stream cannot be read. -/
inductive Error where
  /-- The stream, or a record's tail, ends `needed` bytes too early for a read at `offset`. -/
  | unexpectedEof (offset needed : Nat)
  /-- The stream starts with another magic. -/
  | badMagic (expected found : List UInt8)
  /-- The stream has another format version. -/
  | unsupportedVersion (version : Nat)
  /-- A record's tag is not known. -/
  | unknownTag (raw : Nat)
  /-- A record's payload does not have the size its tag fixes. -/
  | payloadSize (tag : Tag) (expected found : Nat)
  /-- A record is not closed by the sentinel word. -/
  | missingSentinel (tag : Tag) (found : Nat)
  /-- A record's tail has bytes nobody reads. -/
  | tailNotConsumed (tag : Tag) (remaining : Nat)
  /-- A record appears where it is not allowed. -/
  | unexpectedTag (found : Tag)
  /-- An enumeration field holds a value outside its range. -/
  | invalidValue (field : String) (value : Nat)
  /-- A string in a tail is not UTF-8. -/
  | invalidUtf8 (error : Utf8.Error)
  /-- Bytes follow the end record. -/
  | trailingBytes (count : Nat)
  /-- Not an error value but a panic: a count the output-stream decoder adds as `u32` words
  overflowed. -/
  | overflow
  deriving DecidableEq, Repr

/-- Lowercase hexadecimal digits of a number, with the `0x` mark. -/
def hexText (n : Nat) : String := "0x" ++ String.ofList (Nat.toDigits 16 n)

/-- A list of bytes as decimal numbers in brackets, such as `[82, 77, 71, 73]`. -/
def byteListText (b : List UInt8) : String :=
  "[" ++ ", ".intercalate (b.map fun x => toString x.toNat) ++ "]"

namespace Error

/-- The name of the error's kind. -/
def kind : Error → String
  | .unexpectedEof .. => "UnexpectedEof"
  | .badMagic .. => "BadMagic"
  | .unsupportedVersion .. => "UnsupportedVersion"
  | .unknownTag .. => "UnknownTag"
  | .payloadSize .. => "PayloadSize"
  | .missingSentinel .. => "MissingSentinel"
  | .tailNotConsumed .. => "TailNotConsumed"
  | .unexpectedTag .. => "UnexpectedTag"
  | .invalidValue .. => "InvalidValue"
  | .invalidUtf8 .. => "InvalidUtf8"
  | .trailingBytes .. => "TrailingBytes"
  | .overflow => "Overflow"

/-- The message that reports the error. -/
def message : Error → String
  | .unexpectedEof offset needed =>
    s!"Stream ended unexpectedly at byte {offset}, needed {needed} more bytes"
  | .badMagic expected found =>
    s!"Stream magic {byteListText found} does not match expected {byteListText expected}"
  | .unsupportedVersion v => s!"Unsupported stream version {v}, expected 1"
  | .unknownTag raw => s!"Unknown record tag {hexText raw}"
  | .payloadSize tag expected found =>
    s!"Payload of {tag.name} has {found} bytes, schema expects {expected}"
  | .missingSentinel tag found =>
    s!"Record {tag.name} is not terminated by the sentinel, found {hexText found}"
  | .tailNotConsumed tag remaining => s!"Tail of {tag.name} has {remaining} unread bytes"
  | .unexpectedTag found => s!"Record {found.name} is not allowed at this point"
  | .invalidValue field value => s!"Enumeration value {value} is not valid for {field}"
  | .invalidUtf8 e => s!"String in tail is not valid utf-8: {e.message}"
  | .trailingBytes n => s!"{n} bytes trail the end record"
  | .overflow => "attempt to add with overflow"

end Error

end RenderGraph.Stream
