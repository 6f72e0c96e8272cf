/-!
# Little-endian words

Op-streams are byte strings built from 32- and 64-bit little-endian words. This module fixes
the byte string type, writes words into bytes and reads them back through a cursor that walks
a payload field by field.

Writing puts the least significant byte first; reading takes the bytes back in that order,
so a written word reads back as itself.
-/

namespace RenderGraph

/-- A byte string, as streams carry it. -/
abbrev Bytes := List UInt8

namespace Bytes

/-- The four bytes of a 32-bit word, least significant first. -/
def ofU32 (w : UInt32) : Bytes :=
  [w.toUInt8, (w >>> 8).toUInt8, (w >>> 16).toUInt8, (w >>> 24).toUInt8]

/-- The eight bytes of a 64-bit word, least significant first. -/
def ofU64 (w : UInt64) : Bytes :=
  ofU32 w.toUInt32 ++ ofU32 (w >>> 32).toUInt32

/-- The four bytes of a signed 32-bit word, in two's complement. -/
def ofI32 (w : Int32) : Bytes := ofU32 w.toUInt32

/-- The 32-bit word held by the first four bytes; missing bytes read as zero. -/
def readU32 (b : Bytes) : UInt32 :=
  let byte (i : Nat) : UInt32 := (b.getD i 0).toUInt32
  byte 0 ||| (byte 1 <<< 8) ||| (byte 2 <<< 16) ||| (byte 3 <<< 24)

/-- The 64-bit word held by the first eight bytes; missing bytes read as zero. -/
def readU64 (b : Bytes) : UInt64 :=
  (readU32 b).toUInt64 ||| ((readU32 (b.drop 4)).toUInt64 <<< 32)

/-- `n` zero bytes. -/
def zeros (n : Nat) : Bytes := List.replicate n 0

/-- Bytes that pad `len` up to the next multiple of four. -/
def padding (len : Nat) : Nat := (4 - len % 4) % 4

end Bytes

/-- Reading the fields of a fixed payload one after the other, from the front. -/
abbrev Cursor := StateM Bytes

namespace Cursor

/-- Takes one 32-bit word. -/
def u32 : Cursor UInt32 := fun b => (Bytes.readU32 b, b.drop 4)

/-- Takes one 64-bit word. -/
def u64 : Cursor UInt64 := fun b => (Bytes.readU64 b, b.drop 8)

/-- Takes one signed 32-bit word. -/
def i32 : Cursor Int32 := fun b => ((Bytes.readU32 b).toInt32, b.drop 4)

/-- Runs a cursor over a payload and keeps the value it reads. -/
def run {α : Type} (c : Cursor α) (b : Bytes) : α := (c b).1

end Cursor

end RenderGraph
