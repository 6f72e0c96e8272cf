import RenderGraph.Stream.Reader
import RenderGraph.Log
/-!
# Writing op-streams

`Stream.write` lays out a stream: the header, each record framed as the reader expects it, and
the end record. Tails are built from items and strings by `Tail.ofItems` and `Bytes.ofString`.
-/

namespace RenderGraph.Stream

/-- The bytes of a list of payloads, one after the other. -/
def Tail.ofItems {α : Type} [Payload α] (xs : List α) : Bytes := xs.flatMap Payload.write

/-- A record with a payload value and a tail. -/
def Record.ofPayload {α : Type} [Payload α] (tag : Tag) (p : α) (tail : Bytes) : Record :=
  ⟨tag, Payload.write p, tail⟩

/-- The framed bytes of one record. -/
def Record.encode (r : Record) : Bytes :=
  Bytes.ofU32 r.tag.raw.toUInt32 ++ Bytes.ofU32 r.payload.length.toUInt32 ++ r.payload ++
    Bytes.ofU32 r.tail.length.toUInt32 ++ r.tail ++ Bytes.zeros (Bytes.padding r.tail.length) ++
    Bytes.ofU32 sentinel

/-- The header of a stream with a magic. -/
def header (magic : List UInt8) : Bytes := magic ++ Bytes.ofU32 version.toUInt32

/-- The record that closes a stream. -/
def endRecord : Record := ⟨.end, [], []⟩

/-- A whole stream: header, records and the end record. -/
def write (magic : List UInt8) (records : List Record) : Bytes :=
  header magic ++ records.flatMap Record.encode ++ endRecord.encode

/-- Writes a stream and reports its size. -/
def writeLogged (magic : List UInt8) (records : List Record) : Logged Bytes := do
  let bytes := write magic records
  log .trace "rmg_opstream::writer" s!"Finished op-stream with {bytes.length} bytes"
  pure bytes

end RenderGraph.Stream
