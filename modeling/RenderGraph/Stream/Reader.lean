import RenderGraph.Stream.Error
import RenderGraph.Stream.Payload
/-!
# Reading op-streams

A stream is a header (four magic bytes and the version word 1) followed by records. A record is

    tag | payload length | payload | tail length | tail | zero padding to four bytes | sentinel

with 32-bit little-endian words. The reader checks the framing of every record: a known tag, the
payload size its tag fixes, enough bytes for every part, and the sentinel. The end record must
be the last bytes of the stream; reading on after it fails.

A record's tail is read by a cursor (`TailM`) that takes counted items and UTF-8 strings and
must consume the tail completely (`TailM.finish`).
-/

namespace RenderGraph.Stream

/-- The word that closes every record. -/
def sentinel : UInt32 := 0xE0D05E17

/-- The format version this library reads and writes. -/
def version : Nat := 1

/-- The magic of streams that declare a graph. -/
def inputMagic : List UInt8 := [0x52, 0x4D, 0x47, 0x49]

/-- The magic of streams that carry a baked graph. -/
def outputMagic : List UInt8 := [0x52, 0x4D, 0x47, 0x4F]

/-- Bytes a record occupies besides its payload and tail: four words. -/
def recordOverhead : Nat := 16

/-- One record: its tag, its payload bytes and its tail bytes (without padding). -/
structure Record where
  tag : Tag
  payload : Bytes
  tail : Bytes
  deriving DecidableEq, Repr, Inhabited

/-- Reads a fixed payload of the given type. Fails when the record's payload has another size. -/
def Record.payloadAs (r : Record) (α : Type) [Payload α] : Except Error α :=
  if r.payload.length = Payload.size α then .ok (Payload.read.run r.payload)
  else .error (.payloadSize r.tag (Payload.size α) r.payload.length)

/-- The unread part of a record's tail. -/
structure Tail where
  tag : Tag
  /-- Bytes read so far. -/
  head : Nat
  rest : Bytes

/-- Reading a tail: fails with the first broken read. -/
abbrev TailM := StateT Tail (Except Error)

namespace TailM

/-- Takes `len` bytes. Fails at the current offset, with the missing byte count, when the tail is
shorter. -/
def take (len : Nat) : TailM Bytes := fun t =>
  if len ≤ t.rest.length then
    .ok (t.rest.take len, { t with head := t.head + len, rest := t.rest.drop len })
  else .error (.unexpectedEof t.head (len - t.rest.length))

/-- Reads `count` payloads laid out one after the other. -/
def readEach (α : Type) [Payload α] : Nat → Bytes → List α
  | 0, _ => []
  | k + 1, b => Payload.read.run b :: readEach α k (b.drop (Payload.size α))

/-- Takes `count` consecutive items of a payload type. -/
def items (α : Type) [Payload α] (count : Nat) : TailM (List α) := do
  let b ← take (count * Payload.size α)
  pure (readEach α count b)

/-- Takes a UTF-8 string of `len` bytes. -/
def string (len : Nat) : TailM String := do
  let b ← take len
  match Utf8.decode b with
  | .ok s => pure s
  | .error e => throw (.invalidUtf8 e)

/-- Checks that the whole tail was read. -/
def finish : TailM Unit := fun t =>
  if t.rest.length = 0 then .ok ((), t) else .error (.tailNotConsumed t.tag t.rest.length)

/-- Reads a record's tail with a cursor, which has to consume it completely. -/
def run {α : Type} (r : Record) (m : TailM α) : Except Error α :=
  (do let a ← m; finish; pure a).run' ⟨r.tag, 0, r.tail⟩

end TailM

/-- A reader: the unread bytes, how many bytes were read, and whether the end record was. -/
structure Reader where
  head : Nat
  rest : Bytes
  ended : Bool

namespace Reader

/-- Takes `len` bytes of the stream. -/
def take (r : Reader) (len : Nat) : Except Error (Bytes × Reader) :=
  if len ≤ r.rest.length then
    .ok (r.rest.take len, { r with head := r.head + len, rest := r.rest.drop len })
  else .error (.unexpectedEof r.head (len - r.rest.length))

/-- Takes one 32-bit word of the stream. -/
def takeWord (r : Reader) : Except Error (Nat × Reader) := do
  let (b, r) ← r.take 4
  pure ((Bytes.readU32 b).toNat, r)

/-- Opens a stream: checks that it has a header, then its magic, then its version. -/
def start (bytes : Bytes) (magic : List UInt8) : Except Error Reader := do
  let (header, r) ← Reader.take ⟨0, bytes, false⟩ 8
  let found := header.take 4
  if found ≠ magic then throw (.badMagic magic found)
  let v := (Bytes.readU32 (header.drop 4)).toNat
  if v ≠ version then throw (.unsupportedVersion v)
  pure r

/-- Reads the next record. After the end record every read fails, and the end record fails when
bytes follow it. -/
def next (r : Reader) : Except Error (Record × Reader) := do
  if r.ended then throw (.unexpectedTag .end)
  let (raw, r) ← r.takeWord
  let tag ← match Tag.ofRaw? raw with
    | some t => pure t
    | none => throw (.unknownTag raw)
  let (payloadLen, r) ← r.takeWord
  if payloadLen ≠ tag.payloadSize then throw (.payloadSize tag tag.payloadSize payloadLen)
  let (payload, r) ← r.take payloadLen
  let (tailLen, r) ← r.takeWord
  let (tail, r) ← r.take tailLen
  let (_, r) ← r.take (Bytes.padding tailLen)
  let (found, r) ← r.takeWord
  if found ≠ sentinel.toNat then throw (.missingSentinel tag found)
  if tag = .end then
    if r.rest.length ≠ 0 then throw (.trailingBytes r.rest.length)
    pure (⟨tag, payload, tail⟩, { r with ended := true })
  else pure (⟨tag, payload, tail⟩, r)

end Reader

/-- A trailing-bytes failure comes after the end record was read: the stream counts as finished
after it. -/
def Error.finishesStream : Error → Bool
  | .trailingBytes _ => true
  | _ => false

end RenderGraph.Stream
