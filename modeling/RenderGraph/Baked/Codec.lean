import RenderGraph.Baked.Basic
import RenderGraph.Stream.Writer
/-!
# Output streams

A baked graph travels as an output stream (magic `RMGO`): one create record per bucket, one
alias record per alias, then per queue a queue-begin record announcing its frame and pass
counts, followed by exactly that many frame records and then pass records.

`BakedGraph.decode` checks this layout. Buckets come first, aliases second, queues last; a
queue's frames and passes must all arrive before the next queue begins or the stream ends; a
frame needs an open queue with frames left, and a pass an open queue whose frames are done and
that has passes left. Any other record is out of place. Enumerations must hold valid values;
a layout of 0 reads as no layout, and a bucket is persistent when its flag is not 0.

The check that the open queue expects nothing more adds its frame and pass counts as `u32`
words, with overflow checks on: a sum past `u32` panics (`Error.overflow`,
`DecodeState.checkCount`).
-/

open RenderGraph.Stream

namespace RenderGraph

namespace BakedGraph

/-- The word of a Nat field. -/
def w32 (n : Nat) : UInt32 := n.toUInt32

/-- The wire form of a wait. -/
def waitPayload (e : SyncEntry) : WaitPayload := ⟨w32 e.queue.index, w32 e.index⟩

/-- The create record of a bucket. -/
def bucketRecord (b : BakedBucket) : Record :=
  let persistent : UInt32 := if b.persistent then 1 else 0
  match b.desc with
  | .buffer size usage memory =>
    Record.ofPayload .createBuffer (CreateBufferPayload.mk size (w32 b.id) (w32 b.base.id) usage
      (w32 memory.raw) persistent (w32 b.memberCount) b.initial.stage b.initial.access) []
  | .image shape usage =>
    Record.ofPayload .createImage (CreateImagePayload.mk b.initial.stage b.initial.access (w32 b.id)
      (w32 b.base.id) shape.width shape.height shape.depth shape.format.raw usage shape.mipLevels
      shape.arrayLayers shape.samples persistent (w32 b.memberCount) b.initial.layout 0) []

/-- The record of an alias. -/
def aliasRecord (a : BakedAlias) : Record :=
  Record.ofPayload .aliasing (AliasPayload.mk a.offset (w32 a.resource.kind.raw) (w32 a.resource.id)
    (w32 a.bucket) (w32 a.base.id)) []

/-- The record of a frame, its waits in the tail. -/
def frameRecord (f : Frame) : Record :=
  Record.ofPayload .submitFrame (FramePayload.mk f.signal.toUInt64 (w32 f.queue.index) (w32 f.first)
    (w32 f.len) (w32 f.waits.length)) (Tail.ofItems (f.waits.map waitPayload))

/-- The wire form of a resolved interaction. -/
def interactionPayload (i : ResolvedInteraction) : ResolvedInteractionPayload :=
  ⟨i.stage, i.access, w32 i.resource.kind.raw, w32 i.resource.id, wordOfId (i.output.map (·.id)),
    w32 i.bucket, w32 i.binding, if i.mode = .write then 1 else 0, i.layout.getD 0, 0⟩

/-- The record of a pass: interactions, waits and name in the tail. -/
def passRecord (p : BakedPass) : Record :=
  let name := Bytes.ofString p.name
  Record.ofPayload .pass (PassRecordPayload.mk (w32 p.id) (w32 p.queue.index) (w32 p.position)
    (w32 p.queueIndex) (w32 p.level) (wordOfId p.program) (w32 p.interactions.length)
    (w32 p.waits.length) (w32 name.length) 0)
    (Tail.ofItems (p.interactions.map interactionPayload) ++ Tail.ofItems (p.waits.map waitPayload) ++
      name)

/-- The records of a queue: its beginning, its frames, its passes. -/
def queueRecords (q : BakedQueue) : List Record :=
  Record.ofPayload .queueBegin
    (QueueBeginPayload.mk (w32 q.queue.index) (w32 q.passes.length) (w32 q.frames.length) 0) [] ::
    (q.frames.map frameRecord ++ q.passes.map passRecord)

/-- Every record of a graph, in stream order. -/
def records (g : BakedGraph) : List Record :=
  g.buckets.map bucketRecord ++ g.aliases.map aliasRecord ++ g.queues.flatMap queueRecords

/-- The output stream of a graph. -/
def encode (g : BakedGraph) : Bytes := write outputMagic g.records

/-- Writes the output stream of a graph and reports its size. -/
def encodeLogged (g : BakedGraph) : Logged Bytes := writeLogged outputMagic g.records

/-- Reads an enumeration value, failing with the field's name. -/
def decodeEnum {α : Type} (field : String) (ofRaw? : Nat → Option α) (raw : UInt32) :
    Except Error α :=
  match ofRaw? raw.toNat with
  | some a => .ok a
  | none => .error (.invalidValue field raw.toNat)

/-- Reads waits. -/
def decodeWaits (ws : List WaitPayload) : Except Error (List SyncEntry) :=
  ws.mapM fun w => do
    let q ← decodeEnum "queue class" QueueClass.ofRaw? w.queue
    pure ⟨q, w.index.toNat⟩

/-- Reads a create record. Its tail must be empty. -/
def decodeBucket (rec : Record) : Except Error BakedBucket := do
  TailM.run rec (pure ())
  if rec.tag = .createBuffer then
    let p ← rec.payloadAs CreateBufferPayload
    let memory ← decodeEnum "memory class" MemoryClass.ofRaw? p.memory
    pure ⟨p.bucket.toNat, .buffer p.base.toNat, .buffer p.size p.usage memory, p.persistent ≠ 0,
      p.memberCount.toNat, ⟨p.initialStage, p.initialAccess, 0⟩⟩
  else
    let p ← rec.payloadAs CreateImagePayload
    let shape : ImageShape := ⟨p.width, p.height, p.depth, ⟨p.format⟩, p.mipLevels, p.arrayLayers,
      p.samples⟩
    pure ⟨p.bucket.toNat, .image p.base.toNat, .image shape p.usage, p.persistent ≠ 0,
      p.memberCount.toNat, ⟨p.initialStage, p.initialAccess, p.initialLayout⟩⟩

/-- Reads one resolved interaction. -/
def decodeInteraction (i : ResolvedInteractionPayload) : Except Error ResolvedInteraction := do
  let kind ← decodeEnum "resource kind" ResKind.ofRaw? i.resourceKind
  let mode ← match i.mode with
    | 0 => pure AccessMode.read
    | 1 => pure AccessMode.write
    | other => throw (.invalidValue "access mode" other.toNat)
  pure ⟨Res.mk kind i.resource.toNat, (idOfWord i.output).map (Res.mk kind), i.bucket.toNat,
    i.binding.toNat, mode, i.stage, i.access, if i.layout = 0 then none else some i.layout⟩

/-- Reads a pass record. -/
def decodePass (rec : Record) : Except Error BakedPass := do
  let p ← rec.payloadAs PassRecordPayload
  let (interactions, waits, name) ← TailM.run rec do
    let is ← TailM.items ResolvedInteractionPayload p.interactionCount.toNat
    let ws ← TailM.items WaitPayload p.waitCount.toNat
    let name ← TailM.string p.nameLen.toNat
    pure (is, ws, name)
  let interactions ← interactions.mapM decodeInteraction
  let queue ← decodeEnum "queue class" QueueClass.ofRaw? p.queue
  let waits ← decodeWaits waits
  pure ⟨p.id.toNat, name, queue, p.position.toNat, p.queueIndex.toNat, p.level.toNat,
    idOfWord p.program, interactions, waits⟩

/-- Reads a frame record. -/
def decodeFrame (rec : Record) : Except Error Frame := do
  let p ← rec.payloadAs FramePayload
  let waits ← TailM.run rec (TailM.items WaitPayload p.waitCount.toNat)
  let queue ← decodeEnum "queue class" QueueClass.ofRaw? p.queue
  let waits ← decodeWaits waits
  pure ⟨queue, p.first.toNat, p.len.toNat, waits, p.signal.toNat⟩

/-- Where the decoder is in the stream. -/
inductive Section where
  | buckets
  | aliases
  | queues
  deriving DecidableEq, Repr

/-- The state of decoding: the graph so far, the section, and the frames and passes the open
queue still expects. -/
structure DecodeState where
  graph : BakedGraph
  section_ : Section
  open_ : Option (Nat × Nat)

/-- Whether the open queue still expects records. -/
def DecodeState.pending (s : DecodeState) : Bool :=
  match s.open_ with
  | some (frames, passes) => frames + passes > 0
  | none => false

/-- The panic of the decoder's count check: the frames and passes the open queue still expects
are `u32` words, and their sum overflows before it is compared once it reaches `2 ^ 32`. Both
counts come from one queue-begin record, so this needs one of them past `2 ^ 31`. -/
def DecodeState.checkCount (s : DecodeState) : Except Error Unit :=
  match s.open_ with
  | some (frames, passes) => if UInt32.size ≤ frames + passes then throw .overflow else pure ()
  | none => pure ()

/-- Changes the last queue. -/
def modifyLastQueue (g : BakedGraph) (f : BakedQueue → BakedQueue) : BakedGraph :=
  { g with queues := g.queues.modify (g.queues.length - 1) f }

/-- Takes one record of the body. Returns none at the end record. -/
def decodeRecord (s : DecodeState) (rec : Record) : Except Error (Option DecodeState) := do
  let unexpected : Error := .unexpectedTag rec.tag
  let g := s.graph
  match rec.tag with
  | .createBuffer | .createImage =>
    if s.section_ ≠ .buckets then throw unexpected
    let b ← decodeBucket rec
    pure (some { s with graph := { g with buckets := g.buckets ++ [b] } })
  | .aliasing =>
    if s.section_ = .queues then throw unexpected
    let p ← rec.payloadAs AliasPayload
    TailM.run rec (pure ())
    let kind ← decodeEnum "resource kind" ResKind.ofRaw? p.resourceKind
    let a : BakedAlias := ⟨Res.mk kind p.resource.toNat, p.bucket.toNat, Res.mk kind p.base.toNat,
      p.offset⟩
    pure (some { s with graph := { g with aliases := g.aliases ++ [a] }, section_ := .aliases })
  | .queueBegin =>
    s.checkCount
    if s.pending then throw unexpected
    let p ← rec.payloadAs QueueBeginPayload
    TailM.run rec (pure ())
    let q ← decodeEnum "queue class" QueueClass.ofRaw? p.queue
    pure (some ⟨{ g with queues := g.queues ++ [⟨q, [], []⟩] }, .queues,
      some (p.frameCount.toNat, p.passCount.toNat)⟩)
  | .submitFrame =>
    match s.open_ with
    | some (frames + 1, passes) =>
      let f ← decodeFrame rec
      pure (some { s with graph := modifyLastQueue g fun q => { q with frames := q.frames ++ [f] }
                          open_ := some (frames, passes) })
    | _ => throw unexpected
  | .pass =>
    match s.open_ with
    | some (0, passes + 1) =>
      let p ← decodePass rec
      pure (some { s with graph := modifyLastQueue g fun q => { q with passes := q.passes ++ [p] }
                          open_ := some (0, passes) })
    | _ => throw unexpected
  | .end =>
    s.checkCount
    if s.pending then throw unexpected else pure none
  | _ => throw unexpected

/-- Reads records until the end record, at most `fuel` of them. -/
def decodeFrom : Nat → Reader → DecodeState → Except Error BakedGraph
  | 0, _, s => .ok s.graph
  | fuel + 1, rd, s => do
    let (rec, rd) ← rd.next
    match ← decodeRecord s rec with
    | none => pure s.graph
    | some s => decodeFrom fuel rd s

/-- Reads an output stream. Every record takes at least sixteen bytes, so a stream of `n` bytes
has fewer than `n` records. -/
def decode (bytes : Bytes) : Except Error BakedGraph := do
  let rd ← Reader.start bytes outputMagic
  decodeFrom bytes.length rd ⟨⟨[], [], []⟩, .buckets, none⟩

end BakedGraph

end RenderGraph
