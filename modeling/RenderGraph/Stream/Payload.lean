import RenderGraph.Stream.Word
/-!
# Record payloads

Each tag carries one fixed payload: a row of little-endian words, 64-bit words first. This
module lists the payloads field by field. `Payload.read` takes the fields in order and
`Payload.write` writes them back in the same order, so the bytes of a payload are exactly its
fields; reserved words are kept so that reading and writing lose nothing.

Enumerations travel as raw values, and an absent id is the word `none` (all bits set).
-/

namespace RenderGraph.Stream

/-- The word that marks an absent id. -/
def noneId : UInt32 := 0xFFFFFFFF

/-- The id a word names, or nothing for the absent-id word. -/
def idOfWord (w : UInt32) : Option Nat := if w = noneId then none else some w.toNat

/-- The word of an optional id. -/
def wordOfId : Option Nat → UInt32
  | some i => i.toUInt32
  | none => noneId

/-- A fixed payload: its size in bytes, how to read it and how to write it. -/
class Payload (α : Type) where
  size : Nat
  read : Cursor α
  write : α → Bytes

/-- Single 32-bit words in a tail, such as the shader ids of a program. -/
instance : Payload UInt32 := ⟨4, Cursor.u32, Bytes.ofU32⟩

/-- The set-brief record: how many entries of each kind the stream declares, the present image and the render settings. -/
structure BriefPayload where
  bufferCount : UInt32
  imageCount : UInt32
  passCount : UInt32
  programCount : UInt32
  shaderCount : UInt32
  samplerCount : UInt32
  bindlessCount : UInt32
  presentImage : UInt32
  renderWidth : UInt32
  renderHeight : UInt32
  renderFormat : Int32
  reserved : UInt32
  deriving DecidableEq, Repr, Inhabited

instance : Payload BriefPayload where
  size := 48
  read := do
    let bufferCount ← Cursor.u32
    let imageCount ← Cursor.u32
    let passCount ← Cursor.u32
    let programCount ← Cursor.u32
    let shaderCount ← Cursor.u32
    let samplerCount ← Cursor.u32
    let bindlessCount ← Cursor.u32
    let presentImage ← Cursor.u32
    let renderWidth ← Cursor.u32
    let renderHeight ← Cursor.u32
    let renderFormat ← Cursor.i32
    let reserved ← Cursor.u32
    pure ⟨bufferCount, imageCount, passCount, programCount, shaderCount, samplerCount, bindlessCount, presentImage, renderWidth, renderHeight, renderFormat, reserved⟩
  write p := Bytes.ofU32 p.bufferCount ++ Bytes.ofU32 p.imageCount ++ Bytes.ofU32 p.passCount
    ++ Bytes.ofU32 p.programCount ++ Bytes.ofU32 p.shaderCount ++ Bytes.ofU32 p.samplerCount
    ++ Bytes.ofU32 p.bindlessCount ++ Bytes.ofU32 p.presentImage ++ Bytes.ofU32 p.renderWidth
    ++ Bytes.ofU32 p.renderHeight ++ Bytes.ofI32 p.renderFormat ++ Bytes.ofU32 p.reserved

/-- A shader: its id, its stage flags and the length of its path in the tail. -/
structure ShaderPayload where
  id : UInt32
  stage : UInt32
  pathLen : UInt32
  reserved : UInt32
  deriving DecidableEq, Repr, Inhabited

instance : Payload ShaderPayload where
  size := 16
  read := do
    let id ← Cursor.u32
    let stage ← Cursor.u32
    let pathLen ← Cursor.u32
    let reserved ← Cursor.u32
    pure ⟨id, stage, pathLen, reserved⟩
  write p := Bytes.ofU32 p.id ++ Bytes.ofU32 p.stage ++ Bytes.ofU32 p.pathLen
    ++ Bytes.ofU32 p.reserved

/-- A program: its id and the lengths of its shader list and name in the tail. -/
structure ProgramPayload where
  id : UInt32
  shaderCount : UInt32
  nameLen : UInt32
  reserved : UInt32
  deriving DecidableEq, Repr, Inhabited

instance : Payload ProgramPayload where
  size := 16
  read := do
    let id ← Cursor.u32
    let shaderCount ← Cursor.u32
    let nameLen ← Cursor.u32
    let reserved ← Cursor.u32
    pure ⟨id, shaderCount, nameLen, reserved⟩
  write p := Bytes.ofU32 p.id ++ Bytes.ofU32 p.shaderCount ++ Bytes.ofU32 p.nameLen
    ++ Bytes.ofU32 p.reserved

/-- A buffer: size, id, usage, memory class, lifetime and the length of its name. -/
structure BufferPayload where
  size : UInt64
  id : UInt32
  usage : UInt32
  memory : UInt32
  lifetime : UInt32
  nameLen : UInt32
  reserved : UInt32
  deriving DecidableEq, Repr, Inhabited

instance : Payload BufferPayload where
  size := 32
  read := do
    let size ← Cursor.u64
    let id ← Cursor.u32
    let usage ← Cursor.u32
    let memory ← Cursor.u32
    let lifetime ← Cursor.u32
    let nameLen ← Cursor.u32
    let reserved ← Cursor.u32
    pure ⟨size, id, usage, memory, lifetime, nameLen, reserved⟩
  write p := Bytes.ofU64 p.size ++ Bytes.ofU32 p.id ++ Bytes.ofU32 p.usage ++ Bytes.ofU32 p.memory
    ++ Bytes.ofU32 p.lifetime ++ Bytes.ofU32 p.nameLen ++ Bytes.ofU32 p.reserved

/-- An image: id, sizing (0 fixed, 1 render), extent, format, usage, levels, layers, samples, lifetime and the length of its name. -/
structure ImagePayload where
  id : UInt32
  sizing : UInt32
  width : UInt32
  height : UInt32
  depth : UInt32
  format : Int32
  usage : UInt32
  mipLevels : UInt32
  arrayLayers : UInt32
  samples : UInt32
  lifetime : UInt32
  nameLen : UInt32
  deriving DecidableEq, Repr, Inhabited

instance : Payload ImagePayload where
  size := 48
  read := do
    let id ← Cursor.u32
    let sizing ← Cursor.u32
    let width ← Cursor.u32
    let height ← Cursor.u32
    let depth ← Cursor.u32
    let format ← Cursor.i32
    let usage ← Cursor.u32
    let mipLevels ← Cursor.u32
    let arrayLayers ← Cursor.u32
    let samples ← Cursor.u32
    let lifetime ← Cursor.u32
    let nameLen ← Cursor.u32
    pure ⟨id, sizing, width, height, depth, format, usage, mipLevels, arrayLayers, samples, lifetime, nameLen⟩
  write p := Bytes.ofU32 p.id ++ Bytes.ofU32 p.sizing ++ Bytes.ofU32 p.width
    ++ Bytes.ofU32 p.height ++ Bytes.ofU32 p.depth ++ Bytes.ofI32 p.format ++ Bytes.ofU32 p.usage
    ++ Bytes.ofU32 p.mipLevels ++ Bytes.ofU32 p.arrayLayers ++ Bytes.ofU32 p.samples
    ++ Bytes.ofU32 p.lifetime ++ Bytes.ofU32 p.nameLen

/-- A sampler: id, filters, address mode and the length of its name. -/
structure SamplerPayload where
  id : UInt32
  magFilter : Int32
  minFilter : Int32
  addressMode : Int32
  nameLen : UInt32
  reserved : UInt32
  deriving DecidableEq, Repr, Inhabited

instance : Payload SamplerPayload where
  size := 24
  read := do
    let id ← Cursor.u32
    let magFilter ← Cursor.i32
    let minFilter ← Cursor.i32
    let addressMode ← Cursor.i32
    let nameLen ← Cursor.u32
    let reserved ← Cursor.u32
    pure ⟨id, magFilter, minFilter, addressMode, nameLen, reserved⟩
  write p := Bytes.ofU32 p.id ++ Bytes.ofI32 p.magFilter ++ Bytes.ofI32 p.minFilter
    ++ Bytes.ofI32 p.addressMode ++ Bytes.ofU32 p.nameLen ++ Bytes.ofU32 p.reserved

/-- A resource in a tail: its kind (0 buffer, 1 image) and id. -/
structure ResourceRefPayload where
  kind : UInt32
  id : UInt32
  deriving DecidableEq, Repr, Inhabited

instance : Payload ResourceRefPayload where
  size := 8
  read := do
    let kind ← Cursor.u32
    let id ← Cursor.u32
    pure ⟨kind, id⟩
  write p := Bytes.ofU32 p.kind ++ Bytes.ofU32 p.id

/-- A bindless table: id and the lengths of its resource list and name. -/
structure BindlessPayload where
  id : UInt32
  resourceCount : UInt32
  nameLen : UInt32
  reserved : UInt32
  deriving DecidableEq, Repr, Inhabited

instance : Payload BindlessPayload where
  size := 16
  read := do
    let id ← Cursor.u32
    let resourceCount ← Cursor.u32
    let nameLen ← Cursor.u32
    let reserved ← Cursor.u32
    pure ⟨id, resourceCount, nameLen, reserved⟩
  write p := Bytes.ofU32 p.id ++ Bytes.ofU32 p.resourceCount ++ Bytes.ofU32 p.nameLen
    ++ Bytes.ofU32 p.reserved

/-- A pass: id, queue, program, bindless table and the lengths of its reads, writes and name. -/
structure PassPayload where
  id : UInt32
  queue : UInt32
  program : UInt32
  bindless : UInt32
  readCount : UInt32
  writeCount : UInt32
  nameLen : UInt32
  reserved : UInt32
  deriving DecidableEq, Repr, Inhabited

instance : Payload PassPayload where
  size := 32
  read := do
    let id ← Cursor.u32
    let queue ← Cursor.u32
    let program ← Cursor.u32
    let bindless ← Cursor.u32
    let readCount ← Cursor.u32
    let writeCount ← Cursor.u32
    let nameLen ← Cursor.u32
    let reserved ← Cursor.u32
    pure ⟨id, queue, program, bindless, readCount, writeCount, nameLen, reserved⟩
  write p := Bytes.ofU32 p.id ++ Bytes.ofU32 p.queue ++ Bytes.ofU32 p.program
    ++ Bytes.ofU32 p.bindless ++ Bytes.ofU32 p.readCount ++ Bytes.ofU32 p.writeCount
    ++ Bytes.ofU32 p.nameLen ++ Bytes.ofU32 p.reserved

/-- One read or write of a pass, in its tail. -/
structure InteractionPayload where
  stage : UInt64
  access : UInt64
  resourceKind : UInt32
  resource : UInt32
  output : UInt32
  binding : UInt32
  layout : Int32
  reserved : UInt32
  deriving DecidableEq, Repr, Inhabited

instance : Payload InteractionPayload where
  size := 40
  read := do
    let stage ← Cursor.u64
    let access ← Cursor.u64
    let resourceKind ← Cursor.u32
    let resource ← Cursor.u32
    let output ← Cursor.u32
    let binding ← Cursor.u32
    let layout ← Cursor.i32
    let reserved ← Cursor.u32
    pure ⟨stage, access, resourceKind, resource, output, binding, layout, reserved⟩
  write p := Bytes.ofU64 p.stage ++ Bytes.ofU64 p.access ++ Bytes.ofU32 p.resourceKind
    ++ Bytes.ofU32 p.resource ++ Bytes.ofU32 p.output ++ Bytes.ofU32 p.binding
    ++ Bytes.ofI32 p.layout ++ Bytes.ofU32 p.reserved

/-- A forced alias: the base and the alias, of the kind the tag names. -/
structure ForceAliasPayload where
  base : UInt32
  member : UInt32
  deriving DecidableEq, Repr, Inhabited

instance : Payload ForceAliasPayload where
  size := 8
  read := do
    let base ← Cursor.u32
    let member ← Cursor.u32
    pure ⟨base, member⟩
  write p := Bytes.ofU32 p.base ++ Bytes.ofU32 p.member

/-- A buffer bucket of the baked graph. -/
structure CreateBufferPayload where
  size : UInt64
  bucket : UInt32
  base : UInt32
  usage : UInt32
  memory : UInt32
  persistent : UInt32
  memberCount : UInt32
  initialStage : UInt64
  initialAccess : UInt64
  deriving DecidableEq, Repr, Inhabited

instance : Payload CreateBufferPayload where
  size := 48
  read := do
    let size ← Cursor.u64
    let bucket ← Cursor.u32
    let base ← Cursor.u32
    let usage ← Cursor.u32
    let memory ← Cursor.u32
    let persistent ← Cursor.u32
    let memberCount ← Cursor.u32
    let initialStage ← Cursor.u64
    let initialAccess ← Cursor.u64
    pure ⟨size, bucket, base, usage, memory, persistent, memberCount, initialStage, initialAccess⟩
  write p := Bytes.ofU64 p.size ++ Bytes.ofU32 p.bucket ++ Bytes.ofU32 p.base
    ++ Bytes.ofU32 p.usage ++ Bytes.ofU32 p.memory ++ Bytes.ofU32 p.persistent
    ++ Bytes.ofU32 p.memberCount ++ Bytes.ofU64 p.initialStage ++ Bytes.ofU64 p.initialAccess

/-- An image bucket of the baked graph. -/
structure CreateImagePayload where
  initialStage : UInt64
  initialAccess : UInt64
  bucket : UInt32
  base : UInt32
  width : UInt32
  height : UInt32
  depth : UInt32
  format : Int32
  usage : UInt32
  mipLevels : UInt32
  arrayLayers : UInt32
  samples : UInt32
  persistent : UInt32
  memberCount : UInt32
  initialLayout : Int32
  reserved : UInt32
  deriving DecidableEq, Repr, Inhabited

instance : Payload CreateImagePayload where
  size := 72
  read := do
    let initialStage ← Cursor.u64
    let initialAccess ← Cursor.u64
    let bucket ← Cursor.u32
    let base ← Cursor.u32
    let width ← Cursor.u32
    let height ← Cursor.u32
    let depth ← Cursor.u32
    let format ← Cursor.i32
    let usage ← Cursor.u32
    let mipLevels ← Cursor.u32
    let arrayLayers ← Cursor.u32
    let samples ← Cursor.u32
    let persistent ← Cursor.u32
    let memberCount ← Cursor.u32
    let initialLayout ← Cursor.i32
    let reserved ← Cursor.u32
    pure ⟨initialStage, initialAccess, bucket, base, width, height, depth, format, usage, mipLevels, arrayLayers, samples, persistent, memberCount, initialLayout, reserved⟩
  write p := Bytes.ofU64 p.initialStage ++ Bytes.ofU64 p.initialAccess ++ Bytes.ofU32 p.bucket
    ++ Bytes.ofU32 p.base ++ Bytes.ofU32 p.width ++ Bytes.ofU32 p.height ++ Bytes.ofU32 p.depth
    ++ Bytes.ofI32 p.format ++ Bytes.ofU32 p.usage ++ Bytes.ofU32 p.mipLevels
    ++ Bytes.ofU32 p.arrayLayers ++ Bytes.ofU32 p.samples ++ Bytes.ofU32 p.persistent
    ++ Bytes.ofU32 p.memberCount ++ Bytes.ofI32 p.initialLayout ++ Bytes.ofU32 p.reserved

/-- A resource placed into a bucket at an offset. -/
structure AliasPayload where
  offset : UInt64
  resourceKind : UInt32
  resource : UInt32
  bucket : UInt32
  base : UInt32
  deriving DecidableEq, Repr, Inhabited

instance : Payload AliasPayload where
  size := 24
  read := do
    let offset ← Cursor.u64
    let resourceKind ← Cursor.u32
    let resource ← Cursor.u32
    let bucket ← Cursor.u32
    let base ← Cursor.u32
    pure ⟨offset, resourceKind, resource, bucket, base⟩
  write p := Bytes.ofU64 p.offset ++ Bytes.ofU32 p.resourceKind ++ Bytes.ofU32 p.resource
    ++ Bytes.ofU32 p.bucket ++ Bytes.ofU32 p.base

/-- The start of a queue: its class and how many passes and frames follow. -/
structure QueueBeginPayload where
  queue : UInt32
  passCount : UInt32
  frameCount : UInt32
  reserved : UInt32
  deriving DecidableEq, Repr, Inhabited

instance : Payload QueueBeginPayload where
  size := 16
  read := do
    let queue ← Cursor.u32
    let passCount ← Cursor.u32
    let frameCount ← Cursor.u32
    let reserved ← Cursor.u32
    pure ⟨queue, passCount, frameCount, reserved⟩
  write p := Bytes.ofU32 p.queue ++ Bytes.ofU32 p.passCount ++ Bytes.ofU32 p.frameCount
    ++ Bytes.ofU32 p.reserved

/-- A timeline wait in a tail: a queue and an index on it. -/
structure WaitPayload where
  queue : UInt32
  index : UInt32
  deriving DecidableEq, Repr, Inhabited

instance : Payload WaitPayload where
  size := 8
  read := do
    let queue ← Cursor.u32
    let index ← Cursor.u32
    pure ⟨queue, index⟩
  write p := Bytes.ofU32 p.queue ++ Bytes.ofU32 p.index

/-- A submit frame: signal value, queue, first index, length and the number of its waits. -/
structure FramePayload where
  signal : UInt64
  queue : UInt32
  first : UInt32
  len : UInt32
  waitCount : UInt32
  deriving DecidableEq, Repr, Inhabited

instance : Payload FramePayload where
  size := 24
  read := do
    let signal ← Cursor.u64
    let queue ← Cursor.u32
    let first ← Cursor.u32
    let len ← Cursor.u32
    let waitCount ← Cursor.u32
    pure ⟨signal, queue, first, len, waitCount⟩
  write p := Bytes.ofU64 p.signal ++ Bytes.ofU32 p.queue ++ Bytes.ofU32 p.first
    ++ Bytes.ofU32 p.len ++ Bytes.ofU32 p.waitCount

/-- A scheduled pass of the baked graph. -/
structure PassRecordPayload where
  id : UInt32
  queue : UInt32
  position : UInt32
  queueIndex : UInt32
  level : UInt32
  program : UInt32
  interactionCount : UInt32
  waitCount : UInt32
  nameLen : UInt32
  reserved : UInt32
  deriving DecidableEq, Repr, Inhabited

instance : Payload PassRecordPayload where
  size := 40
  read := do
    let id ← Cursor.u32
    let queue ← Cursor.u32
    let position ← Cursor.u32
    let queueIndex ← Cursor.u32
    let level ← Cursor.u32
    let program ← Cursor.u32
    let interactionCount ← Cursor.u32
    let waitCount ← Cursor.u32
    let nameLen ← Cursor.u32
    let reserved ← Cursor.u32
    pure ⟨id, queue, position, queueIndex, level, program, interactionCount, waitCount, nameLen, reserved⟩
  write p := Bytes.ofU32 p.id ++ Bytes.ofU32 p.queue ++ Bytes.ofU32 p.position
    ++ Bytes.ofU32 p.queueIndex ++ Bytes.ofU32 p.level ++ Bytes.ofU32 p.program
    ++ Bytes.ofU32 p.interactionCount ++ Bytes.ofU32 p.waitCount ++ Bytes.ofU32 p.nameLen
    ++ Bytes.ofU32 p.reserved

/-- An interaction of a scheduled pass, with the bucket of its resource. -/
structure ResolvedInteractionPayload where
  stage : UInt64
  access : UInt64
  resourceKind : UInt32
  resource : UInt32
  output : UInt32
  bucket : UInt32
  binding : UInt32
  mode : UInt32
  layout : Int32
  reserved : UInt32
  deriving DecidableEq, Repr, Inhabited

instance : Payload ResolvedInteractionPayload where
  size := 48
  read := do
    let stage ← Cursor.u64
    let access ← Cursor.u64
    let resourceKind ← Cursor.u32
    let resource ← Cursor.u32
    let output ← Cursor.u32
    let bucket ← Cursor.u32
    let binding ← Cursor.u32
    let mode ← Cursor.u32
    let layout ← Cursor.i32
    let reserved ← Cursor.u32
    pure ⟨stage, access, resourceKind, resource, output, bucket, binding, mode, layout, reserved⟩
  write p := Bytes.ofU64 p.stage ++ Bytes.ofU64 p.access ++ Bytes.ofU32 p.resourceKind
    ++ Bytes.ofU32 p.resource ++ Bytes.ofU32 p.output ++ Bytes.ofU32 p.bucket
    ++ Bytes.ofU32 p.binding ++ Bytes.ofU32 p.mode ++ Bytes.ofI32 p.layout
    ++ Bytes.ofU32 p.reserved

end RenderGraph.Stream
