import RenderGraph.Declaration.Basic
import RenderGraph.Stream.Writer
/-!
# Encoding a declaration

`Declaration.encode` writes a declaration as an input stream. Entries get dense ids: each kind
numbers its valid keys in its store's iteration order, except passes, which are numbered in
declaration order. The records follow in a fixed order: the brief, shaders, programs, samplers,
buffers, images, forced aliases, bindless tables and passes.

Encoding fails when an entry still names a removed handle: the present image, a program's
shader, an alias, a table's resource, or a pass's program, table or resources. The handles are
checked in record order, so the first such handle is the one reported.
-/

open RenderGraph.Stream

namespace RenderGraph

/-- The dense ids of the entries of one encoded stream. -/
structure DenseIds where
  buffers : List (Key × Nat) := []
  images : List (Key × Nat) := []
  passes : List (Key × Nat) := []
  shaders : List (Key × Nat) := []
  programs : List (Key × Nat) := []
  samplers : List (Key × Nat) := []
  bindless : List (Key × Nat) := []
  /-- The pass keys, by pass id. -/
  passKeys : List Key := []
  deriving Repr, Inhabited

namespace DenseIds

/-- The id of a key in a numbering. -/
def lookup (t : List (Key × Nat)) (k : Key) : Option Nat := (t.find? (·.1 == k)).map (·.2)

/-- The stream resource of a resource key. -/
def res (ids : DenseIds) : ResKey → Option Res
  | .buffer k => (lookup ids.buffers k).map .buffer
  | .image k => (lookup ids.images k).map .image

/-- The pass id of a pass key. -/
def pass (ids : DenseIds) (k : Key) : Option Nat := lookup ids.passes k

/-- The key of a pass id. -/
def passKey (ids : DenseIds) (id : Nat) : Option Key := ids.passKeys[id]?

end DenseIds

/-- An input stream with the ids used to write it. -/
structure Encoded where
  bytes : Bytes
  ids : DenseIds

namespace Declaration

variable {M : Type → Type} [SlotStore M]

/-- Numbers keys from 0 in list order. -/
def number (keys : List Key) : List (Key × Nat) := keys.zipIdx

/-- The dense ids of a declaration. -/
def denseIds (d : Declaration M) : DenseIds :=
  { buffers := number (SlotStore.keys d.buffers), images := number (SlotStore.keys d.images),
    passes := number d.passOrder, shaders := number (SlotStore.keys d.shaders),
    programs := number (SlotStore.keys d.programs), samplers := number (SlotStore.keys d.samplers),
    bindless := number (SlotStore.keys d.bindless), passKeys := d.passOrder }

/-- The word of a Nat field. -/
def w32 (n : Nat) : UInt32 := n.toUInt32

/-- The stream reference of a valid resource key. -/
def resourceRef (d : Declaration M) (ids : DenseIds) (key : ResKey) :
    Except ConfigError ResourceRefPayload := do
  let _ ← (checkRes key).run d
  match ids.res key with
  | some r => pure ⟨w32 r.kind.raw, w32 r.id⟩
  | none => throw (.unknownHandle .resource noneId.toNat)

/-- The wire form of one read or write. -/
def interactionPayload (d : Declaration M) (ids : DenseIds) (i : InteractionDecl) :
    Except ConfigError InteractionPayload := do
  let r ← d.resourceRef ids i.resource
  let output ← match i.output with
    | some o => pure (← d.resourceRef ids o).id
    | none => pure noneId
  pure ⟨i.access.stage, i.access.access, r.kind, r.id, output, i.binding, i.access.layout.getD 0, 0⟩

/-- The id of a key in a numbering, or the error for a removed handle. -/
def idOf (t : List (Key × Nat)) (kind : EntryKind) (k : Key) : Except ConfigError UInt32 :=
  match DenseIds.lookup t k with
  | some id => .ok (w32 id)
  | none => .error (.unknownHandle kind k.slot)

/-- The records of a declaration, in stream order, and the ids they use. -/
def records (d : Declaration M) : Except ConfigError (List Record × DenseIds) := do
  let ids := d.denseIds
  let present ← match d.present with
    | some k => pure (some (← d.resourceRef ids (.image k)).id.toNat)
    | none => pure none
  let (width, height) := d.renderExtent.getD (0, 0)
  let brief := Record.ofPayload .setBrief (BriefPayload.mk (w32 (SlotStore.size d.buffers)) (w32 (SlotStore.size d.images))
    (w32 d.passOrder.length) (w32 (SlotStore.size d.programs)) (w32 (SlotStore.size d.shaders)) (w32 (SlotStore.size d.samplers))
    (w32 (SlotStore.size d.bindless)) (wordOfId present) width height d.renderFormat.raw 0) []
  let shaders := (SlotStore.entries d.shaders).zipIdx.map fun ((_, s), id) =>
    let path := Bytes.ofString s.path
    Record.ofPayload .registerShader (ShaderPayload.mk (w32 id) s.stage (w32 path.length) 0) path
  let programs ← (SlotStore.entries d.programs).zipIdx.mapM fun ((_, p), id) => do
    let shaders ← p.shaders.mapM (idOf ids.shaders .shader)
    let name := Bytes.ofString p.name
    pure (Record.ofPayload .registerProgram (ProgramPayload.mk (w32 id) (w32 shaders.length)
      (w32 name.length) 0) (Tail.ofItems shaders ++ name))
  let samplers := (SlotStore.entries d.samplers).zipIdx.map fun ((_, s), id) =>
    let name := Bytes.ofString s.name
    Record.ofPayload .registerSampler (SamplerPayload.mk (w32 id) s.magFilter s.minFilter
      s.addressMode (w32 name.length) 0) name
  let buffers := (SlotStore.entries d.buffers).zipIdx.map fun ((_, b), id) =>
    let name := Bytes.ofString b.name
    Record.ofPayload .registerBuffer (BufferPayload.mk b.desc.size (w32 id) b.desc.usage
      (w32 b.desc.memory.raw) (w32 b.lifetime.raw) (w32 name.length) 0) name
  let images := (SlotStore.entries d.images).zipIdx.map fun ((_, img), id) =>
    let name := Bytes.ofString img.name
    let (sizing, width, height, depth) : UInt32 × UInt32 × UInt32 × UInt32 :=
      match img.desc.extent with
      | .fixed w h dp => (0, w, h, dp)
      | .render => (1, 0, 0, 1)
    Record.ofPayload .registerImage (ImagePayload.mk (w32 id) sizing width height depth
      img.desc.format.raw img.desc.usage img.desc.mipLevels img.desc.arrayLayers img.desc.samples
      (w32 img.lifetime.raw) (w32 name.length)) name
  let aliases ← d.aliases.mapM fun (base, a) => do
    let base ← d.resourceRef ids base
    let a ← d.resourceRef ids a
    let tag := if base.kind = w32 ResKind.buffer.raw then Tag.forceAliasBuffer else .forceAliasImage
    pure (Record.ofPayload tag (ForceAliasPayload.mk base.id a.id) [])
  let tables ← (SlotStore.entries d.bindless).zipIdx.mapM fun ((_, t), id) => do
    let refs ← t.resources.mapM (d.resourceRef ids)
    let name := Bytes.ofString t.name
    pure (Record.ofPayload .registerBindless (BindlessPayload.mk (w32 id) (w32 refs.length)
      (w32 name.length) 0) (Tail.ofItems refs ++ name))
  let passes ← d.passOrder.zipIdx.mapM fun (k, id) => do
    let p := (SlotStore.get? d.passes k).getD default
    let program ← p.program.mapM (idOf ids.programs .program)
    let table ← p.bindless.mapM (idOf ids.bindless .bindless)
    let reads ← p.reads.mapM (d.interactionPayload ids)
    let writes ← p.writes.mapM (d.interactionPayload ids)
    let name := Bytes.ofString p.name
    pure (Record.ofPayload .registerPass (PassPayload.mk (w32 id) (w32 p.queue.index)
      (program.getD noneId) (table.getD noneId) (w32 reads.length) (w32 writes.length)
      (w32 name.length) 0) (Tail.ofItems reads ++ Tail.ofItems writes ++ name))
  pure (brief :: shaders ++ programs ++ samplers ++ buffers ++ images ++ aliases ++ tables ++ passes,
    ids)

/-- The component that reports declarations. -/
def target : String := "rmg_bake::declare"

/-- Writes a declaration as an input stream. -/
def encode (d : Declaration M) : ExceptT ConfigError Logged Encoded := do
  let (records, ids) ← ExceptT.mk (pure d.records)
  log .trace target
    s!"Encoded declaration: {d.passOrder.length} passes, {SlotStore.size d.buffers} buffers, {SlotStore.size d.images} images, {d.aliases.length} aliases"
  let bytes ← writeLogged inputMagic records
  pure ⟨bytes, ids⟩

end Declaration

end RenderGraph
