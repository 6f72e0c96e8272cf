import RenderGraph.Registry.Basic
import RenderGraph.Stream.Reader
import RenderGraph.Log
/-!
# Reading a declaration stream into a registry

`Registry.ingest` reads an input stream and checks it record by record. The first record must
be the brief, whose counts size every table; no count may exceed the number of records the
stream could hold. Each registering record claims a free id below its count, reads its tail
completely, and checks that every handle it names is already registered. Forced aliases and the
outputs of writes are linked into the alias forests, and an alias must fit the memory of its
chain's base. The first broken rule ends the reading with its error.
-/

open RenderGraph.Stream

namespace RenderGraph

/-- A bake step: it appends log records and may fail with a bake error. -/
abbrev BakeM := ExceptT BakeError Logged

namespace BakeM

/-- Fails with a stream error. -/
def ofStream {α : Type} : Except Stream.Error α → BakeM α
  | .ok a => pure a
  | .error e => throw (.stream e)

/-- Fails with a configuration error. -/
def ofConfig {α : Type} : Except ConfigError α → BakeM α
  | .ok a => pure a
  | .error e => throw (.configuration e)

/-- Fails with an alias error. -/
def ofAlias {α : Type} : Except AliasError α → BakeM α
  | .ok a => pure a
  | .error e => throw (.aliasing e)

end BakeM

open BakeM

/-- The component that reports ingestion. -/
def registryTarget : String := "rmg_bake::registry"

/-- The text of a brief in traces: every field with its raw value. -/
def Stream.BriefPayload.text (b : BriefPayload) : String :=
  s!"BriefPayload \x7b buffer_count: {b.bufferCount}, image_count: {b.imageCount}, " ++
  s!"pass_count: {b.passCount}, program_count: {b.programCount}, " ++
  s!"shader_count: {b.shaderCount}, sampler_count: {b.samplerCount}, " ++
  s!"bindless_count: {b.bindlessCount}, present_image: {b.presentImage}, " ++
  s!"render_width: {b.renderWidth}, render_height: {b.renderHeight}, " ++
  s!"render_format: {b.renderFormat.toInt}, _reserved: {b.reserved} \x7d"

/-- Every declared entry needs a record of at least sixteen bytes, so no count may exceed the
stream's length divided by sixteen. Counts are checked in the order buffers, images, passes,
programs, shaders, samplers, bindless tables. -/
def checkCounts (b : BriefPayload) (len : Nat) : Except ConfigError Unit :=
  let limit := len / recordOverhead
  let counts : List (EntryKind × UInt32) :=
    [(.buffer, b.bufferCount), (.image, b.imageCount), (.pass, b.passCount),
      (.program, b.programCount), (.shader, b.shaderCount), (.sampler, b.samplerCount),
      (.bindless, b.bindlessCount)]
  match counts.find? (fun (_, c) => c.toNat > limit) with
  | some (k, c) => .error (.countExceedsStream k c.toNat limit)
  | none => .ok ()

/-- Checks that an id lies below the table's size and that its entry is still free. -/
def claim {α : Type} (t : Array (Option α)) (kind : EntryKind) (id : Nat) :
    Except ConfigError Unit :=
  match t[id]? with
  | none => .error (.idOutOfRange kind id t.size)
  | some (some _) => .error (.duplicateId kind id)
  | some none => .ok ()

/-- Checks that an id names a filled entry. -/
def known {α : Type} (t : Array (Option α)) (kind : EntryKind) (id : Nat) :
    Except ConfigError Unit :=
  if (t[id]?).join.isSome then .ok () else .error (.unknownHandle kind id)

/-- Checks that a field's raw value lies in its enumeration. -/
def decodeEnum {α : Type} (field : String) (ofRaw? : Nat → Option α) (raw : UInt32) :
    Except ConfigError α :=
  match ofRaw? raw.toNat with
  | some a => .ok a
  | none => .error (.invalidValue field raw.toNat)

namespace Registry

/-- An empty registry with tables sized by the brief. The render extent exists only when both
dimensions are positive. -/
def ofBrief (b : BriefPayload) : Registry :=
  let slots (n : UInt32) {α : Type} : Array (Option α) := Array.replicate n.toNat none
  { brief :=
      { bufferCount := b.bufferCount.toNat, imageCount := b.imageCount.toNat
        passCount := b.passCount.toNat, programCount := b.programCount.toNat
        shaderCount := b.shaderCount.toNat, samplerCount := b.samplerCount.toNat
        bindlessCount := b.bindlessCount.toNat
        presentImage := idOfWord b.presentImage
        renderExtent :=
          if b.renderWidth > 0 ∧ b.renderHeight > 0 then some (b.renderWidth, b.renderHeight)
          else none
        renderFormat := ⟨b.renderFormat⟩ }
    buffers := slots b.bufferCount
    images := slots b.imageCount
    shaders := slots b.shaderCount
    programs := slots b.programCount
    samplers := slots b.samplerCount
    bindless := slots b.bindlessCount
    passes := #[]
    passSlots := slots b.passCount
    bufferForest := Forest.empty .buffer b.bufferCount.toNat
    imageForest := Forest.empty .image b.imageCount.toNat }

/-- A resource named by a raw kind and id, which must be registered. -/
def resourceRef (r : Registry) (kind id : UInt32) : Except ConfigError Res := do
  let k ← decodeEnum "resource kind" ResKind.ofRaw? kind
  let res := Res.mk k id.toNat
  if r.contains res then pure res else throw (.unknownResource res)

/-- Whether `member` fits the memory of the chain rooted at `root`: a buffer no larger than the
base, in the same memory class; an image of the same shape. -/
def compatible (r : Registry) (root member : Res) : Bool :=
  match root, member with
  | .buffer a, .buffer b =>
    match r.buffer? a, r.buffer? b with
    | some base, some al => al.desc.size ≤ base.desc.size && al.desc.memory == base.desc.memory
    | _, _ => false
  | .image a, .image b =>
    match r.image? a, r.image? b with
    | some base, some al => base.shape == al.shape
    | _, _ => false
  | _, _ => false

/-- Replaces the forest of a kind. -/
def setForest (r : Registry) (kind : ResKind) (f : Forest) : Registry :=
  match kind with
  | .buffer => { r with bufferForest := f }
  | .image => { r with imageForest := f }

/-- Points every id of both forests at its root. -/
def flattenForests (r : Registry) : Registry :=
  { r with bufferForest := r.bufferForest.flatten, imageForest := r.imageForest.flatten }

/-- Links `member` under the chain of `base` and checks that it fits the chain's root. -/
def link (r : Registry) (base member : Res) : BakeM Registry := do
  let (result, f) := (r.forest base.kind).link base.id member.id
  let rootId ← ofAlias result
  let root := Res.mk base.kind rootId
  log .trace registryTarget s!"Aliasing {member.text} onto {base.text} (root {root.text})"
  let r := r.setForest base.kind f
  if r.compatible root member then pure r else throw (.aliasing (.descriptorMismatch member root))

/-- Registers a shader. -/
def addShader (r : Registry) (rec : Record) : BakeM Registry := do
  let p ← ofStream (rec.payloadAs ShaderPayload)
  ofConfig (claim r.shaders .shader p.id.toNat)
  let path ← ofStream (TailM.run rec (TailM.string p.pathLen.toNat))
  pure { r with shaders := r.shaders.set! p.id.toNat (some ⟨path, p.stage⟩) }

/-- Registers a program; its shaders must be registered. -/
def addProgram (r : Registry) (rec : Record) : BakeM Registry := do
  let p ← ofStream (rec.payloadAs ProgramPayload)
  ofConfig (claim r.programs .program p.id.toNat)
  let (shaders, name) ← ofStream (TailM.run rec do
    let shaders ← TailM.items UInt32 p.shaderCount.toNat
    let name ← TailM.string p.nameLen.toNat
    pure (shaders, name))
  let shaders := shaders.map (·.toNat)
  ofConfig (shaders.forM (known r.shaders .shader))
  pure { r with programs := r.programs.set! p.id.toNat (some ⟨name, shaders⟩) }

/-- Registers a buffer as the root of a chain of its own. -/
def addBuffer (r : Registry) (rec : Record) : BakeM Registry := do
  let p ← ofStream (rec.payloadAs BufferPayload)
  ofConfig (claim r.buffers .buffer p.id.toNat)
  let name ← ofStream (TailM.run rec (TailM.string p.nameLen.toNat))
  let memory ← ofConfig (decodeEnum "memory class" MemoryClass.ofRaw? p.memory)
  let lifetime ← ofConfig (decodeEnum "lifetime class" Lifetime.ofRaw? p.lifetime)
  if p.size = 0 then log .warn registryTarget s!"Buffer {p.id} '{name}' has size 0"
  pure { r with
    buffers := r.buffers.set! p.id.toNat (some ⟨name, ⟨p.size, p.usage, memory⟩, lifetime⟩)
    bufferForest := r.bufferForest.register p.id.toNat }

/-- Registers an image. A fixed extent keeps its size (depth at least one); a render-sized image
takes the render extent and format, and must not set a format of its own. -/
def addImage (r : Registry) (rec : Record) : BakeM Registry := do
  let p ← ofStream (rec.payloadAs ImagePayload)
  ofConfig (claim r.images .image p.id.toNat)
  let name ← ofStream (TailM.run rec (TailM.string p.nameLen.toNat))
  let lifetime ← ofConfig (decodeEnum "lifetime class" Lifetime.ofRaw? p.lifetime)
  let format : Format := ⟨p.format⟩
  let (extent, width, height, depth, shapeFormat) ← match p.sizing with
    | 0 => pure (ImageExtent.fixed p.width p.height (max p.depth 1), p.width, p.height,
        max p.depth 1, format)
    | 1 =>
      if format ≠ .undefined then
        throw (.configuration (.derivedFormatOverride name format.text))
      else match r.brief.renderExtent with
        | none => throw (.configuration (.noRenderExtent (.image p.id.toNat)))
        | some (w, h) => pure (ImageExtent.render, w, h, 1, r.brief.renderFormat)
    | other => throw (.configuration (.invalidValue "image sizing" other.toNat))
  let desc : ImgDesc := ⟨extent, format, p.usage, max p.mipLevels 1, max p.arrayLayers 1,
    max p.samples 1⟩
  let shape : ImageShape := ⟨width, height, depth, shapeFormat, desc.mipLevels, desc.arrayLayers,
    desc.samples⟩
  pure { r with
    images := r.images.set! p.id.toNat (some ⟨name, desc, shape, lifetime⟩)
    imageForest := r.imageForest.register p.id.toNat }

/-- Registers a sampler. -/
def addSampler (r : Registry) (rec : Record) : BakeM Registry := do
  let p ← ofStream (rec.payloadAs SamplerPayload)
  ofConfig (claim r.samplers .sampler p.id.toNat)
  let name ← ofStream (TailM.run rec (TailM.string p.nameLen.toNat))
  pure { r with
    samplers := r.samplers.set! p.id.toNat (some ⟨name, p.magFilter, p.minFilter, p.addressMode⟩) }

/-- Registers a bindless table; its resources must be registered. -/
def addBindless (r : Registry) (rec : Record) : BakeM Registry := do
  let p ← ofStream (rec.payloadAs BindlessPayload)
  ofConfig (claim r.bindless .bindless p.id.toNat)
  let (refs, name) ← ofStream (TailM.run rec do
    let refs ← TailM.items ResourceRefPayload p.resourceCount.toNat
    let name ← TailM.string p.nameLen.toNat
    pure (refs, name))
  let resources ← ofConfig (refs.mapM fun x => r.resourceRef x.kind x.id)
  pure { r with bindless := r.bindless.set! p.id.toNat (some ⟨name, resources⟩) }

/-- A forced alias of the given kind. -/
def addForceAlias (r : Registry) (kind : ResKind) (rec : Record) : BakeM Registry := do
  let p ← ofStream (rec.payloadAs ForceAliasPayload)
  ofStream (TailM.run rec (pure ()))
  r.link (Res.mk kind p.base.toNat) (Res.mk kind p.member.toNat)

/-- Decodes one read or write of a pass. A read has no output; a write needs an output that is
registered and differs from the written resource. -/
def interaction (r : Registry) (raw : InteractionPayload) (mode : AccessMode) (pass : PassRef) :
    Except ConfigError Interaction := do
  let resource ← r.resourceRef raw.resourceKind raw.resource
  let output ← match mode, idOfWord raw.output with
    | .read, none => pure none
    | .read, some o => throw (.invalidValue "read output" o)
    | .write, none => throw (.missingOutputAlias pass resource)
    | .write, some o =>
      let output := Res.mk resource.kind o
      if output = resource then throw (.outputAliasNotDistinct pass resource)
      else if !r.contains output then throw (.unknownResource output)
      else pure (some output)
  pure ⟨resource, output, mode, raw.binding.toNat, raw.stage, raw.access,
    if raw.layout = 0 then none else some raw.layout⟩

/-- Decodes interactions in order; every binding slot of the pass may be used once. -/
def decodeInteractions (r : Registry) (pass : PassRef) (mode : AccessMode) :
    List Nat → List InteractionPayload → Except ConfigError (List Interaction × List Nat)
  | used, [] => .ok ([], used)
  | used, raw :: rest => do
    if used.contains raw.binding.toNat then throw (.bindingSlotReused pass raw.binding.toNat)
    let i ← r.interaction raw mode pass
    let (is, used) ← r.decodeInteractions pass mode (raw.binding.toNat :: used) rest
    pure (i :: is, used)

/-- Puts a write's output into the chain of the written resource: nothing to do when both
already share a root, an error when the output hangs in another chain, a link otherwise. -/
def chainOutput (r : Registry) (pass : PassRef) (w : Interaction) : BakeM Registry :=
  match w.output with
  | none => pure r
  | some output =>
    let (resourceRoot, f) := (r.forest w.resource.kind).find w.resource.id
    let (outputRoot, f) := f.find output.id
    let r := r.setForest w.resource.kind f
    if resourceRoot = outputRoot then pure r
    else if outputRoot ≠ output.id then
      throw (.configuration (.foreignOutputAlias pass w.resource output))
    else r.link w.resource output

/-- Registers a pass: its id, tail, queue, program and bindless table, then its reads and
writes, whose outputs join the chains of the written resources. -/
def addPass (r : Registry) (rec : Record) : BakeM Registry := do
  let p ← ofStream (rec.payloadAs PassPayload)
  let id := p.id.toNat
  match r.passSlots[id]? with
  | none => throw (.configuration (.idOutOfRange .pass id r.passSlots.size))
  | some (some _) => throw (.configuration (.duplicateId .pass id))
  | some none => pure ()
  let (reads, writes, name) ← ofStream (TailM.run rec do
    let reads ← TailM.items InteractionPayload p.readCount.toNat
    let writes ← TailM.items InteractionPayload p.writeCount.toNat
    let name ← TailM.string p.nameLen.toNat
    pure (reads, writes, name))
  let pass : PassRef := ⟨id, name⟩
  let queue ← ofConfig (decodeEnum "queue class" QueueClass.ofRaw? p.queue)
  let program := idOfWord p.program
  if let some prog := program then ofConfig (known r.programs .program prog)
  let bindless := idOfWord p.bindless
  if let some b := bindless then ofConfig (known r.bindless .bindless b)
  let (reads, used) ← ofConfig (r.decodeInteractions pass .read [] reads)
  let (writes, _) ← ofConfig (r.decodeInteractions pass .write used writes)
  let r ← writes.foldlM (fun r w => r.chainOutput pass w) r
  let bindlessReads := ((bindless.bind r.bindlessTable?).map (·.resources)).getD []
  log .trace registryTarget
    s!"Pass {pass.text} on {queue.name}: {reads.length} reads, {writes.length} writes, {bindlessReads.length} bindless reads"
  pure { r with
    passSlots := r.passSlots.set! id (some r.passes.size)
    passes := r.passes.push ⟨id, name, queue, program, bindless, reads, writes, bindlessReads⟩ }

/-- Registers one record of the declaration body. -/
def addRecord (r : Registry) (rec : Record) : BakeM Registry :=
  match rec.tag with
  | .setBrief => throw (.configuration .duplicateBrief)
  | .registerShader => r.addShader rec
  | .registerProgram => r.addProgram rec
  | .registerBuffer => r.addBuffer rec
  | .registerImage => r.addImage rec
  | .registerSampler => r.addSampler rec
  | .registerBindless => r.addBindless rec
  | .forceAliasBuffer => r.addForceAlias .buffer rec
  | .forceAliasImage => r.addForceAlias .image rec
  | .registerPass => r.addPass rec
  | other => throw (.stream (.unexpectedTag other))

/-- Registers records up to the end record, reading at most `fuel` records. -/
def addRecords (r : Registry) : Nat → Reader → BakeM Registry
  | 0, _ => pure r
  | fuel + 1, rd => do
    let (rec, rd) ← ofStream rd.next
    if rec.tag = .end then pure r
    else
      let r ← r.addRecord rec
      r.addRecords fuel rd

/-- The number of registered entries of a table. -/
def filledCount {α : Type} (t : Array (Option α)) : Nat := (filledIds t).length

/-- Reads and checks a declaration stream. Every record takes at least sixteen bytes, so a
stream of `n` bytes holds fewer than `n` records. -/
def ingest (bytes : Bytes) : BakeM Registry := do
  let rd ← ofStream (Reader.start bytes inputMagic)
  let (first, rd) ← ofStream rd.next
  if first.tag ≠ .setBrief then throw (.configuration .missingBrief)
  let brief ← ofStream (first.payloadAs BriefPayload)
  ofStream (TailM.run first (pure ()))
  ofConfig (checkCounts brief bytes.length)
  log .trace registryTarget s!"Brief: {brief.text}"
  let r ← (ofBrief brief).addRecords bytes.length rd
  if let some present := r.brief.presentImage then ofConfig (known r.images .presentImage present)
  let r := r.flattenForests
  log .info registryTarget
    s!"Ingested {r.passes.size} passes, {filledCount r.buffers} buffers, {filledCount r.images} images"
  pure r

end Registry

end RenderGraph
