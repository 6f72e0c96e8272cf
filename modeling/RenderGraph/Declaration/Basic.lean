import RenderGraph.Declaration.SlotStore
import RenderGraph.Error
import RenderGraph.Queue
/-!
# Declarations

A declaration is what a client builds before baking: resources, shaders, programs, samplers,
bindless tables and passes, each kept in a slot store of its kind, plus the order of the passes,
the forced aliases, the present image and the render settings. The front end is written against
the operations of any slot store (`SlotStore`); a session uses `SlotMap`.

Every call checks its handles before it changes anything, so a failed call leaves the
declaration as it was:

* a read or write checks the resource, then the pass, then that the binding slot is free;
* a write mints a new version of the resource named `name'` and records it as an alias;
* `aliasOf` mints a resource named `name (alias)` sharing the memory of its base;
* a render-sized image may not carry a format of its own, it is derived.

A successful change marks the declaration dirty; a bake marks it clean.
-/

namespace RenderGraph

/-- The key of a resource of either kind. -/
inductive ResKey where
  | buffer (key : Key)
  | image (key : Key)
  deriving DecidableEq, Repr, Inhabited

/-- The kind of resource a key names. -/
def ResKey.kind : ResKey → ResKind
  | .buffer _ => .buffer
  | .image _ => .image

/-- The slot of a resource key. -/
def ResKey.slot : ResKey → Nat
  | .buffer k => k.slot
  | .image k => k.slot

/-- The pipeline stage, the access mask and the optional layout of an interaction. -/
structure Access where
  stage : UInt64
  access : UInt64
  layout : Option Int32 := none
  deriving DecidableEq, Repr, Inhabited

namespace Access

/-- Storage reads in a compute shader. -/
def computeRead : Access := ⟨0x800, (1 : UInt64) <<< 33, none⟩

/-- Storage writes in a compute shader. -/
def computeWrite : Access := ⟨0x800, (1 : UInt64) <<< 34, none⟩

/-- Storage reads in a vertex shader. -/
def vertexRead : Access := ⟨0x8, (1 : UInt64) <<< 33, none⟩

/-- Storage reads in a fragment shader. -/
def fragmentRead : Access := ⟨0x80, (1 : UInt64) <<< 33, none⟩

/-- Sampled reads in a fragment shader, in the shader-read layout. -/
def sampled : Access := ⟨0x80, (1 : UInt64) <<< 32, some 5⟩

/-- Colour attachment writes, in the attachment layout. -/
def colorAttachment : Access := ⟨0x400, 0x100, some 2⟩

/-- Transfer reads of a copy. -/
def transferRead : Access := ⟨(1 : UInt64) <<< 32, 0x800, none⟩

/-- Transfer writes of a copy. -/
def transferWrite : Access := ⟨(1 : UInt64) <<< 32, 0x1000, none⟩

/-- Transfer writes of a clear, as fill passes do. -/
def fill : Access := ⟨(1 : UInt64) <<< 35, 0x1000, none⟩

end Access

/-- A declared buffer. -/
structure BufferDecl where
  name : String
  desc : BufDesc
  lifetime : Lifetime
  deriving DecidableEq, Repr, Inhabited

/-- A declared image. -/
structure ImageDecl where
  name : String
  desc : ImgDesc
  lifetime : Lifetime
  deriving DecidableEq, Repr, Inhabited

/-- A declared shader: its path and stage flags. -/
structure ShaderDecl where
  path : String
  stage : UInt32
  deriving DecidableEq, Repr, Inhabited

/-- A declared program and its shaders. -/
structure ProgramDecl where
  name : String
  shaders : List Key
  deriving DecidableEq, Repr, Inhabited

/-- A declared sampler. -/
structure SamplerDecl where
  name : String
  magFilter : Int32
  minFilter : Int32
  addressMode : Int32
  deriving DecidableEq, Repr, Inhabited

/-- A declared bindless table: every pass that uses it reads all of its resources. -/
structure BindlessDecl where
  name : String
  resources : List ResKey
  deriving DecidableEq, Repr, Inhabited

/-- One read or write of a pass. A write has the version it mints as output. -/
structure InteractionDecl where
  resource : ResKey
  output : Option ResKey
  binding : UInt32
  access : Access
  deriving DecidableEq, Repr, Inhabited

/-- A declared pass. -/
structure PassDecl where
  name : String
  queue : QueueClass
  program : Option Key := none
  bindless : Option Key := none
  reads : List InteractionDecl := []
  writes : List InteractionDecl := []
  deriving DecidableEq, Repr, Inhabited

/-- Whether a pass already binds something to a slot. -/
def PassDecl.usesBinding (p : PassDecl) (binding : UInt32) : Bool :=
  (p.reads ++ p.writes).any (·.binding == binding)

/-- Declared passes and resources, each kind of entry in a store of the slot-store implementation
`M`. -/
structure Declaration (M : Type → Type) [SlotStore M] where
  buffers : M BufferDecl := SlotStore.empty
  images : M ImageDecl := SlotStore.empty
  shaders : M ShaderDecl := SlotStore.empty
  programs : M ProgramDecl := SlotStore.empty
  samplers : M SamplerDecl := SlotStore.empty
  bindless : M BindlessDecl := SlotStore.empty
  passes : M PassDecl := SlotStore.empty
  /-- Passes in declaration order. -/
  passOrder : List Key := []
  /-- Pairs of base and alias, in declaration order. -/
  aliases : List (ResKey × ResKey) := []
  present : Option Key := none
  renderExtent : Option (UInt32 × UInt32) := none
  renderFormat : Format := .undefined
  /-- Whether anything changed since the last successful bake. -/
  dirty : Bool := true

instance {M : Type → Type} [SlotStore M] : Inhabited (Declaration M) := ⟨{}⟩

/-- The key of any declared entry. -/
inductive EntryKey where
  | buffer (key : Key)
  | image (key : Key)
  | shader (key : Key)
  | program (key : Key)
  | sampler (key : Key)
  | bindless (key : Key)
  | pass (key : Key)
  deriving DecidableEq, Repr, Inhabited

/-- The slot-map key inside an entry key. -/
def EntryKey.key : EntryKey → Key
  | .buffer k | .image k | .shader k | .program k | .sampler k | .bindless k | .pass k => k

/-- The entry key of a resource key. -/
def ResKey.entry : ResKey → EntryKey
  | .buffer k => .buffer k
  | .image k => .image k

/-- A change to a declaration that may fail; a failure keeps the declaration unchanged. -/
abbrev Declare (M : Type → Type) [SlotStore M] := StateT (Declaration M) (Except ConfigError)

namespace Declaration

variable {M : Type → Type} [SlotStore M]

/-- The pass a key names, for messages: the slot as id and the name, empty once removed. -/
def passRef (d : Declaration M) (k : Key) : PassRef :=
  ⟨k.slot, ((SlotStore.get? d.passes k).map (·.name)).getD ""⟩

/-- Whether a resource key is valid. -/
def hasRes (d : Declaration M) : ResKey → Bool
  | .buffer k => SlotStore.contains d.buffers k
  | .image k => SlotStore.contains d.images k

/-- Fails unless a resource key is valid. -/
def checkRes (key : ResKey) : Declare M Unit := do
  if !(← get).hasRes key then
    throw (.unknownHandle (if key.kind = .buffer then .buffer else .image) key.slot)

/-- Fails unless a pass key is valid. -/
def checkPass (k : Key) : Declare M Unit := do
  if !SlotStore.contains (← get).passes k then throw (.unknownHandle .pass k.slot)

/-- Fails unless the pass is valid and the binding slot is still free in it. -/
def checkBinding (pass : Key) (binding : UInt32) : Declare M Unit := do
  checkPass pass
  let d ← get
  if ((SlotStore.get? d.passes pass).map (·.usesBinding binding)).getD false then
    throw (.bindingSlotReused (d.passRef pass) binding.toNat)

/-- Sets the extent and format of render-sized images. -/
def setRenderExtent (width height : UInt32) (format : Format) : Declare M Unit :=
  modify fun d => { d with renderExtent := some (width, height), renderFormat := format, dirty := true }

/-- Declares a buffer. -/
def buffer (name : String) (desc : BufDesc) (lifetime : Lifetime) : Declare M Key :=
  modifyGet fun d =>
    let (k, buffers) := SlotStore.insert d.buffers ⟨name, desc, lifetime⟩
    (k, { d with buffers, dirty := true })

/-- Declares an image. A render-sized image must leave its format undefined. -/
def image (name : String) (desc : ImgDesc) (lifetime : Lifetime) : Declare M Key := do
  if desc.isRenderSized && desc.format != .undefined then
    throw (.derivedFormatOverride name desc.format.text)
  modifyGet fun d =>
    let (k, images) := SlotStore.insert d.images ⟨name, desc, lifetime⟩
    (k, { d with images, dirty := true })

/-- Declares a shader. -/
def shader (path : String) (stage : UInt32) : Declare M Key :=
  modifyGet fun d =>
    let (k, shaders) := SlotStore.insert d.shaders ⟨path, stage⟩
    (k, { d with shaders, dirty := true })

/-- Declares a program; every shader must be valid. -/
def program (name : String) (shaders : List Key) : Declare M Key := do
  for s in shaders do
    if !SlotStore.contains (← get).shaders s then throw (.unknownHandle .shader s.slot)
  modifyGet fun d =>
    let (k, programs) := SlotStore.insert d.programs ⟨name, shaders⟩
    (k, { d with programs, dirty := true })

/-- Declares a sampler. -/
def sampler (name : String) (magFilter minFilter addressMode : Int32) : Declare M Key :=
  modifyGet fun d =>
    let (k, samplers) := SlotStore.insert d.samplers ⟨name, magFilter, minFilter, addressMode⟩
    (k, { d with samplers, dirty := true })

/-- Declares a bindless table; every resource must be valid. -/
def bindlessTable (name : String) (resources : List ResKey) : Declare M Key := do
  for r in resources do checkRes r
  modifyGet fun d =>
    let (k, bindless) := SlotStore.insert d.bindless ⟨name, resources⟩
    (k, { d with bindless, dirty := true })

/-- Declares a pass at the end of the pass order. -/
def pass (name : String) (queue : QueueClass) : Declare M Key :=
  modifyGet fun d =>
    let (k, passes) := SlotStore.insert d.passes { name, queue }
    (k, { d with passes, passOrder := d.passOrder ++ [k], dirty := true })

/-- Lets a pass run a program. The program is checked before the pass. -/
def setProgram (pass program : Key) : Declare M Unit := do
  if !SlotStore.contains (← get).programs program then throw (.unknownHandle .program program.slot)
  checkPass pass
  modify fun d => { d with passes := SlotStore.modify d.passes pass fun p => { p with program := some program },
                           dirty := true }

/-- Lets a pass use a bindless table. The table is checked before the pass. -/
def useBindless (pass table : Key) : Declare M Unit := do
  if !SlotStore.contains (← get).bindless table then throw (.unknownHandle .bindless table.slot)
  checkPass pass
  modify fun d => { d with passes := SlotStore.modify d.passes pass fun p => { p with bindless := some table },
                           dirty := true }

/-- Declares that a pass reads a resource through a binding slot. -/
def read (pass : Key) (resource : ResKey) (binding : UInt32) (access : Access) : Declare M Unit := do
  checkRes resource
  checkBinding pass binding
  modify fun d =>
    { d with passes := SlotStore.modify d.passes pass fun p => { p with reads := p.reads ++ [⟨resource, none, binding, access⟩] },
             dirty := true }

/-- A new resource with the memory description and lifetime of another, named from its name. -/
def mint (source : ResKey) (rename : String → String) : Declare M ResKey := do
  checkRes source
  let d ← get
  match source with
  | .buffer k =>
    let src := (SlotStore.get? d.buffers k).getD default
    let (k', buffers) := SlotStore.insert d.buffers { src with name := rename src.name }
    set { d with buffers }
    pure (.buffer k')
  | .image k =>
    let src := (SlotStore.get? d.images k).getD default
    let (k', images) := SlotStore.insert d.images { src with name := rename src.name }
    set { d with images }
    pure (.image k')

/-- Declares that a pass overwrites a resource through a binding slot. The write mints the
version it produces, named with a prime; later readers of the written content use that key. -/
def write (pass : Key) (resource : ResKey) (binding : UInt32) (access : Access) : Declare M ResKey := do
  checkRes resource
  checkBinding pass binding
  let output ← mint resource (· ++ "'")
  modify fun d =>
    { d with aliases := d.aliases ++ [(resource, output)],
             passes := SlotStore.modify d.passes pass fun p =>
               { p with writes := p.writes ++ [⟨resource, some output, binding, access⟩] },
             dirty := true }
  pure output

/-- Declares a new resource that shares the memory of a base. -/
def aliasOf (base : ResKey) : Declare M ResKey := do
  checkRes base
  let a ← mint base (· ++ " (alias)")
  modify fun d => { d with aliases := d.aliases ++ [(base, a)], dirty := true }
  pure a

/-- Marks the image, or version of an image, presented after the graph ran. A buffer key is an
unknown image. -/
def setPresentImage (res : ResKey) : Declare M Unit := do
  checkRes res
  match res with
  | .image k => modify fun d => { d with present := some k, dirty := true }
  | .buffer k => throw (.unknownHandle .image k.slot)

/-- Forgets the aliases that involve a resource. -/
def dropAliasesOf (d : Declaration M) (res : ResKey) : Declaration M :=
  { d with aliases := d.aliases.filter fun (b, a) => b != res && a != res }

/-- Removes a declared entry. Removing a resource drops its aliases, removing the present image
clears it, and removing a pass takes it out of the pass order. -/
def remove (entry : EntryKey) : Declare M Unit := do
  let d ← get
  let gone (kind : EntryKind) (k : Key) : ConfigError := .unknownHandle kind k.slot
  let d ← match entry with
    | .buffer k => match SlotStore.remove d.buffers k with
      | some (_, buffers) => pure (dropAliasesOf { d with buffers } (.buffer k))
      | none => throw (gone .buffer k)
    | .image k => match SlotStore.remove d.images k with
      | some (_, images) =>
        let d := dropAliasesOf { d with images } (.image k)
        pure { d with present := if d.present = some k then none else d.present }
      | none => throw (gone .image k)
    | .pass k => match SlotStore.remove d.passes k with
      | some (_, passes) => pure { d with passes, passOrder := d.passOrder.filter (· != k) }
      | none => throw (gone .pass k)
    | .shader k => match SlotStore.remove d.shaders k with
      | some (_, shaders) => pure { d with shaders }
      | none => throw (gone .shader k)
    | .program k => match SlotStore.remove d.programs k with
      | some (_, programs) => pure { d with programs }
      | none => throw (gone .program k)
    | .sampler k => match SlotStore.remove d.samplers k with
      | some (_, samplers) => pure { d with samplers }
      | none => throw (gone .sampler k)
    | .bindless k => match SlotStore.remove d.bindless k with
      | some (_, bindless) => pure { d with bindless }
      | none => throw (gone .bindless k)
  set { d with dirty := true }

/-- The name of a resource, if its key is valid. -/
def nameOf (d : Declaration M) : ResKey → Option String
  | .buffer k => (SlotStore.get? d.buffers k).map (·.name)
  | .image k => (SlotStore.get? d.images k).map (·.name)

/-- The name of a pass, if its key is valid. -/
def passName (d : Declaration M) (k : Key) : Option String := (SlotStore.get? d.passes k).map (·.name)

/-- The number of declared passes. -/
def passCount (d : Declaration M) : Nat := d.passOrder.length

/-- Marks the declaration as baked. -/
def markClean (d : Declaration M) : Declaration M := { d with dirty := false }

end Declaration

end RenderGraph
