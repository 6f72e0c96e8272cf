import RenderGraph.Registry.Forest
/-!
# The registry

A registry holds everything a declaration stream registered, in dense tables indexed by id:
shaders, programs, buffers, images, samplers, bindless tables and passes, with one alias forest
per resource kind. Passes are kept in declaration order, and `passSlots` maps a pass id to its
declaration index.

The queries here (`resources`, `baseOf`, `chainOrder`, `lifetime`, ...) are what the later
stages see of a registry.
-/

namespace RenderGraph

/-- Global settings of a declaration: entry counts, the present image and render settings. -/
structure Brief where
  bufferCount : Nat
  imageCount : Nat
  passCount : Nat
  programCount : Nat
  shaderCount : Nat
  samplerCount : Nat
  bindlessCount : Nat
  presentImage : Option Nat
  /-- The extent render-sized images take; absent when a dimension is zero. -/
  renderExtent : Option (UInt32 × UInt32)
  renderFormat : Format
  deriving DecidableEq, Repr, Inhabited

structure BufferInfo where
  name : String
  desc : BufDesc
  lifetime : Lifetime
  deriving DecidableEq, Repr, Inhabited

structure ImageInfo where
  name : String
  desc : ImgDesc
  /-- The physical shape after resolving a render extent. -/
  shape : ImageShape
  lifetime : Lifetime
  deriving DecidableEq, Repr, Inhabited

structure ShaderInfo where
  path : String
  stage : UInt32
  deriving DecidableEq, Repr, Inhabited

structure ProgramInfo where
  name : String
  shaders : List Nat
  deriving DecidableEq, Repr, Inhabited

structure SamplerInfo where
  name : String
  magFilter : Int32
  minFilter : Int32
  addressMode : Int32
  deriving DecidableEq, Repr, Inhabited

structure BindlessInfo where
  name : String
  resources : List Res
  deriving DecidableEq, Repr, Inhabited

/-- A registered pass. -/
structure PassInfo where
  id : Nat
  name : String
  queue : QueueClass
  program : Option Nat
  bindless : Option Nat
  reads : List Interaction
  writes : List Interaction
  /-- The resources of the bound bindless table, which the pass reads too. -/
  bindlessReads : List Res
  deriving DecidableEq, Repr, Inhabited

namespace PassInfo

/-- The pass as messages name it. -/
def ref (p : PassInfo) : PassRef := ⟨p.id, p.name⟩

/-- Reads, then writes. -/
def interactions (p : PassInfo) : List Interaction := p.reads ++ p.writes

/-- Every version the pass reads: explicit reads first, then the bindless table. -/
def readVersions (p : PassInfo) : List Res := p.reads.map (·.resource) ++ p.bindlessReads

end PassInfo

/-- Everything a declaration stream registered. -/
structure Registry where
  brief : Brief
  buffers : Array (Option BufferInfo)
  images : Array (Option ImageInfo)
  shaders : Array (Option ShaderInfo)
  programs : Array (Option ProgramInfo)
  samplers : Array (Option SamplerInfo)
  bindless : Array (Option BindlessInfo)
  /-- Passes in declaration order. -/
  passes : Array PassInfo
  /-- The declaration index of each pass id. -/
  passSlots : Array (Option Nat)
  bufferForest : Forest
  imageForest : Forest
  deriving DecidableEq, Repr

namespace Registry

def buffer? (r : Registry) (id : Nat) : Option BufferInfo := (r.buffers[id]?).join
def image? (r : Registry) (id : Nat) : Option ImageInfo := (r.images[id]?).join
def shader? (r : Registry) (id : Nat) : Option ShaderInfo := (r.shaders[id]?).join
def program? (r : Registry) (id : Nat) : Option ProgramInfo := (r.programs[id]?).join
def sampler? (r : Registry) (id : Nat) : Option SamplerInfo := (r.samplers[id]?).join
def bindlessTable? (r : Registry) (id : Nat) : Option BindlessInfo := (r.bindless[id]?).join

/-- The declaration index of a pass id. -/
def passIndex? (r : Registry) (id : Nat) : Option Nat := (r.passSlots[id]?).join

/-- The pass with an id. -/
def pass? (r : Registry) (id : Nat) : Option PassInfo := (r.passIndex? id).bind (r.passes[·]?)

/-- Whether a resource is registered. -/
def contains (r : Registry) : Res → Bool
  | .buffer i => (r.buffer? i).isSome
  | .image i => (r.image? i).isSome

/-- The ids of the filled entries of a table, ascending. -/
def filledIds {α : Type} (t : Array (Option α)) : List Nat :=
  (List.range t.size).filter fun i => (t[i]?).join.isSome

/-- Every registered resource: buffers first, each kind by ascending id. -/
def resources (r : Registry) : List Res :=
  (filledIds r.buffers).map .buffer ++ (filledIds r.images).map .image

/-- The forest of a resource kind. -/
def forest (r : Registry) : ResKind → Forest
  | .buffer => r.bufferForest
  | .image => r.imageForest

/-- The base of a resource: the root of its alias chain. -/
def baseOf (r : Registry) (res : Res) : Res := Res.mk res.kind ((r.forest res.kind).root res.id)

/-- The position of a resource within its chain; 0 for the base. -/
def chainOrder (r : Registry) (res : Res) : Nat := (r.forest res.kind).orderOf res.id

/-- The lifetime of a resource's chain: that of its base. -/
def lifetime (r : Registry) (res : Res) : Lifetime :=
  match r.baseOf res with
  | .buffer i => ((r.buffer? i).map (·.lifetime)).getD .transient
  | .image i => ((r.image? i).map (·.lifetime)).getD .transient

/-- The name of a registered resource. -/
def nameOf? (r : Registry) : Res → Option String
  | .buffer i => (r.buffer? i).map (·.name)
  | .image i => (r.image? i).map (·.name)

/-- The present image, if the brief names one. -/
def presentImage (r : Registry) : Option Nat := r.brief.presentImage

end Registry

end RenderGraph
