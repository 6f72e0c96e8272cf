import RenderGraph.Image.Shape
import RenderGraph.Queue
/-!
# Resources and their descriptions

A resource is a buffer or an image, named by its kind and a dense id. A description says what
memory the resource needs; an interaction says how a pass touches one version of it.

Resources are ordered buffers first, then by id: `Res.key` is the order key, and every sorted
list of resources in this library is sorted by it.
-/

namespace RenderGraph

/-- The two kinds of resources. -/
inductive ResKind where
  | buffer
  | image
  deriving DecidableEq, Repr, Inhabited

namespace ResKind

/-- The kind with a raw wire value: 0 for buffers, 1 for images. -/
def ofRaw? : Nat → Option ResKind
  | 0 => some .buffer
  | 1 => some .image
  | _ => none

/-- The raw wire value of a kind. -/
def raw : ResKind → Nat
  | .buffer => 0
  | .image => 1

/-- The name of a kind. -/
def name : ResKind → String
  | .buffer => "Buffer"
  | .image => "Image"

end ResKind

/-- A resource: its kind and its dense id within the kind. -/
inductive Res where
  | buffer (id : Nat)
  | image (id : Nat)
  deriving DecidableEq, Repr, Inhabited

namespace Res

/-- The resource of a kind and id. -/
def mk : ResKind → Nat → Res
  | .buffer, id => .buffer id
  | .image, id => .image id

/-- The kind of a resource. -/
def kind : Res → ResKind
  | .buffer _ => .buffer
  | .image _ => .image

/-- The id of a resource within its kind. -/
def id : Res → Nat
  | .buffer i => i
  | .image i => i

/-- The order key: buffers before images, then by id. -/
def key (r : Res) : Nat × Nat := (r.kind.raw, r.id)

/-- Strict order on resources by their key. -/
def lt (a b : Res) : Bool := a.key.1 < b.key.1 || (a.key.1 = b.key.1 && a.key.2 < b.key.2)

/-- The text of a resource in messages, such as `Res::Buffer#3`. -/
def text (r : Res) : String := s!"Res::{r.kind.name}#{r.id}"

/-- The short text of a resource, such as `B3` or `I0`. -/
def short : Res → String
  | .buffer i => s!"B{i}"
  | .image i => s!"I{i}"

@[simp] theorem mk_kind_id (r : Res) : mk r.kind r.id = r := by cases r <;> rfl

end Res

/-- A pass named in messages: its dense id and its name. -/
structure PassRef where
  id : Nat
  name : String
  deriving DecidableEq, Repr, Inhabited

/-- The text of a pass in messages, such as `'shade' (Pass#4)`. -/
def PassRef.text (p : PassRef) : String := s!"'{p.name}' (Pass#{p.id})"

/-- Where a buffer's memory lives. -/
inductive MemoryClass where
  | gpuOnly
  | cpuToGpu
  | gpuToCpu
  deriving DecidableEq, Repr, Inhabited

namespace MemoryClass

/-- The class with a raw value 0 to 2, if there is one. -/
def ofRaw? : Nat → Option MemoryClass
  | 0 => some .gpuOnly
  | 1 => some .cpuToGpu
  | 2 => some .gpuToCpu
  | _ => none

/-- The raw value of a class. -/
def raw : MemoryClass → Nat
  | .gpuOnly => 0
  | .cpuToGpu => 1
  | .gpuToCpu => 2

/-- The name of a class. -/
def name : MemoryClass → String
  | .gpuOnly => "GpuOnly"
  | .cpuToGpu => "CpuToGpu"
  | .gpuToCpu => "GpuToCpu"

end MemoryClass

/-- Transient resources may share memory within one run; persistent ones keep identity and
memory across runs and never share. -/
inductive Lifetime where
  | transient
  | persistent
  deriving DecidableEq, Repr, Inhabited

namespace Lifetime

/-- The lifetime with a raw value 0 or 1, if there is one. -/
def ofRaw? : Nat → Option Lifetime
  | 0 => some .transient
  | 1 => some .persistent
  | _ => none

/-- The raw value of a lifetime. -/
def raw : Lifetime → Nat
  | .transient => 0
  | .persistent => 1

/-- The name of a lifetime. -/
def name : Lifetime → String
  | .transient => "Transient"
  | .persistent => "Persistent"

end Lifetime

/-- What a buffer needs: its size, its Vulkan usage flags and where its memory lives. -/
structure BufDesc where
  size : UInt64
  usage : UInt32
  memory : MemoryClass
  deriving DecidableEq, Repr, Inhabited

/-- A gpu-local storage buffer: usage storage, transfer source and destination. -/
def BufDesc.storage (size : UInt64) : BufDesc := ⟨size, 0x23, .gpuOnly⟩

/-- The extent of an image. Render-sized images follow the graph's render extent and format. -/
inductive ImageExtent where
  | fixed (width height depth : UInt32)
  | render
  deriving DecidableEq, Repr, Inhabited

/-- What an image needs. The format of a render-sized image stays undefined: it is derived. -/
structure ImgDesc where
  extent : ImageExtent
  format : Format
  usage : UInt32
  mipLevels : UInt32
  arrayLayers : UInt32
  samples : UInt32
  deriving DecidableEq, Repr, Inhabited

namespace ImgDesc

/-- A sampled 2D texture: usage sampled, storage and transfer destination, one level, layer and
sample. -/
def texture2d (width height : UInt32) (format : Format) : ImgDesc :=
  ⟨.fixed width height 1, format, 0xe, 1, 1, 1⟩

/-- A render-sized target with the given usage. -/
def renderTarget (usage : UInt32) : ImgDesc := ⟨.render, .undefined, usage, 1, 1, 1⟩

/-- Whether the image follows the render extent. -/
def isRenderSized (d : ImgDesc) : Bool := d.extent == .render

end ImgDesc

/-- Whether a pass reads a version or overwrites it. -/
inductive AccessMode where
  | read
  | write
  deriving DecidableEq, Repr, Inhabited

/-- The name of an access mode. -/
def AccessMode.name : AccessMode → String
  | .read => "Read"
  | .write => "Write"

/-- One access of a pass to a resource. A write consumes the version `resource` and mints the
version `output`; a read has no output. Stage and access are Vulkan's 64-bit flag words. -/
structure Interaction where
  resource : Res
  output : Option Res
  mode : AccessMode
  binding : Nat
  stage : UInt64
  access : UInt64
  layout : Option Int32
  deriving DecidableEq, Repr, Inhabited

/-- Whether the interaction overwrites its resource. -/
def Interaction.isWrite (i : Interaction) : Bool := i.mode == .write

end RenderGraph
