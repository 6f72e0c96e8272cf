import RenderGraph.Memory
/-!
# Baked graphs

A baked graph is what an execution backend receives: the memory buckets with the aliases placed
into them, and for every queue that has work its submit frames and its scheduled passes, each
interaction resolved to the bucket of its resource. It is written as an output stream
(`BakedGraph.encode`) and read back from one (`BakedGraph.decode`).
-/

namespace RenderGraph

/-- A bucket as the backend creates it. -/
structure BakedBucket where
  id : Nat
  base : Res
  desc : BucketDesc
  persistent : Bool
  memberCount : Nat
  initial : InitialState
  deriving DecidableEq, Repr, Inhabited

/-- A resource placed into a bucket at an offset. -/
structure BakedAlias where
  resource : Res
  bucket : Nat
  base : Res
  offset : UInt64
  deriving DecidableEq, Repr, Inhabited

/-- An interaction with the bucket that holds its resource. -/
structure ResolvedInteraction where
  resource : Res
  output : Option Res
  bucket : Nat
  binding : Nat
  mode : AccessMode
  stage : UInt64
  access : UInt64
  layout : Option Int32
  deriving DecidableEq, Repr, Inhabited

/-- A scheduled pass. -/
structure BakedPass where
  id : Nat
  name : String
  queue : QueueClass
  position : Nat
  queueIndex : Nat
  level : Nat
  program : Option Nat
  interactions : List ResolvedInteraction
  waits : List SyncEntry
  deriving DecidableEq, Repr, Inhabited

/-- The work of one queue: its frames and its passes in queue order. -/
structure BakedQueue where
  queue : QueueClass
  frames : List Frame
  passes : List BakedPass
  deriving DecidableEq, Repr, Inhabited

/-- Everything a backend needs to run a bake. -/
structure BakedGraph where
  buckets : List BakedBucket
  aliases : List BakedAlias
  queues : List BakedQueue
  deriving DecidableEq, Repr, Inhabited

namespace BakedGraph

/-- Every pass of every queue, queue by queue. -/
def allPasses (g : BakedGraph) : List BakedPass := g.queues.flatMap (·.passes)

/-- The number of passes in all queues. -/
def passCount (g : BakedGraph) : Nat := total (g.queues.map (·.passes.length))

/-- The first queue entry of a class. -/
def queue? (g : BakedGraph) (q : QueueClass) : Option BakedQueue := g.queues.find? (·.queue == q)

/-- The passes ordered by position; passes of equal position keep their queue order. -/
def passesInOrder (g : BakedGraph) : List BakedPass :=
  g.allPasses.mergeSort fun a b => a.position ≤ b.position

/-- The first pass with an id. -/
def pass? (g : BakedGraph) (id : Nat) : Option BakedPass := g.allPasses.find? (·.id == id)

/-- The bucket of a resource: the bucket it is the base of, else the bucket of its alias. -/
def bucketOf? (g : BakedGraph) (r : Res) : Option Nat :=
  match g.buckets.find? (·.base == r) with
  | some b => some b.id
  | none => (g.aliases.find? (·.resource == r)).map (·.bucket)

end BakedGraph

end RenderGraph
