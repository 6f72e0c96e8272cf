import RenderGraph.Baked.Basic
/-!
# Emitting a baked graph

`BakedGraph.emit` assembles the baked graph from the stages of a bake: the buckets of the memory
plan in order, one alias per bucket member other than the bucket's base, and for each queue
class with live passes its frames and its passes in queue order, with every interaction
resolved to its bucket.
-/

namespace RenderGraph

namespace BakedGraph

/-- A bucket of the memory plan as the backend sees it. -/
def bakeBucket (b : Bucket) : BakedBucket :=
  ⟨b.id, b.base, b.desc, b.persistent, b.members.length, b.initial⟩

/-- The aliases of a bucket: every member other than its base, at offset 0. -/
def bucketAliases (b : Bucket) : List BakedAlias :=
  (b.members.filter (·.resource != b.base)).map fun m => ⟨m.resource, b.id, b.base, 0⟩

/-- Resolves an interaction to the bucket of its resource. -/
def resolve (m : MemoryPlan) (i : Interaction) : Except ConfigError ResolvedInteraction :=
  match m.bucketOf? i.resource with
  | some bucket => .ok ⟨i.resource, i.output, bucket, i.binding, i.mode, i.stage, i.access, i.layout⟩
  | none => .error (.unknownResource i.resource)

/-- A scheduled pass with its resolved interactions and its waits. -/
def bakePass (r : Registry) (s : Schedule) (sync : SyncPlan) (m : MemoryPlan) (q : QueueClass)
    (pass : Nat) : Except ConfigError BakedPass := do
  let info := r.passes.getD pass default
  let interactions ← info.interactions.mapM (resolve m)
  pure ⟨info.id, info.name, q, (s.positionOf? pass).getD 0, s.queueIndexOf pass, s.levelOf pass,
    info.program, interactions, sync.waitsOf pass⟩

/-- Assembles the baked graph of a bake. -/
def emit (r : Registry) (s : Schedule) (sync : SyncPlan) (m : MemoryPlan) :
    Except ConfigError BakedGraph := do
  let buckets := m.buckets.toList
  let queues ← (QueueClass.all.filter fun q => !(s.queues.get q).isEmpty).mapM fun q => do
    let passes ← (s.queues.get q).mapM (bakePass r s sync m q)
    pure (BakedQueue.mk q (sync.frames.get q) passes)
  pure ⟨buckets.map bakeBucket, buckets.flatMap bucketAliases, queues⟩

end BakedGraph

end RenderGraph
