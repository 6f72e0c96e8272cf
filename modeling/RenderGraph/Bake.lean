import RenderGraph.Baked.Emit
import RenderGraph.Baked.Codec
/-!
# Baking

`bake` runs every stage on an input stream: the registry, the dependency graph, the schedule,
the synchronization plan, the memory plan and the baked graph. It returns all stages, or the
first error; no stage publishes a partial result.
-/

namespace RenderGraph

/-- The result of a successful bake, with every stage kept for inspection. -/
structure Bake where
  registry : Registry
  graph : Graph
  schedule : Schedule
  sync : SyncPlan
  memory : MemoryPlan
  baked : BakedGraph

/-- Summary numbers of a bake. -/
structure BakeStats where
  passes : Nat
  culled : Nat
  edges : Nat
  /-- Cross-queue waits before minimization. -/
  rawWaits : Nat
  waits : Nat
  frames : Nat
  buckets : Nat
  unused : Nat
  /-- The bytes of all buckets, capped at the largest 64-bit value. -/
  bytes : Nat
  deriving DecidableEq, Repr, Inhabited

/-- The summary of a bake. -/
def Bake.stats (b : Bake) : BakeStats :=
  { passes := b.schedule.order.length
    culled := b.schedule.culled.length
    edges := b.graph.edges.length
    rawWaits := b.sync.rawWaitCount
    waits := b.sync.waitCount
    frames := total (b.sync.frames.toList.map List.length)
    buckets := b.memory.buckets.size
    unused := b.memory.unused.length
    bytes := (b.memory.buckets.toList.map (·.desc.byteSize)).foldl satAdd 0 }

/-- The component that reports bakes. -/
def bakeTarget : String := "rmg_bake"

/-- Bakes an input stream. -/
def bake (bytes : Bytes) (options : BakeOptions) : BakeM Bake := do
  let registry ← Registry.ingest bytes
  let graph ← Graph.build registry
  let schedule ← Schedule.build registry graph options
  let sync ← SyncPlan.build graph schedule
  let memory ← MemoryPlan.build registry schedule sync options
  let baked ← BakeM.ofConfig (BakedGraph.emit registry schedule sync memory)
  let b : Bake := ⟨registry, graph, schedule, sync, memory, baked⟩
  let s := b.stats
  log .info bakeTarget
    s!"Baked {s.passes} passes ({s.culled} culled), {s.edges} edges, {s.waits}/{s.rawWaits} waits, {s.frames} frames, {s.buckets} buckets ({s.bytes} bytes)"
  if s.unused > 0 then log .warn bakeTarget s!"{s.unused} transient resources are never used"
  pure b

end RenderGraph
