import RenderGraph.Registry.Ingest
/-!
# Dependency graphs

Passes touch versions of resources: a read consumes a version, a write consumes one version
and mints another (its output). The dependency graph orders passes by these accesses:

* read after write: the pass that mints a version comes before every pass that reads it or
  overwrites it;
* write after read: every other pass that reads a version comes before the pass that overwrites
  it.

A version may be minted by one write only and overwritten by one write only; `Graph.build`
refuses anything else. Edges are kept in the order they are found, passes in declaration order
and, within a pass, explicit reads, bindless reads, then overwritten versions; a pair of passes
gets one edge, with the resource and kind of its first discovery.
-/

namespace RenderGraph

/-- Why one pass must run before another. -/
inductive EdgeKind where
  | readAfterWrite
  | writeAfterRead
  deriving DecidableEq, Repr, Inhabited

/-- The name of an edge kind. -/
def EdgeKind.name : EdgeKind → String
  | .readAfterWrite => "ReadAfterWrite"
  | .writeAfterRead => "WriteAfterRead"

/-- A dependency between two passes, by declaration index, through a resource. -/
structure Edge where
  producer : Nat
  consumer : Nat
  resource : Res
  kind : EdgeKind
  deriving DecidableEq, Repr, Inhabited

/-- The dependencies of a registry's passes. -/
structure Graph where
  passCount : Nat
  /-- Edges in the order they were found. -/
  edges : List Edge
  /-- Each minted version with the pass that mints it, in declaration order. -/
  producers : List (Res × Nat)
  deriving Repr, Inhabited

namespace Graph

/-- The passes with an edge into `c`, in edge order. -/
def preds (g : Graph) (c : Nat) : List Nat :=
  (g.edges.filter (·.consumer == c)).map (·.producer)

/-- The passes with an edge from `p`, in edge order. -/
def succs (g : Graph) (p : Nat) : List Nat :=
  (g.edges.filter (·.producer == p)).map (·.consumer)

/-- The pass that mints a version. -/
def producerOf? (g : Graph) (v : Res) : Option Nat :=
  (g.producers.find? (·.1 == v)).map (·.2)

/-- Every version a pass consumes: the versions it reads, then those it overwrites. -/
def consumed (p : PassInfo) : List Res := p.readVersions ++ p.writes.map (·.resource)

/-- The passes, in declaration order, that read a version. -/
def readersOf (passes : Array PassInfo) (v : Res) : List Nat :=
  (List.range passes.size).filter fun i => ((passes[i]?.map (·.readVersions.contains v)).getD false)

/-- The pass of a version in an association list. -/
def lookup (table : List (Res × Nat)) (v : Res) : Option Nat :=
  (table.find? (·.1 == v)).map (·.2)

/-- Records the writes of one pass: each output must be new and each overwritten version not
yet overwritten. Returns the extended tables of minted and overwritten versions. -/
def recordWrites (passes : Array PassInfo) (idx : Nat) (pass : PassInfo) :
    List Interaction → List (Res × Nat) × List (Res × Nat) →
      Except ConfigError (List (Res × Nat) × List (Res × Nat))
  | [], tables => .ok tables
  | w :: rest, (minted, overwritten) => do
    let ref (i : Nat) : PassRef := (passes[i]?.map PassInfo.ref).getD default
    let output ← match w.output with
      | some o => pure o
      | none => throw (.missingOutputAlias pass.ref w.resource)
    if let some first := lookup minted output then
      throw (.outputProducedTwice output (ref first) pass.ref)
    if let some first := lookup overwritten w.resource then
      throw (.versionWrittenTwice w.resource (ref first) pass.ref)
    recordWrites passes idx pass rest (minted ++ [(output, idx)], overwritten ++ [(w.resource, idx)])

/-- Checks every pass's writes, in declaration order, and returns who mints each version. -/
def collectProducers (passes : Array PassInfo) : Except ConfigError (List (Res × Nat)) := do
  let (minted, _) ← (List.range passes.size).foldlM (fun tables idx =>
    match passes[idx]? with
    | some p => recordWrites passes idx p p.writes tables
    | none => pure tables) ([], [])
  pure minted

/-- Appends an edge unless the pair of passes already has one. -/
def addEdge (edges : List Edge) (e : Edge) : List Edge :=
  if edges.any (fun x => x.producer == e.producer && x.consumer == e.consumer) then edges
  else edges ++ [e]

/-- The edges into one pass: from the producers of what it consumes, then from the readers of
what it overwrites. -/
def edgesInto (passes : Array PassInfo) (producers : List (Res × Nat)) (idx : Nat)
    (p : PassInfo) : List Edge :=
  let raw := (consumed p).filterMap fun v =>
    (lookup producers v).map fun prod => ⟨prod, idx, v, .readAfterWrite⟩
  let war := p.writes.flatMap fun w =>
    ((readersOf passes w.resource).filter (· ≠ idx)).map fun r => ⟨r, idx, w.resource, .writeAfterRead⟩
  raw ++ war

/-- The edges of all passes, each pair of passes once. -/
def collectEdges (passes : Array PassInfo) (producers : List (Res × Nat)) : List Edge :=
  (List.range passes.size).foldl (fun edges idx =>
    match passes[idx]? with
    | some p => (edgesInto passes producers idx p).foldl addEdge edges
    | none => edges) []

/-- The component that reports the graph. -/
def target : String := "rmg_bake::graph"

/-- Builds the dependency graph of a registry. -/
def build (r : Registry) : BakeM Graph := do
  let producers ← BakeM.ofConfig (collectProducers r.passes)
  let edges := collectEdges r.passes producers
  for e in edges do
    log .trace target
      s!"Edge {e.producer} -> {e.consumer} via {e.resource.text} ({e.kind.name})"
  log .info target s!"Dependency graph: {r.passes.size} passes, {edges.length} edges"
  pure ⟨r.passes.size, edges, producers⟩

end Graph

end RenderGraph
