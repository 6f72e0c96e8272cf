import RenderGraph.Bake
/-!
# Graphviz dumps

`Bake.dot` draws a bake as a graphviz digraph laid out left to right. Each queue class with live
passes becomes a cluster, coloured by class, holding its passes in queue order; a pass is a box
labelled with its name, its queue index and its level. Each dependency edge between two live
passes is drawn with the name of its resource: dashed when it orders a write after a read, and
bold red when it crosses queues and became one of the consumer's waits.

The text is laid out as graphviz printers do: one statement a line, two spaces of indentation
per level, quoted identifiers with their double quotes escaped, and no newline after the final
brace.
-/

namespace RenderGraph

namespace Dot

/-- An identifier: written as it is, or quoted with its double quotes escaped. -/
inductive Ident where
  | plain (s : String)
  | quoted (s : String)
  deriving DecidableEq, Repr

/-- The text of an identifier. -/
def Ident.text : Ident → String
  | .plain s => s
  | .quoted s => "\"" ++ s.replace "\"" "\\\"" ++ "\""

/-- Attributes, in the order they are written. -/
abbrev Attrs := List (String × Ident)

/-- The text of an attribute list, in brackets. -/
def attrsText (attrs : Attrs) : String :=
  "[" ++ " ".intercalate (attrs.map fun (k, v) => k ++ "=" ++ v.text) ++ "]"

/-- A cluster: its id, its attributes and its nodes with their attributes. -/
structure Cluster where
  id : String
  attrs : Attrs
  nodes : List (String × Attrs)
  deriving Repr

/-- An edge between two nodes. -/
structure Edge where
  source : String
  target : String
  attrs : Attrs
  deriving Repr

/-- A directed graph: its attributes, then its clusters, then its edges. -/
structure Digraph where
  id : String
  attrs : Attrs
  clusters : List Cluster
  edges : List Edge
  deriving Repr

/-- The brace that opens a body. -/
def openBrace : String := "\x7b"

/-- The brace that closes a body. -/
def closeBrace : String := "\x7d"

/-- The indentation of a nesting depth. -/
def pad (depth : Nat) : String := "".pushn ' ' (2 * depth)

/-- The lines of an attribute statement. -/
def attrLine (depth : Nat) (a : String × Ident) : String := pad depth ++ a.1 ++ "=" ++ a.2.text

/-- The lines of a cluster at a depth. -/
def Cluster.lines (depth : Nat) (c : Cluster) : List String :=
  (pad depth ++ "subgraph " ++ c.id ++ " " ++ openBrace) ::
    (c.attrs.map (attrLine (depth + 1)) ++
      c.nodes.map (fun (n, attrs) => pad (depth + 1) ++ n ++ attrsText attrs)) ++ [pad depth ++ closeBrace]

/-- The line of an edge at a depth. -/
def Edge.line (depth : Nat) (e : Edge) : String :=
  pad depth ++ e.source ++ " -> " ++ e.target ++ " " ++ attrsText e.attrs

/-- The text of a graph. -/
def Digraph.text (g : Digraph) : String :=
  "\n".intercalate (("digraph " ++ g.id ++ " " ++ openBrace) ::
    (g.attrs.map (attrLine 1) ++ g.clusters.flatMap (Cluster.lines 1) ++ g.edges.map (Edge.line 1)) ++
    [closeBrace])

/-- The fill colour of a queue class's cluster. -/
def queueColor : QueueClass → String
  | .graphics => "lightblue"
  | .compute => "palegreen"
  | .copy => "khaki"
  | .fill => "lightgrey"

/-- The node of a pass. -/
def nodeId (pass : Nat) : String := s!"p{pass}"

end Dot

open Dot

namespace Bake

/-- The cluster of a queue class, if it has live passes. -/
def cluster (b : Bake) (q : QueueClass) : Option Cluster :=
  let passes := b.schedule.queues.get q
  if passes.isEmpty then none
  else
    some ⟨s!"cluster_{q.index}",
      [("label", .quoted q.name), ("style", .plain "filled"), ("color", .plain (queueColor q))],
      passes.map fun p =>
        let name := ((b.registry.passes[p]?).map (·.name)).getD ""
        (nodeId p, [("label", .quoted s!"{name} [{b.schedule.queueIndexOf p}] L{b.schedule.levelOf p}"),
          ("shape", .plain "box")])⟩

/-- Whether an edge crosses queues and the consumer waits on exactly the producer. -/
def waited (b : Bake) (e : RenderGraph.Edge) : Bool :=
  let s := b.schedule
  s.queueOf e.producer != s.queueOf e.consumer &&
    (b.sync.waitsOf e.consumer).any fun w =>
      w.queue == s.queueOf e.producer && w.index == s.queueIndexOf e.producer

/-- The drawn edge of a dependency between live passes. -/
def drawnEdge (b : Bake) (e : RenderGraph.Edge) : Option Dot.Edge :=
  if !(b.schedule.isLive e.producer && b.schedule.isLive e.consumer) then none
  else
    let label : Attrs := [("label", .quoted ((b.registry.nameOf? e.resource).getD "?"))]
    let dashed : Attrs := if e.kind = .writeAfterRead then [("style", .plain "dashed")] else []
    let red : Attrs := if b.waited e then [("color", .plain "red"), ("penwidth", .plain "2")] else []
    some ⟨nodeId e.producer, nodeId e.consumer, label ++ dashed ++ red⟩

/-- The graph of a bake. -/
def toDigraph (b : Bake) : Digraph :=
  ⟨"rmg", [("rankdir", .plain "LR")], QueueClass.all.filterMap b.cluster,
    b.graph.edges.filterMap b.drawnEdge⟩

/-- The graphviz text of a bake. -/
def dot (b : Bake) : String := b.toDigraph.text

end Bake

end RenderGraph
