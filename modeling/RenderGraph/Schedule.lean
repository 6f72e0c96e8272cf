import RenderGraph.Graph
/-!
# Schedules

A schedule orders the live passes of an acyclic dependency graph. The level of a pass is the
length of the longest dependency path that ends at it; passes run by level, and within a level
by declaration index. Each queue class runs its passes in that order, and a pass's index on its
queue is its queue index.

Levels come from a depth-first walk along predecessor edges (`Schedule.levels`), which meets a
pass that is still open exactly when the graph has a cycle; it then reports the edge that closes
the cycle. With culling, only passes whose results reach something observable stay live: a pass
without writes, or one that writes into a persistent chain or into the present image's chain,
and every pass those depend on.
-/

namespace RenderGraph

/-- Options of a bake. -/
structure BakeOptions where
  /-- Drops passes whose results never reach a persistent resource or the present image. -/
  cullPasses : Bool := false
  /-- Lets transient chains with disjoint lifetimes share memory. -/
  aliasTransients : Bool := true
  deriving DecidableEq, Repr, Inhabited

/-- The state of a pass during the depth-first walk. -/
inductive Mark where
  | unvisited
  | visiting
  | visited
  deriving DecidableEq, Repr, Inhabited

/-- The order of a bake's live passes. -/
structure Schedule where
  /-- Live passes by level, then declaration index. -/
  order : List Nat
  /-- The index of each pass in `order`; none for culled passes. -/
  position : Array (Option Nat)
  level : Array Nat
  queue : Array QueueClass
  /-- The index of each live pass among the passes of its queue; 0 for culled passes. -/
  queueIndex : Array Nat
  /-- The live passes of each queue, in order. -/
  queues : PerQueue (List Nat)
  /-- Culled passes, ascending. -/
  culled : List Nat
  deriving Repr, Inhabited

namespace Schedule

/-- The walk's marks and the levels of finished passes. -/
structure Walk where
  marks : Array Mark
  level : Array Nat

/-- Walks the stack of open passes, each with the index of its next predecessor to visit. A
predecessor that is still open closes a cycle, which is returned as its edge. Every step either
advances a predecessor index or finishes a pass, so the edges plus the passes bound the steps. -/
def explore (g : Graph) : Nat → List (Nat × Nat) → Walk → Except (Nat × Nat) Walk
  | 0, _, w => .ok w
  | _ + 1, [], w => .ok w
  | fuel + 1, (pass, next) :: rest, w =>
    let preds := g.preds pass
    match preds[next]? with
    | some pred =>
      let stack := (pass, next + 1) :: rest
      match w.marks.getD pred .visited with
      | .unvisited =>
        explore g fuel ((pred, 0) :: stack) { w with marks := w.marks.set! pred .visiting }
      | .visiting => .error (pred, pass)
      | .visited => explore g fuel stack w
    | none =>
      let lvl := ((preds.map fun p => w.level.getD p 0 + 1).max?).getD 0
      explore g fuel rest ⟨w.marks.set! pass .visited, w.level.set! pass lvl⟩

/-- Starts the walk from every pass not yet visited, in declaration order. -/
def walkFrom (g : Graph) (fuel : Nat) : List Nat → Walk → Except (Nat × Nat) Walk
  | [], w => .ok w
  | root :: rest, w =>
    if w.marks.getD root .visited ≠ .unvisited then walkFrom g fuel rest w
    else do
      let w ← explore g fuel [(root, 0)] { w with marks := w.marks.set! root .visiting }
      walkFrom g fuel rest w

/-- The level of every pass, or the edge that closes a cycle. -/
def levels (g : Graph) : Except (Nat × Nat) (Array Nat) := do
  let n := g.passCount
  let w ← walkFrom g (g.edges.length + n + 1) (List.range n)
    ⟨Array.replicate n .unvisited, Array.replicate n 0⟩
  pure w.level

/-- Whether a pass's results are observable: it writes nothing, or it writes into a persistent
chain or the present image's chain. -/
def observable (r : Registry) (p : PassInfo) : Bool :=
  let present := r.presentImage.map fun i => r.baseOf (.image i)
  p.writes.isEmpty || p.writes.any fun w =>
    r.lifetime w.resource == .persistent || some (r.baseOf w.resource) == present

/-- Marks passes live from a work list, adding the predecessors of every newly live pass. Each
pass enters the work list once from the start and once per edge into it, which bounds the
steps. -/
def markLive (g : Graph) : Nat → List Nat → Array Bool → Array Bool
  | 0, _, live => live
  | _ + 1, [], live => live
  | fuel + 1, p :: rest, live =>
    if live.getD p true then markLive g fuel rest live
    else markLive g fuel ((g.preds p).filter (fun q => !live.getD q true) ++ rest) (live.set! p true)

/-- The live passes: those from which an observable pass can be reached. -/
def livePasses (r : Registry) (g : Graph) : Array Bool :=
  let n := r.passes.size
  let seeds := (List.range n).filter fun i => (r.passes[i]?.map (observable r)).getD false
  markLive g (n + g.edges.length + 1) seeds (Array.replicate n false)

/-- Places the ordered passes: positions, queue indices and per-queue lists. -/
def place (r : Registry) (order : List Nat) :
    Array (Option Nat) × Array Nat × PerQueue (List Nat) :=
  let n := r.passes.size
  order.zipIdx.foldl (fun (position, queueIndex, queues) (pass, pos) =>
    let q := (r.passes[pass]?.map (·.queue)).getD .graphics
    let track := queues.get q
    (position.set! pass (some pos), queueIndex.set! pass track.length, queues.set q (track ++ [pass])))
    (Array.replicate n none, Array.replicate n 0, PerQueue.const [])

/-- Whether a pass is live. -/
def isLive (s : Schedule) (p : Nat) : Bool := (s.position.getD p none).isSome

/-- The queue class of a pass. -/
def queueOf (s : Schedule) (p : Nat) : QueueClass := s.queue.getD p .graphics

/-- The queue index of a pass. -/
def queueIndexOf (s : Schedule) (p : Nat) : Nat := s.queueIndex.getD p 0

/-- The position of a pass. -/
def positionOf? (s : Schedule) (p : Nat) : Option Nat := s.position.getD p none

/-- The level of a pass. -/
def levelOf (s : Schedule) (p : Nat) : Nat := s.level.getD p 0

/-- The first edge, in edge order, whose ends are both live and whose producer is not placed
before its consumer. -/
def orderViolation? (g : Graph) (s : Schedule) : Option Edge :=
  g.edges.find? fun e =>
    match s.positionOf? e.producer, s.positionOf? e.consumer with
    | some p, some c => c ≤ p
    | _, _ => false

/-- The component that reports the schedule. -/
def target : String := "rmg_bake::scheduler"

/-- The schedule of a registry for given levels: the live passes sorted by level (ties keep
declaration order), placed one after the other, and the culled passes. -/
def plan (r : Registry) (g : Graph) (options : BakeOptions) (level : Array Nat) : Schedule :=
  let n := r.passes.size
  let live := if options.cullPasses then livePasses r g else Array.replicate n true
  let isLive (i : Nat) : Bool := live.getD i false
  let order := ((List.range n).filter isLive).mergeSort fun a b => level.getD a 0 ≤ level.getD b 0
  let (position, queueIndex, queues) := place r order
  let culled := (List.range n).filter fun i => !isLive i
  { order, position, level, queue := r.passes.map (·.queue), queueIndex, queues, culled }

/-- Orders the passes of a registry. Fails on a dependency cycle, or when the order it found
places a producer after its consumer. -/
def build (r : Registry) (g : Graph) (options : BakeOptions) : BakeM Schedule := do
  let ref (i : Nat) : PassRef := (r.passes[i]?.map PassInfo.ref).getD default
  let level ← match levels g with
    | .ok l => pure l
    | .error (pred, pass) => do
      log .error target s!"Found cycle between {(ref pred).text} and {(ref pass).text}"
      throw (.graph (.cyclicDependency (ref pred) (ref pass)))
  let schedule := plan r g options level
  for c in schedule.culled do
    log .trace target s!"Culled {(ref c).text}"
  let levelCount := (schedule.order.getLast?.map fun p => level.getD p 0 + 1).getD 0
  log .info target
    s!"Scheduled {schedule.order.length} passes on {levelCount} levels, culled {schedule.culled.length}"
  -- the order is checked against every edge before it is handed on
  match orderViolation? g schedule with
  | some e => throw (.graph (.orderViolation (ref e.producer) (ref e.consumer)))
  | none => pure schedule

end Schedule

end RenderGraph
