import RenderGraph.Schedule
/-!
# Synchronization plans

Queues run concurrently and signal timelines: after the pass with queue index `i` of a queue
finishes, the queue's timeline value becomes at least `i + 1`. A pass that depends on work of
another queue waits for that queue's timeline.

* `reach p q` is the largest queue index on queue `q` of a pass from which `p` can be reached
  along dependency edges, if any. Computed in schedule order, it takes, for every predecessor,
  the predecessor's own reach and the predecessor itself.
* The raw waits of a live pass are its reach on every other queue, in queue order.
* Along each queue a wait is dropped when an earlier pass of the same queue already waits for at
  least that index of the same queue; the others are the minimized waits.
* Each queue's passes are cut into submit frames: a frame ends after a pass that some pass waits
  for, and a new frame starts at every pass that waits. A frame waits for what its first pass
  waits for and signals its last index plus one.
-/

namespace RenderGraph

/-- A point on a queue's timeline: the pass with `index` on `queue`. -/
structure SyncEntry where
  queue : QueueClass
  index : Nat
  deriving DecidableEq, Repr, Inhabited

/-- The timeline value that marks the entry's pass as finished. -/
def SyncEntry.timelineValue (e : SyncEntry) : Nat := e.index + 1

/-- The text of an entry, such as `Compute:2`. -/
def SyncEntry.text (e : SyncEntry) : String := s!"{e.queue.name}:{e.index}"

/-- A run of consecutive passes of one queue, submitted together. -/
structure Frame where
  queue : QueueClass
  first : Nat
  len : Nat
  waits : List SyncEntry
  signal : Nat
  deriving DecidableEq, Repr, Inhabited

namespace Frame

/-- Whether the frame holds the pass with a queue index. -/
def contains (f : Frame) (i : Nat) : Bool := f.first ≤ i && i < f.first + f.len

/-- The text of a frame, such as `|F Graphics: 0..2|`. -/
def text (f : Frame) : String := s!"|F {f.queue.name}: {f.first}..{f.first + f.len}|"

end Frame

/-- The reach of a pass on every queue. -/
abbrev Reach := PerQueue (Option Nat)

/-- The larger of two optional indices; nothing is below every index. -/
def maxOpt : Option Nat → Option Nat → Option Nat
  | none, b => b
  | a, none => a
  | some a, some b => some (max a b)

/-- The cross-queue synchronization of a schedule. -/
structure SyncPlan where
  reach : Array Reach
  rawWaits : Array (List SyncEntry)
  waits : Array (List SyncEntry)
  frames : PerQueue (List Frame)
  deriving Repr, Inhabited

namespace SyncPlan

/-- The reach of every pass, computed in schedule order. Culled passes reach nothing. -/
def reachTable (g : Graph) (s : Schedule) : Array Reach :=
  s.order.foldl (fun reach pass =>
    let row := (g.preds pass).foldl (fun row pred =>
      let row := PerQueue.zipWith maxOpt row (reach.getD pred (.const none))
      let q := s.queueOf pred
      row.set q (maxOpt (row.get q) (some (s.queueIndexOf pred)))) (.const none)
    reach.set! pass row) (Array.replicate g.passCount (.const none))

/-- The raw waits of a pass: its reach on every other queue. -/
def rawWaitsOf (s : Schedule) (reach : Array Reach) (pass : Nat) : List SyncEntry :=
  if !s.isLive pass then []
  else
    let own := s.queueOf pass
    let row := reach.getD pass (.const none)
    (QueueClass.all.filter (· ≠ own)).filterMap fun q => (row.get q).map fun i => ⟨q, i⟩

/-- Whether a wait is covered by what an earlier pass of the queue already waits for. -/
def covered (satisfied : Reach) (w : SyncEntry) : Bool :=
  match satisfied.get w.queue with
  | some i => w.index ≤ i
  | none => false

/-- The text of a covering index in traces, such as `Some(3)`. -/
def coverText : Option Nat → String
  | some i => s!"Some({i})"
  | none => "None"

/-- The component that reports synchronization. -/
def target : String := "rmg_bake::sync"

/-- Minimizes the waits of one queue's passes, in queue order. -/
def minimizeQueue (rawWaits : Array (List SyncEntry)) (passes : List Nat)
    (waits : Array (List SyncEntry)) : Logged (Array (List SyncEntry)) := do
  let mut satisfied : Reach := .const none
  let mut waits := waits
  for pass in passes do
    for w in rawWaits.getD pass [] do
      if covered satisfied w then
        log .trace target
          s!"Dropping wait {w.text} of pass {pass}, covered by {coverText (satisfied.get w.queue)}"
      else
        satisfied := satisfied.set w.queue (some w.index)
        waits := waits.set! pass (waits.getD pass [] ++ [w])
  pure waits

/-- Adds the next pass of a queue to its frames: it extends the last frame unless it waits or
the pass before it is waited for, and the flag says whether the next pass must open a frame. -/
def frameStep (s : Schedule) (waits : Array (List SyncEntry)) (waitedOn : List SyncEntry)
    (q : QueueClass) (acc : List Frame × Bool) (pass : Nat) : List Frame × Bool :=
  let (frames, splitNext) := acc
  let index := s.queueIndexOf pass
  let passWaits := waits.getD pass []
  let frames := match frames.getLast?, splitNext, passWaits with
    | some f, false, [] => frames.dropLast ++ [{ f with len := f.len + 1, signal := index + 1 }]
    | _, _, _ => frames ++ [⟨q, index, 1, passWaits, index + 1⟩]
  (frames, waitedOn.contains ⟨q, index⟩)

/-- Cuts one queue's passes into frames. -/
def framesOf (s : Schedule) (waits : Array (List SyncEntry)) (waitedOn : List SyncEntry)
    (q : QueueClass) : List Frame :=
  ((s.queues.get q).foldl (frameStep s waits waitedOn q) ([], true)).1

/-- Plans the synchronization of a schedule. -/
def build (g : Graph) (s : Schedule) : Logged SyncPlan := do
  let reach := reachTable g s
  let rawWaits := (Array.range g.passCount).map (rawWaitsOf s reach)
  let mut waits := Array.replicate g.passCount []
  for q in QueueClass.all do
    waits ← minimizeQueue rawWaits (s.queues.get q) waits
  let waitedOn := waits.toList.flatten
  let frames := PerQueue.ofFn (framesOf s waits waitedOn)
  let rawCount := total (rawWaits.toList.map List.length)
  let count := total (waits.toList.map List.length)
  let frameCount := total (frames.toList.map List.length)
  log .info target
    s!"Synchronization: {rawCount} raw waits, {count} after optimization, {frameCount} submit frames"
  pure ⟨reach, rawWaits, waits, frames⟩

/-- The minimized waits of a pass. -/
def waitsOf (p : SyncPlan) (pass : Nat) : List SyncEntry := p.waits.getD pass []

/-- The raw waits of a pass. -/
def rawWaitsOfPass (p : SyncPlan) (pass : Nat) : List SyncEntry := p.rawWaits.getD pass []

/-- The reach of a pass on a queue. -/
def reachOf (p : SyncPlan) (pass : Nat) (q : QueueClass) : Option Nat :=
  (p.reach.getD pass (.const none)).get q

/-- Cross-queue waits before minimization. -/
def rawWaitCount (p : SyncPlan) : Nat := total (p.rawWaits.toList.map List.length)

/-- Cross-queue waits after minimization. -/
def waitCount (p : SyncPlan) : Nat := total (p.waits.toList.map List.length)

/-- Whether pass `a` finishes before pass `b` starts under the plan: on one queue by queue
index, across queues when `b` reaches `a`'s queue at `a`'s index or later. -/
def happensBefore (p : SyncPlan) (s : Schedule) (a b : Nat) : Bool :=
  if a = b || !s.isLive a || !s.isLive b then false
  else
    let q := s.queueOf a
    if q = s.queueOf b then s.queueIndexOf a < s.queueIndexOf b
    else match p.reachOf b q with
      | some i => s.queueIndexOf a ≤ i
      | none => false

end SyncPlan

end RenderGraph
