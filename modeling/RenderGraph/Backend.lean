import RenderGraph.Baked.Codec
/-!
# The dry-run backend

A backend that executes nothing and simulates time. Creating it decodes an output stream;
baking it checks that a graph equals the created one; submitting it simulates one run.

The simulation gives every queue entry of the graph a track with a timeline value, a next frame
and a clock. It goes round the queues in order; a queue runs its next frame when every wait
`(Q, i)` of the frame sees the first track of class `Q` at value `i + 1` or more. The frame's
passes then run one after the other from the latest of the queue's clock and the end times of
the waited passes; a pass costs 5 µs plus 1 µs per interaction. After the frame the queue's
timeline takes the frame's signal. A round in which no queue can run a frame, while frames are
left, is a deadlock; each other round runs at least one frame, so the rounds are bounded by the
number of frames.

The end of a frame's range, `first + len`, is a sum of two `u32` words, and overflow checks are
on: a sum past `u32` panics before any pass of the frame runs (`BackendError.overflow`).
-/

namespace RenderGraph

/-- Why a backend call fails. -/
inductive BackendError where
  | stream (e : Stream.Error)
  | deadlock (queue : QueueClass) (frame : Nat)
  | malformedFrame (queue : QueueClass) (frame : Nat)
  | notBaked
  | graphMismatch
  /-- Not an error value but a panic: the end of a frame's range overflowed `u32`. -/
  | overflow
  deriving DecidableEq, Repr

namespace BackendError

/-- The kind of the error, as a dotted path. -/
def path : BackendError → String
  | .stream e => "Stream." ++ e.kind
  | .deadlock .. => "Deadlock"
  | .malformedFrame .. => "MalformedFrame"
  | .notBaked => "NotBaked"
  | .graphMismatch => "GraphMismatch"
  | .overflow => "Overflow"

/-- The message that reports the error. -/
def message : BackendError → String
  | .stream e => "Op-stream error: " ++ e.message
  | .deadlock q f => s!"Queue {q.name} can't make progress, frame {f} waits on work that never finishes"
  | .malformedFrame q f => s!"Frame {f} of queue {q.name} references passes the queue does not have"
  | .notBaked => "Submit without a baked graph"
  | .graphMismatch => "Baked graph does not match the created op-stream"
  | .overflow => "attempt to add with overflow"

end BackendError

/-- Durations, in nanoseconds. -/
abbrev Nanos := Nat

/-- The digits of a fraction below `divisor * 10`, most significant first, without trailing
zeros. -/
def fractionDigits (fraction divisor : Nat) : Nat → String
  | 0 => ""
  | k + 1 =>
    if fraction = 0 || divisor = 0 then ""
    else toString (fraction / divisor) ++ fractionDigits (fraction % divisor) (divisor / 10) k

/-- The text of a duration: the largest unit of s, ms, µs and ns that fits, with the exact
fraction of that unit and no trailing zeros, such as `6µs` or `1.25ms`. -/
def durationText (ns : Nanos) : String :=
  let fmt (whole fraction divisor : Nat) (unit : String) : String :=
    toString whole ++ (if fraction = 0 then "" else "." ++ fractionDigits fraction divisor 9) ++ unit
  if ns ≥ 1000000000 then fmt (ns / 1000000000) (ns % 1000000000) 100000000 "s"
  else if ns ≥ 1000000 then fmt (ns / 1000000) (ns % 1000000) 100000 "ms"
  else if ns ≥ 1000 then fmt (ns / 1000) (ns % 1000) 100 "µs"
  else fmt ns 0 1 "ns"

/-- The cost of a pass: 5 µs, and 1 µs per interaction. -/
def passCost (p : BakedPass) : Nanos := 5000 + 1000 * p.interactions.length

/-- The simulated state of one queue entry. -/
structure Track where
  queue : QueueClass
  value : Nat
  nextFrame : Nat
  clock : Nanos
  /-- The end time of each pass, by queue index. -/
  ends : List Nanos
  deriving DecidableEq, Repr, Inhabited

/-- The outcome of a simulation. -/
structure Simulation where
  /-- Pass ids in execution order. -/
  executed : List Nat
  /-- Each executed pass with its cost. -/
  timings : List (Nat × Nanos)
  frameTime : Nanos
  deriving DecidableEq, Repr, Inhabited

namespace Simulation

/-- The first track of a class. -/
def trackOf? (tracks : Array Track) (q : QueueClass) : Option Track := tracks.find? (·.queue == q)

/-- The simulated end time of the pass at a queue index of a class, once it has run. -/
def endOf? (tracks : Array Track) (q : QueueClass) (index : Nat) : Option Nanos :=
  (trackOf? tracks q).bind (·.ends[index]?)

/-- Whether every wait of a frame is satisfied. -/
def ready (tracks : Array Track) (f : Frame) : Bool :=
  f.waits.all fun w => match trackOf? tracks w.queue with
    | some t => t.value ≥ w.timelineValue
    | none => false

/-- When a frame starts: once its queue is idle at `clock` and every awaited pass has ended. -/
def frameStart (tracks : Array Track) (clock : Nanos) (f : Frame) : Nanos :=
  f.waits.foldl (fun start w =>
    match endOf? tracks w.queue w.index with
    | some e => max start e
    | none => start) clock

/-- Sets the end time of a queue index: the list is cut or padded to end at that index. -/
def setEnd (ends : List Nanos) (index : Nat) (t : Nanos) : List Nanos :=
  (ends.take index ++ List.replicate (index - ends.length) t) ++ [t]

/-- Runs the passes of a frame from a start time, appending to the executed passes. -/
def runPasses (q : BakedQueue) (frameIndex : Nat) :
    List Nat → Nanos × List Nanos × Simulation → Except BackendError (Nanos × List Nanos × Simulation)
  | [], acc => .ok acc
  | index :: rest, (start, ends, sim) =>
    match q.passes[index]? with
    | some p =>
      if p.queueIndex = index then
        let cost := passCost p
        let start := start + cost
        runPasses q frameIndex rest (start, setEnd ends index start,
          { sim with executed := sim.executed ++ [p.id], timings := sim.timings ++ [(p.id, cost)] })
      else .error (.malformedFrame q.queue frameIndex)
    | none => .error (.malformedFrame q.queue frameIndex)

/-- The queue indices a frame runs, as far as they can matter. Every index at or past the
queue's pass count is malformed, so a range longer than one past the pass count fails within
that prefix, at the same index as the whole range. -/
def frameIndices (q : BakedQueue) (f : Frame) : List Nat :=
  List.range' f.first (min f.len (q.passes.length + 1))

/-- The panic of a frame whose range end `first + len` overflows `u32`, which comes before any
of its passes runs. Queue indices are `u32` words too, so such a range reaches past every pass of
its queue and the frame is malformed: the overflow takes the place of that error. -/
def checkRange {α : Type} (f : Frame) : Except BackendError α → Except BackendError α
  | .error e => .error (if UInt32.size ≤ f.first + f.len then .overflow else e)
  | .ok a => .ok a

/-- The state of one round: tracks, results so far, whether some queue ran and whether some
queue has frames left. -/
structure Round where
  tracks : Array Track
  sim : Simulation
  progressed : Bool
  finished : Bool

/-- The component that reports the backend. -/
def target : String := "rmg_bake::backend"

/-- Gives one queue entry its turn in a round. -/
def turn (g : BakedGraph) (r : Round) (qidx : Nat) : ExceptT BackendError Logged Round := do
  let some q := g.queues[qidx]? | pure r
  let track := r.tracks.getD qidx default
  let some frame := q.frames[track.nextFrame]? | pure r
  let r := { r with finished := false }
  if !ready r.tracks frame then return r
  let start := frameStart r.tracks track.clock frame
  let (start, ends, sim) ← ExceptT.mk (pure (checkRange frame
    (runPasses q track.nextFrame (frameIndices q frame) (start, track.ends, r.sim))))
  let track := { track with ends, clock := start, value := frame.signal, nextFrame := track.nextFrame + 1 }
  log .trace target s!"Simulated {frame.text} until {durationText start}"
  pure { r with tracks := r.tracks.set! qidx track, sim, progressed := true }

/-- Runs rounds until every frame has run, at most `fuel` of them; gives the tracks at the end
with the results. -/
def rounds (g : BakedGraph) : Nat → Array Track → Simulation →
    ExceptT BackendError Logged (Array Track × Simulation)
  | 0, tracks, sim => pure (tracks, sim)
  | fuel + 1, tracks, sim => do
    let r ← (List.range g.queues.length).foldlM (turn g) ⟨tracks, sim, false, true⟩
    if r.finished then
      pure (r.tracks, { r.sim with frameTime := (r.tracks.toList.map (·.clock)).foldl max 0 })
    else if !r.progressed then
      let stuck := (r.tracks.toList.zip g.queues).find? fun (t, q) => t.nextFrame < q.frames.length
      match stuck with
      | some (t, _) => throw (.deadlock t.queue t.nextFrame)
      | none => throw (.deadlock .graphics 0)
    else rounds g fuel r.tracks r.sim

/-- One idle track per queue entry, before anything runs. -/
def startTracks (g : BakedGraph) : Array Track := g.queues.toArray.map fun q => ⟨q.queue, 0, 0, 0, []⟩

/-- Simulates one run of a graph: the tracks at its end, with the results. Each round that does
not finish runs a frame, so one round more than there are frames is enough. -/
def simulate (g : BakedGraph) : ExceptT BackendError Logged (Array Track × Simulation) :=
  rounds g (total (g.queues.map (·.frames.length)) + 1) (startTracks g) ⟨[], [], 0⟩

/-- Simulates one run of a graph. -/
def run (g : BakedGraph) : ExceptT BackendError Logged Simulation := do
  let (_, sim) ← simulate g
  pure sim

end Simulation

/-- A backend that simulates runs. -/
structure DryRun where
  created : Option BakedGraph := none
  baked : Bool := false
  executed : List Nat := []
  timings : List (Nat × Nanos) := []
  frameTime : Nanos := 0
  submits : Nat := 0
  deriving Repr, Inhabited

namespace DryRun

/-- Decodes an output stream as the graph to run. A failure leaves the backend unchanged. -/
def create (b : DryRun) (bytes : Bytes) : ExceptT BackendError Logged DryRun :=
  match BakedGraph.decode bytes with
  | .error e => throw (.stream e)
  | .ok g => do
    log .info Simulation.target
      s!"Dry run: creating {g.buckets.length} buckets, {g.aliases.length} aliases"
    pure { b with created := some g, baked := false }

/-- Accepts a graph for running when it equals the created one; the baked flag records the
outcome. -/
def bake (b : DryRun) (g : BakedGraph) : Except BackendError Unit × DryRun :=
  if b.created = some g then (.ok (), { b with baked := true })
  else (.error .graphMismatch, { b with baked := false })

/-- Simulates a run of the baked graph. A failure leaves the backend unchanged. -/
def submit (b : DryRun) : ExceptT BackendError Logged DryRun :=
  match b.created, b.baked with
  | some g, true => do
    let sim ← Simulation.run g
    pure
      { b with executed := sim.executed, timings := sim.timings, frameTime := sim.frameTime,
               submits := b.submits + 1 }
  | _, _ => throw .notBaked

/-- The first recorded cost of a pass. -/
def queryTime (b : DryRun) (id : Nat) : Option Nanos :=
  (b.timings.find? (·.1 == id)).map (·.2)

end DryRun

end RenderGraph
