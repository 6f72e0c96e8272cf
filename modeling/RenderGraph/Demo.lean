import RenderGraph.Session
import RenderGraph.Dot
/-!
# The dry-run demo

A deferred frame: a copy pass uploads the lights, compute builds the shadow map and culls the
lights into tiles while graphics fills the gbuffer, graphics shades into the swapchain image,
compute blooms it and graphics composites the bloom back into the swapchain image, which is
presented.

The demo declares the frame, runs it three times on the dry-run backend, then reports: the bake
statistics, one line per pass in position order, one line per bucket, the graphviz dump, and
the simulated time of every pass and of the frame. Log records at info level and above are
printed as they happen, as `LEVEL [target] text` with the level padded to five characters.
-/

namespace RenderGraph

namespace Demo

open Declaration

/-- Declares the frame and returns its passes in declaration order. -/
def declareFrame : Declare SlotMap (List Key) := do
  setRenderExtent 1920 1080 ⟨50⟩
  let meshes ← buffer "meshes" (BufDesc.storage ((64 : UInt64) <<< 20)) .persistent
  let lights ← buffer "lights" (BufDesc.storage ((1 : UInt64) <<< 16)) .transient
  let tiles ← buffer "light tiles" (BufDesc.storage ((8 : UInt64) <<< 20)) .transient
  let shadow ← image "shadow" (ImgDesc.texture2d 2048 2048 ⟨100⟩) .transient
  let gbuffer ← image "gbuffer" (ImgDesc.renderTarget (0x10 ||| 0x4)) .transient
  let bloom ← image "bloom" (ImgDesc.renderTarget (0x8 ||| 0x4)) .transient
  let swapchain ← image "swapchain" (ImgDesc.renderTarget 0x10) .transient

  let upload ← pass "upload lights" .copy
  let lights ← write upload (.buffer lights) 0 Access.transferWrite

  let shadowPass ← pass "shadow" .compute
  read shadowPass (.buffer meshes) 0 Access.computeRead
  let shadow ← write shadowPass (.image shadow) 1 Access.computeWrite

  let cull ← pass "cull lights" .compute
  read cull lights 0 Access.computeRead
  let tiles ← write cull (.buffer tiles) 1 Access.computeWrite

  let geometry ← pass "gbuffer" .graphics
  read geometry (.buffer meshes) 0 Access.vertexRead
  let gbuffer ← write geometry (.image gbuffer) 1 Access.colorAttachment

  let shade ← pass "shade" .graphics
  read shade gbuffer 0 Access.sampled
  read shade shadow 1 Access.sampled
  read shade tiles 2 Access.fragmentRead
  let swapchain ← write shade (.image swapchain) 3 Access.colorAttachment

  let bloomPass ← pass "bloom" .compute
  read bloomPass swapchain 0 Access.sampled
  let bloom ← write bloomPass (.image bloom) 1 Access.computeWrite

  let composite ← pass "composite" .graphics
  read composite bloom 0 Access.sampled
  let swapchain ← write composite swapchain 1 Access.colorAttachment
  setPresentImage swapchain

  pure [upload, shadowPass, cull, geometry, shade, bloomPass, composite]

/-- Declares the frame and runs it three times. -/
def session : SessionM (List Key) := do
  let passes ← Session.declare declareFrame
  for _ in List.range 3 do Session.run
  pure passes

/-- A text padded with spaces at the end to a width. -/
def padEnd (width : Nat) (s : String) : String := s.pushn ' ' (width - s.length)

/-- A text padded with spaces at the start to a width. -/
def padStart (width : Nat) (s : String) : String := "".pushn ' ' (width - s.length) ++ s

/-- A log record as the logger prints it. -/
def logLine (e : LogEntry) : String := padEnd 5 e.level.name ++ " [" ++ e.target ++ "] " ++ e.text

/-- The statistics of a bake, one field a line. -/
def statsLines (s : BakeStats) : List String :=
  ["BakeStats " ++ Dot.openBrace, s!"    passes: {s.passes},", s!"    culled: {s.culled},", s!"    edges: {s.edges},",
    s!"    raw_waits: {s.rawWaits},", s!"    waits: {s.waits},", s!"    frames: {s.frames},",
    s!"    buckets: {s.buckets},", s!"    unused: {s.unused},", s!"    bytes: {s.bytes},", Dot.closeBrace]

/-- The line of a pass: position, queue, queue index, level, name and waits. -/
def passLine (p : BakedPass) : String :=
  padStart 3 (toString p.position) ++ " " ++ p.queue.name ++ " #" ++ padEnd 2 (toString p.queueIndex) ++
    " L" ++ toString p.level ++ " " ++ padEnd 14 p.name ++ " waits [" ++
    ", ".intercalate (p.waits.map SyncEntry.text) ++ "]"

/-- The line of a bucket: its size, its member count and whether it is dedicated. -/
def bucketLine (b : BakedBucket) : String :=
  s!"bucket {b.id}: {b.desc.byteSize} bytes, {b.memberCount} members" ++
    (if b.persistent then ", dedicated" else "")

/-- The report of a bake. -/
def report (b : Bake) : List String :=
  statsLines b.stats ++ b.baked.passesInOrder.map passLine ++ b.baked.buckets.map bucketLine ++
    b.dot.splitOn "\n"

/-- The component the demo reports as. -/
def target : String := "bake_dryrun"

/-- The timing records of the last run. -/
def timings (s : Session) (passes : List Key) : Journal :=
  let perPass := passes.filterMap fun p =>
    match s.declaration.passName p, s.passTime p with
    | some name, some t => some (LogEntry.mk .info target s!"{name}: {durationText t}")
    | _, _ => none
  let frame := LogEntry.mk .info target s!"Simulated frame time: {durationText s.backend.frameTime}"
  (perPass ++ [frame]).toArray

/-- The lines the demo prints, and the error that stopped it, if any. -/
def run : List String × Option SessionError :=
  let ((result, s), journal) := (session.run.run {}).start
  let logged := fun (j : Journal) => (j.upTo .info).toList.map logLine
  match result with
  | .error e => (logged journal, some e)
  | .ok passes =>
    let printed := match s.baked with
      | some b => report b
      | none => []
    (logged journal ++ printed ++ logged (timings s passes), none)

end Demo

end RenderGraph
