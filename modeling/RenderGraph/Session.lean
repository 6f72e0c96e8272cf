import RenderGraph.Declaration.Encode
import RenderGraph.Declaration.SlotMap
import RenderGraph.Bake
import RenderGraph.Backend
/-!
# Sessions

A session owns a declaration, the bake options, a dry-run backend and the last successful bake.
Baking is lazy: a clean declaration with a bake at hand reuses that bake. Otherwise the session
drops the old bake, encodes the declaration, bakes the stream, hands the baked graph to the
backend as an output stream and keeps the result; any failure leaves the session without a bake,
so a failed declaration never runs. Changing the options drops the bake too.
-/

namespace RenderGraph

/-- Why a session call fails: the declaration, the bake or the backend. -/
inductive SessionError where
  | configuration (e : ConfigError)
  | bake (e : BakeError)
  | backend (e : BackendError)
  deriving DecidableEq, Repr

namespace SessionError

/-- The summary of the error's family. -/
def summary : SessionError → String
  | .configuration _ => "Declaration error"
  | .bake _ => "Bake error"
  | .backend _ => "Backend error"

end SessionError

/-- A declaration with its options, backend and last bake. -/
structure Session where
  declaration : Declaration SlotMap := {}
  options : BakeOptions := {}
  backend : DryRun := {}
  baked : Option Bake := none
  /-- The ids of the stream the bake was made from. -/
  ids : Option DenseIds := none

/-- A session call: it logs, it may fail, and it keeps its changes to the session either way. -/
abbrev SessionM := ExceptT SessionError (StateT Session Logged)

namespace Session

/-- Runs a step that may fail, reporting its error in the session's terms. -/
def step {ε α : Type} (wrap : ε → SessionError) (m : ExceptT ε Logged α) : SessionM α := do
  match ← (m.run : Logged (Except ε α)) with
  | .ok a => pure a
  | .error e => throw (wrap e)

/-- Changes the declaration. A failed change keeps the declaration. -/
def declare {α : Type} (m : Declare SlotMap α) : SessionM α := do
  match m.run (← get).declaration with
  | .ok (a, d) =>
    modify fun s => { s with declaration := d }
    pure a
  | .error e => throw (.configuration e)

/-- Sets the options; different options drop the bake. -/
def setOptions (options : BakeOptions) : SessionM Unit :=
  modify fun s => if options = s.options then s else { s with options, baked := none }

/-- The component that reports sessions. -/
def target : String := "rmg_bake::rmg"

/-- Bakes the declaration unless it is clean and a bake is at hand. -/
def bake : SessionM Bake := do
  let s ← get
  if s.declaration.dirty || s.baked.isNone then
    set { s with baked := none, ids := none }
    let encoded ← step .configuration s.declaration.encode
    let b ← step .bake (RenderGraph.bake encoded.bytes s.options)
    let stream ← (b.baked.encodeLogged : Logged Bytes)
    let backend ← step .backend (s.backend.create stream)
    let (accepted, backend) := backend.bake b.baked
    modify fun s => { s with backend }
    match accepted with
    | .error e => throw (.backend e)
    | .ok () =>
      modify fun s => { s with ids := some encoded.ids, baked := some b,
                               declaration := s.declaration.markClean }
      pure b
  else
    log .trace target "Declaration unchanged, reusing baked graph"
    match s.baked with
    | some b => pure b
    | none => throw (.backend .notBaked)

/-- Bakes if needed, then runs the baked graph once. -/
def run : SessionM Unit := do
  let _ ← bake
  let backend ← step .backend (← get).backend.submit
  modify fun s => { s with backend }

/-- The time a pass took on the last run of the current bake. -/
def passTime (s : Session) (pass : Key) : Option Nanos := do
  let id ← (← s.ids).pass pass
  s.backend.queryTime id

end Session

end RenderGraph
