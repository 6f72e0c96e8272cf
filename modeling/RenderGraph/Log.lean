/-!
# Log records

Every stage reports what it does as log records: a level, the component that speaks and the
text. Stages append records to a journal in the order they happen; a reader keeps the records
up to the level it asks for (`Journal.upTo`).

`Logged` is the computation that appends to a journal, and `Logged.start` starts it from an empty
one. A failing stage keeps the records it wrote before the failure.
-/

namespace RenderGraph

/-- How much a record matters, most important first. -/
inductive Level where
  | error
  | warn
  | info
  | debug
  | trace
  deriving DecidableEq, Repr, Inhabited

namespace Level

/-- The rank of a level: 1 for errors up to 5 for traces. -/
def rank : Level → Nat
  | .error => 1
  | .warn => 2
  | .info => 3
  | .debug => 4
  | .trace => 5

/-- The upper-case name of a level. -/
def name : Level → String
  | .error => "ERROR"
  | .warn => "WARN"
  | .info => "INFO"
  | .debug => "DEBUG"
  | .trace => "TRACE"

/-- The level of a lower-case name. -/
def ofName? : String → Option Level
  | "error" => some .error
  | "warn" => some .warn
  | "info" => some .info
  | "debug" => some .debug
  | "trace" => some .trace
  | _ => none

end Level

/-- One log record. -/
structure LogEntry where
  level : Level
  /-- The component that wrote the record, as a path such as `rmg_bake::graph`. -/
  target : String
  text : String
  deriving DecidableEq, Repr, Inhabited

/-- The records of a run, in the order they were written. -/
abbrev Journal := Array LogEntry

/-- The records of a journal up to a level. -/
def Journal.upTo (j : Journal) (max : Level) : Journal :=
  j.filter fun e => e.level.rank ≤ max.rank

/-- A computation that appends log records. -/
abbrev Logged := StateM Journal

/-- Appends one record. -/
def log (level : Level) (target text : String) : Logged Unit :=
  modify fun j => j.push ⟨level, target, text⟩

/-- Runs a logged computation from an empty journal. -/
def Logged.start {α : Type} (m : Logged α) : α × Journal := StateT.run m #[]

end RenderGraph
