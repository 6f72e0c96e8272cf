import RenderGraph.Resource
import RenderGraph.Stream.Error
/-!
# Bake errors

Why a declaration cannot be baked. Configuration errors are declarations that break the rules
(unknown handles, ids outside the brief, writes without a distinct output); graph errors are
dependency cycles; alias errors are forced aliases that do not fit; stream errors are broken
input bytes. Each error has the message that reports it, and `BakeError.message` prefixes the
family.
-/

namespace RenderGraph

/-- The kinds of declared entries, as messages name them. -/
inductive EntryKind where
  | shader
  | program
  | buffer
  | image
  | sampler
  | bindless
  | pass
  | presentImage
  /-- A resource of either kind. -/
  | resource
  deriving DecidableEq, Repr, Inhabited

/-- The name of an entry kind in messages. -/
def EntryKind.name : EntryKind → String
  | .shader => "shader"
  | .program => "program"
  | .buffer => "buffer"
  | .image => "image"
  | .sampler => "sampler"
  | .bindless => "bindless"
  | .pass => "pass"
  | .presentImage => "present image"
  | .resource => "resource"

/-- A declaration that breaks the rules. -/
inductive ConfigError where
  | missingBrief
  | duplicateBrief
  /-- An id at or beyond the count the brief declares. -/
  | idOutOfRange (kind : EntryKind) (id count : Nat)
  | duplicateId (kind : EntryKind) (id : Nat)
  | unknownHandle (kind : EntryKind) (id : Nat)
  | unknownResource (res : Res)
  | missingOutputAlias (pass : PassRef) (resource : Res)
  | outputAliasNotDistinct (pass : PassRef) (resource : Res)
  | foreignOutputAlias (pass : PassRef) (resource output : Res)
  | bindingSlotReused (pass : PassRef) (binding : Nat)
  | versionWrittenTwice (resource : Res) (first second : PassRef)
  | outputProducedTwice (resource : Res) (first second : PassRef)
  /-- A render-sized image with a format of its own; the format is given as its text. -/
  | derivedFormatOverride (image format : String)
  | noRenderExtent (res : Res)
  | invalidValue (field : String) (value : Nat)
  | countExceedsStream (kind : EntryKind) (count limit : Nat)
  deriving DecidableEq, Repr

namespace ConfigError

/-- The name of the error's kind. -/
def kind : ConfigError → String
  | .missingBrief => "MissingBrief"
  | .duplicateBrief => "DuplicateBrief"
  | .idOutOfRange .. => "IdOutOfRange"
  | .duplicateId .. => "DuplicateId"
  | .unknownHandle .. => "UnknownHandle"
  | .unknownResource .. => "UnknownResource"
  | .missingOutputAlias .. => "MissingOutputAlias"
  | .outputAliasNotDistinct .. => "OutputAliasNotDistinct"
  | .foreignOutputAlias .. => "ForeignOutputAlias"
  | .bindingSlotReused .. => "BindingSlotReused"
  | .versionWrittenTwice .. => "VersionWrittenTwice"
  | .outputProducedTwice .. => "OutputProducedTwice"
  | .derivedFormatOverride .. => "DerivedFormatOverride"
  | .noRenderExtent .. => "NoRenderExtent"
  | .invalidValue .. => "InvalidValue"
  | .countExceedsStream .. => "CountExceedsStream"

/-- The message that reports the error. -/
def message : ConfigError → String
  | .missingBrief => "Stream does not start with a set-brief record"
  | .duplicateBrief => "Set-brief record appeared twice"
  | .idOutOfRange k id count => s!"{k.name} id {id} exceeds the {count} declared in the brief"
  | .duplicateId k id => s!"{k.name} id {id} is registered twice"
  | .unknownHandle k id => s!"Unknown or destroyed {k.name} handle {id}"
  | .unknownResource r => s!"Unknown resource {r.text}"
  | .missingOutputAlias p r =>
    s!"Pass {p.text} writes {r.text} without declaring an output alias"
  | .outputAliasNotDistinct p r =>
    s!"Pass {p.text} writes {r.text} into itself, output alias must be a distinct handle"
  | .foreignOutputAlias p r o =>
    s!"Pass {p.text} writes {r.text} into {o.text}, which is already an alias of another resource"
  | .bindingSlotReused p b => s!"Pass {p.text} binds slot {b} more than once"
  | .versionWrittenTwice r a b => s!"Version {r.text} is overwritten by {a.text} and {b.text}"
  | .outputProducedTwice r a b => s!"Version {r.text} is produced by {a.text} and {b.text}"
  | .derivedFormatOverride image format =>
    s!"Image '{image}' is render sized, its format is derived and can't be set to {format}"
  | .noRenderExtent r =>
    s!"Render sized image {r.text} declared, but the graph has no render extent"
  | .invalidValue field value => s!"Invalid {field} value {value}"
  | .countExceedsStream k count limit =>
    s!"Brief declares {count} {k.name} entries, a stream of this size holds at most {limit} records"

end ConfigError

/-- A failure of ordering: a dependency cycle, whose edge from `producer` to `consumer` closes
it, or a schedule that places a producer after its consumer. -/
inductive GraphError where
  | cyclicDependency (producer consumer : PassRef)
  | orderViolation (producer consumer : PassRef)
  deriving DecidableEq, Repr

/-- The name of the error's kind. -/
def GraphError.kind : GraphError → String
  | .cyclicDependency .. => "CyclicDependency"
  | .orderViolation .. => "OrderViolation"

/-- The message that reports the error. -/
def GraphError.message : GraphError → String
  | .cyclicDependency p c => s!"Cyclic dependency between {p.text} and {c.text}"
  | .orderViolation p c => s!"Internal scheduling error: {p.text} is ordered after its dependee {c.text}"

/-- A forced alias that cannot be made. -/
inductive AliasError where
  | unknownBase (member base : Res)
  | unknownAlias (member : Res)
  | alreadyAliased (member base : Res)
  | cycle (member base : Res)
  | descriptorMismatch (member base : Res)
  deriving DecidableEq, Repr

namespace AliasError

/-- The name of the error's kind. -/
def kind : AliasError → String
  | .unknownBase .. => "UnknownBase"
  | .unknownAlias .. => "UnknownAlias"
  | .alreadyAliased .. => "AlreadyAliased"
  | .cycle .. => "Cycle"
  | .descriptorMismatch .. => "DescriptorMismatch"

/-- The message that reports the error. -/
def message : AliasError → String
  | .unknownBase a b => s!"Alias {a.text} references unknown or destroyed base {b.text}"
  | .unknownAlias a => s!"Alias {a.text} references unknown or destroyed resource"
  | .alreadyAliased a b => s!"{a.text} is already an alias of {b.text}"
  | .cycle a b => s!"Aliasing {a.text} onto {b.text} would create a cycle"
  | .descriptorMismatch a b => s!"Alias {a.text} does not match the descriptor of its base {b.text}"

end AliasError

/-- Any reason a bake fails. -/
inductive BakeError where
  | configuration (e : ConfigError)
  | graph (e : GraphError)
  | aliasing (e : AliasError)
  | stream (e : Stream.Error)
  deriving DecidableEq, Repr

namespace BakeError

/-- The family and kind of the error, as a dotted path. -/
def path : BakeError → String
  | .configuration e => "Configuration." ++ e.kind
  | .graph e => "Graph." ++ e.kind
  | .aliasing e => "Alias." ++ e.kind
  | .stream e => "Stream." ++ e.kind

/-- The message that reports the error, prefixed with its family. -/
def message : BakeError → String
  | .configuration e => "Configuration error: " ++ e.message
  | .graph e => "Graph error: " ++ e.message
  | .aliasing e => "Alias error: " ++ e.message
  | .stream e => "Op-stream error: " ++ e.message

end BakeError

end RenderGraph
