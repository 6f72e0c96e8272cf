/-!
# Record tags

Every record of an op-stream starts with a tag that says what its payload holds. Input records
(the declaration) have tags below `0x100`, output records (the baked graph) above; the end
record `0xff` closes both kinds of streams.

Each tag fixes the size of its payload (`Tag.payloadSize`): a reader refuses a record whose
payload has another size.
-/

namespace RenderGraph.Stream

/-- The kinds of records. -/
inductive Tag where
  | setBrief
  | registerShader
  | registerProgram
  | registerPass
  | registerBuffer
  | registerImage
  | registerSampler
  | registerBindless
  | forceAliasBuffer
  | forceAliasImage
  | createBuffer
  | createImage
  | aliasing
  | queueBegin
  | submitFrame
  | pass
  | «end»
  deriving DecidableEq, Repr, Inhabited

namespace Tag

/-- Every tag, input tags first. -/
def all : List Tag :=
  [.setBrief, .registerShader, .registerProgram, .registerPass, .registerBuffer, .registerImage,
    .registerSampler, .registerBindless, .forceAliasBuffer, .forceAliasImage, .createBuffer,
    .createImage, .aliasing, .queueBegin, .submitFrame, .pass, .end]

/-- The raw value of a tag on the wire. -/
def raw : Tag → Nat
  | .setBrief => 0x01
  | .registerShader => 0x02
  | .registerProgram => 0x03
  | .registerPass => 0x04
  | .registerBuffer => 0x05
  | .registerImage => 0x06
  | .registerSampler => 0x07
  | .registerBindless => 0x08
  | .forceAliasBuffer => 0x09
  | .forceAliasImage => 0x0a
  | .createBuffer => 0x101
  | .createImage => 0x102
  | .aliasing => 0x103
  | .queueBegin => 0x104
  | .submitFrame => 0x105
  | .pass => 0x106
  | .end => 0xff

/-- The tag with a raw value, if there is one. -/
def ofRaw? (raw : Nat) : Option Tag := all.find? (·.raw == raw)

/-- The name of a tag, as messages print it. -/
def name : Tag → String
  | .setBrief => "SetBrief"
  | .registerShader => "RegisterShader"
  | .registerProgram => "RegisterProgram"
  | .registerPass => "RegisterPass"
  | .registerBuffer => "RegisterBuffer"
  | .registerImage => "RegisterImage"
  | .registerSampler => "RegisterSampler"
  | .registerBindless => "RegisterBindless"
  | .forceAliasBuffer => "ForceAliasBuffer"
  | .forceAliasImage => "ForceAliasImage"
  | .createBuffer => "CreateBuffer"
  | .createImage => "CreateImage"
  | .aliasing => "Alias"
  | .queueBegin => "QueueBegin"
  | .submitFrame => "SubmitFrame"
  | .pass => "Pass"
  | .end => "End"

/-- The tag with a name, if there is one. -/
def ofName? (n : String) : Option Tag := all.find? (·.name == n)

/-- Bytes of the fixed payload of each tag. -/
def payloadSize : Tag → Nat
  | .setBrief => 48
  | .registerShader => 16
  | .registerProgram => 16
  | .registerPass => 32
  | .registerBuffer => 32
  | .registerImage => 48
  | .registerSampler => 24
  | .registerBindless => 16
  | .forceAliasBuffer => 8
  | .forceAliasImage => 8
  | .createBuffer => 48
  | .createImage => 72
  | .aliasing => 24
  | .queueBegin => 16
  | .submitFrame => 24
  | .pass => 40
  | .end => 0

@[simp] theorem ofRaw?_raw (t : Tag) : ofRaw? t.raw = some t := by
  cases t <;> rfl

end Tag

end RenderGraph.Stream
