/-!
# Queue classes

Every pass runs on one of four queue classes, and each class is one track of the schedule.
Per-queue tables list the classes in the order `graphics`, `compute`, `copy`, `fill`, which is
also the order of their raw values 0 to 3.
-/

namespace RenderGraph

/-- The queue class a pass executes on. -/
inductive QueueClass where
  | graphics
  | compute
  | copy
  | fill
  deriving DecidableEq, Repr, Inhabited

namespace QueueClass

/-- All classes, in table order. -/
def all : List QueueClass := [.graphics, .compute, .copy, .fill]

/-- The position of a class in per-queue tables, also its raw value. -/
def index : QueueClass → Nat
  | .graphics => 0
  | .compute => 1
  | .copy => 2
  | .fill => 3

/-- The class with a raw value, if there is one. -/
def ofRaw? (raw : Nat) : Option QueueClass := all[raw]?

/-- The name of a class. -/
def name : QueueClass → String
  | .graphics => "Graphics"
  | .compute => "Compute"
  | .copy => "Copy"
  | .fill => "Fill"

/-- The Vulkan queue capabilities a queue needs to host the class: graphics (1), compute (2) or
transfer (4). -/
def queueFlags : QueueClass → Nat
  | .graphics => 1
  | .compute => 2
  | .copy => 4
  | .fill => 4

instance : ToString QueueClass := ⟨name⟩

@[simp] theorem ofRaw?_index (q : QueueClass) : ofRaw? q.index = some q := by
  cases q <;> rfl

end QueueClass

/-- One value per queue class. -/
structure PerQueue (α : Type) where
  graphics : α
  compute : α
  copy : α
  fill : α
  deriving DecidableEq, Repr, Inhabited

namespace PerQueue

variable {α β : Type}

/-- The value of a class. -/
def get (t : PerQueue α) : QueueClass → α
  | .graphics => t.graphics
  | .compute => t.compute
  | .copy => t.copy
  | .fill => t.fill

/-- The table built from a function of the class. -/
def ofFn (f : QueueClass → α) : PerQueue α := ⟨f .graphics, f .compute, f .copy, f .fill⟩

/-- The same value for every class. -/
def const (a : α) : PerQueue α := ofFn fun _ => a

/-- Replaces the value of one class. -/
def set (t : PerQueue α) (q : QueueClass) (a : α) : PerQueue α :=
  ofFn fun q' => if q' = q then a else t.get q'

/-- Changes every value. -/
def map (f : α → β) (t : PerQueue α) : PerQueue β := ofFn fun q => f (t.get q)

/-- Combines two tables class by class. -/
def zipWith {γ : Type} (f : α → β → γ) (s : PerQueue α) (t : PerQueue β) : PerQueue γ :=
  ofFn fun q => f (s.get q) (t.get q)

/-- The values in table order. -/
def toList (t : PerQueue α) : List α := QueueClass.all.map t.get

@[simp] theorem get_ofFn (f : QueueClass → α) (q : QueueClass) : (ofFn f).get q = f q := by
  cases q <;> rfl

@[simp] theorem get_set (t : PerQueue α) (q q' : QueueClass) (a : α) :
    (t.set q a).get q' = if q' = q then a else t.get q' := by
  simp [set]

end PerQueue

end RenderGraph
