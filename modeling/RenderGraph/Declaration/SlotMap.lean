import RenderGraph.Declaration.SlotStore
/-!
# Slot maps

The slot store the runnable program uses. It stores values in numbered slots and hands out keys
that name a slot together with the version the slot had when the value went in. Removing a value
frees its slot and bumps its version, so every key made before the removal stops working, even
after the slot is reused.

* An insert reuses the most recently freed slot, or opens a new slot at the end.
* Iteration follows slot order.
-/

namespace RenderGraph

/-- One slot: its value, if occupied, and its version. -/
structure Slot (α : Type) where
  value : Option α
  version : Nat
  deriving Repr, Inhabited

/-- Values in versioned slots, with the freed slots most recent first. -/
structure SlotMap (α : Type) where
  slots : Array (Slot α) := #[]
  free : List Nat := []
  deriving Repr, Inhabited

namespace SlotMap

variable {α : Type}

/-- The value a key names, if the key is still valid. -/
def get? (m : SlotMap α) (k : Key) : Option α :=
  match m.slots[k.index]? with
  | some s => if s.version = k.version then s.value else none
  | none => none

/-- Stores a value: in the most recently freed slot with its version bumped, or in a new slot
at version 1. -/
def insert (m : SlotMap α) (a : α) : Key × SlotMap α :=
  match m.free with
  | i :: rest =>
    match m.slots[i]? with
    | some s =>
      let v := s.version + 1
      (⟨i, v⟩, { slots := m.slots.set! i ⟨some a, v⟩, free := rest })
    | none => (⟨m.slots.size, 1⟩, { m with slots := m.slots.push ⟨some a, 1⟩ })
  | [] => (⟨m.slots.size, 1⟩, { m with slots := m.slots.push ⟨some a, 1⟩ })

/-- Removes the value of a valid key: the slot is emptied, its version bumped and the slot
freed. -/
def remove (m : SlotMap α) (k : Key) : Option (α × SlotMap α) :=
  match m.get? k with
  | some a =>
    some (a, { slots := m.slots.set! k.index ⟨none, k.version + 1⟩, free := k.index :: m.free })
  | none => none

/-- Changes the value of a valid key; an invalid key changes nothing. -/
def modify (m : SlotMap α) (k : Key) (f : α → α) : SlotMap α :=
  match m.get? k with
  | some a => { m with slots := m.slots.set! k.index ⟨some (f a), k.version⟩ }
  | none => m

/-- The occupied slots in slot order, each with its current key. -/
def entries (m : SlotMap α) : List (Key × α) :=
  m.slots.toList.zipIdx.filterMap fun (s, i) => s.value.map fun a => (⟨i, s.version⟩, a)

end SlotMap

instance : SlotStore SlotMap where
  empty := {}
  get? := SlotMap.get?
  insert := SlotMap.insert
  remove := SlotMap.remove
  modify := SlotMap.modify
  entries := SlotMap.entries

end RenderGraph
