/-!
# Slot stores

A declaration keeps each kind of entry in a slot map: a store that hands out a key for every
value it takes. The key names that value until the value is removed, and names nothing after that,
even once its place holds another value.

The declaration front end uses a slot map only through the operations it calls (`SlotStore`):
an empty store, look-up, insert, remove, modify and iteration. It is written against any store
that has them. `RenderGraph.SlotMap` is the store the runnable program uses. What the proofs
assume of a store is not read off that implementation: it is stated as the laws of
`LawfulSlotStore` (in `RenderGraph.Proofs.SlotMaps`), of which `SlotMap` is one instance.

* A key names a place and the version the place had when the key was made; messages print the
  place, counted from 1 (`Key.slot`).
* Iteration (`SlotStore.entries`) goes in the store's own order. The encoder numbers entries in
  that order, which gives them their dense ids.
-/

namespace RenderGraph

/-- A key of a slot map: the slot's place (from 0) and the slot's version when the key was
made. -/
structure Key where
  index : Nat
  version : Nat
  deriving DecidableEq, Repr, Inhabited

/-- The slot number of a key, counted from 1. -/
def Key.slot (k : Key) : Nat := k.index + 1

/-- The operations of a slot map that the declaration front end and the encoder call. -/
class SlotStore (M : Type → Type) where
  /-- The store with no value. -/
  empty {α : Type} : M α
  /-- The value a key names, if the key is still valid. -/
  get? {α : Type} : M α → Key → Option α
  /-- Stores a value and hands out its key. -/
  insert {α : Type} : M α → α → Key × M α
  /-- Removes the value of a valid key and hands it back; an invalid key removes nothing. -/
  remove {α : Type} : M α → Key → Option (α × M α)
  /-- Changes the value of a valid key. -/
  modify {α : Type} : M α → Key → (α → α) → M α
  /-- The stored values with their keys, in iteration order. -/
  entries {α : Type} : M α → List (Key × α)

namespace SlotStore

variable {M : Type → Type} [SlotStore M] {α : Type}

/-- Whether a key is still valid. -/
def contains (m : M α) (k : Key) : Bool := (get? m k).isSome

/-- The valid keys in iteration order. -/
def keys (m : M α) : List Key := (entries m).map (·.1)

/-- The number of stored values. -/
def size (m : M α) : Nat := (entries m).length

end SlotStore

end RenderGraph
