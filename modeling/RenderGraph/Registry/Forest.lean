import RenderGraph.Error
/-!
# Alias forests

Resources of one kind form alias chains: a chain is a tree whose root is the declared base,
and every other member is an alias that shares the base's memory. A forest keeps, for every
registered id, its parent in its tree (a root is its own parent), and its link order: 0 for
roots, and for an alias the number of links made in this forest up to and including its own.

`Forest.find` climbs from an id to the root of its tree and then points every id on the way
at that root (path compression). Linking never re-roots a tree: `link base member` hangs the
whole tree of `member`, which must be a root, under the root of `base`. It refuses an
unregistered alias or base, an alias that already hangs under another root, and a link that
would close a cycle (the base lying in the alias's own tree); the look-ups it made before
refusing still compress their paths. `Forest.flatten` points every registered id at its root,
after which `Forest.base` reads the root off an id's parent.

A look-up climbs at most as many steps as the forest has ids: the parents form trees, so a
path up has fewer edges than that.
-/

namespace RenderGraph

/-- Alias chains over the ids of one resource kind. -/
structure Forest where
  kind : ResKind
  /-- The parent of each id: `none` for ids that are not registered, the id itself for roots. -/
  parent : Array (Option Nat)
  /-- Link order of each id: 0 for roots. -/
  order : Array Nat
  /-- The order the next link receives. -/
  nextOrder : Nat
  deriving DecidableEq, Repr

namespace Forest

/-- An empty forest over the ids below `capacity`. -/
def empty (kind : ResKind) (capacity : Nat) : Forest :=
  ⟨kind, Array.replicate capacity none, Array.replicate capacity 0, 1⟩

/-- Registers an id as the root of a tree of its own. -/
def register (f : Forest) (id : Nat) : Forest :=
  { f with parent := f.parent.set! id (some id) }

/-- Whether an id is registered. -/
def isRegistered (f : Forest) (id : Nat) : Bool := (f.parent[id]?).join.isSome

/-- Whether an id is the root of its tree: its own parent. -/
def isRoot (f : Forest) (id : Nat) : Bool := (f.parent[id]?).join == some id

/-- Climbs from `id` along parents, at most `fuel` steps, and stops at an id that is its own
parent or has none. -/
def climb (f : Forest) : Nat → Nat → Nat
  | 0, id => id
  | fuel + 1, id =>
    match (f.parent[id]?).join with
    | some p => if p = id then id else f.climb fuel p
    | none => id

/-- The root of an id's tree; an unregistered id is its own root. -/
def root (f : Forest) (id : Nat) : Nat := f.climb f.parent.size id

/-- Points every id on the path from `current` up to `root` at `root`, at most `fuel` of them. -/
def compress (root : Nat) : Nat → Nat → Array (Option Nat) → Array (Option Nat)
  | 0, _, parent => parent
  | fuel + 1, current, parent =>
    if current = root then parent
    else compress root fuel ((parent[current]?).join.getD root) (parent.set! current (some root))

/-- Finds the root of `id`, compressing the path on the way. -/
def find (f : Forest) (id : Nat) : Nat × Forest :=
  let r := f.root id
  (r, { f with parent := compress r f.parent.size id f.parent })

/-- Hangs the tree of `member` under the root of `base` and returns that root. -/
def link (f : Forest) (base member : Nat) : Except AliasError Nat × Forest :=
  let res := Res.mk f.kind
  if !f.isRegistered member then (.error (.unknownAlias (res member)), f)
  else if !f.isRegistered base then (.error (.unknownBase (res member) (res base)), f)
  else if !f.isRoot member then
    let (current, f) := f.find member
    (.error (.alreadyAliased (res member) (res current)), f)
  else
    let (r, f) := f.find base
    if r = member then (.error (.cycle (res member) (res base)), f)
    else
      (.ok r, { f with parent := f.parent.set! member (some r),
                       order := f.order.set! member f.nextOrder, nextOrder := f.nextOrder + 1 })

/-- Points every registered id at its root. -/
def flatten (f : Forest) : Forest :=
  (List.range f.parent.size).foldl (fun f id => if f.isRegistered id then (f.find id).2 else f) f

/-- The root of an id read off its parent, as it stands once the forest is flattened. -/
def base (f : Forest) (id : Nat) : Nat := (f.parent[id]?).join.getD id

/-- The link order of an id. -/
def orderOf (f : Forest) (id : Nat) : Nat := f.order[id]?.getD 0

end Forest

end RenderGraph
