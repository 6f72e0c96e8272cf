import RenderGraph.Sync
/-!
# Memory plans

Every alias chain needs memory. A memory plan puts chains into buckets: a persistent chain and
the present image's chain get a bucket of their own, and a transient chain may share a bucket
with other chains when their memory fits (same memory class for buffers, same shape for images)
and their uses never overlap in time.

* The liveness of a resource is the range of schedule positions of the live passes that touch
  it; the present image stays live up to the last position.
* Chains none of whose members is touched, and which need no memory of their own, are unused.
* Chains are placed in a fixed order: chains with their own bucket first, then larger chains
  first, then by base. A transient chain goes into the first bucket where every pair of
  occupant and newcomer has disjoint liveness and every use of the earlier one happens before
  every use of the later one; otherwise it opens a new bucket.
* A bucket starts in the state of the earliest access to any of its members.
-/

namespace RenderGraph

/-- The first and last schedule positions at which a resource is touched. -/
structure Liveness where
  first : Nat
  last : Nat
  deriving DecidableEq, Repr, Inhabited

namespace Liveness

/-- Extends a range to a position. -/
def extend (l : Liveness) (pos : Nat) : Liveness := ⟨min l.first pos, max l.last pos⟩

/-- Whether two ranges do not overlap. -/
def independent (a b : Liveness) : Bool := a.last < b.first || a.first > b.last

/-- The smallest range that covers both. -/
def union (a b : Liveness) : Liveness := ⟨min a.first b.first, max a.last b.last⟩

end Liveness

/-- The memory a bucket provides. -/
inductive BucketDesc where
  | buffer (size : UInt64) (usage : UInt32) (memory : MemoryClass)
  | image (shape : ImageShape) (usage : UInt32)
  deriving DecidableEq, Repr, Inhabited

namespace BucketDesc

/-- The kind of resources the bucket holds. -/
def kind : BucketDesc → ResKind
  | .buffer .. => .buffer
  | .image .. => .image

/-- The bytes the bucket needs. -/
def byteSize : BucketDesc → Nat
  | .buffer size .. => size.toNat
  | .image shape _ => shape.byteSize

/-- Whether two descriptions can share memory: buffers of one memory class, images of one
shape. -/
def compatible : BucketDesc → BucketDesc → Bool
  | .buffer _ _ a, .buffer _ _ b => a == b
  | .image a _, .image b _ => a == b
  | _, _ => false

/-- Grows a description to hold another: the larger size and both usages. -/
def merge : BucketDesc → BucketDesc → BucketDesc
  | .buffer s u m, .buffer s' u' _ => .buffer (max s s') (u ||| u') m
  | .image sh u, .image _ u' => .image sh (u ||| u')
  | d, _ => d

end BucketDesc

/-- The pipeline state a bucket's memory starts in. -/
structure InitialState where
  stage : UInt64 := 0
  access : UInt64 := 0
  layout : Int32 := 0
  deriving DecidableEq, Repr, Inhabited

/-- The state a bindless read puts a resource in: shader stages of its queue (vertex and
fragment on graphics, compute elsewhere), sampled reads of images in the shader-read layout,
storage reads of buffers. -/
def bindlessState (q : QueueClass) (kind : ResKind) : InitialState :=
  let stage : UInt64 := if q = .graphics then 0x88 else 0x800
  match kind with
  | .image => ⟨stage, (1 : UInt64) <<< 32, 5⟩
  | .buffer => ⟨stage, (1 : UInt64) <<< 33, 0⟩

/-- A resource in a bucket, with its liveness. -/
structure Member where
  resource : Res
  liveness : Option Liveness
  deriving DecidableEq, Repr, Inhabited

/-- Memory shared by one or more chains. -/
structure Bucket where
  id : Nat
  base : Res
  desc : BucketDesc
  persistent : Bool
  members : List Member
  initial : InitialState
  deriving Repr, Inhabited

/-- The union of the members' liveness. -/
def Bucket.liveness (b : Bucket) : Option Liveness :=
  (b.members.filterMap (·.liveness)).foldl (fun acc l => some ((acc.map (·.union l)).getD l)) none

/-- An alias chain waiting for memory. -/
structure Group where
  base : Res
  members : List Res
  desc : BucketDesc
  dedicated : Bool
  deriving Repr, Inhabited

/-- Where every resource's memory comes from. -/
structure MemoryPlan where
  buckets : Array Bucket
  /-- The bucket of each placed resource. -/
  assignment : List (Res × Nat)
  liveness : List (Res × Liveness)
  /-- Transient resources that got no memory. -/
  unused : List Res
  deriving Repr, Inhabited

namespace MemoryPlan

/-- The value of a key in an association list. -/
def find? {α : Type} (t : List (Res × α)) (r : Res) : Option α := (t.find? (·.1 == r)).map (·.2)

/-- Sets the value of a key, keeping the key's first place. -/
def upsert {α : Type} (t : List (Res × α)) (r : Res) (f : Option α → α) : List (Res × α) :=
  if t.any (·.1 == r) then t.map fun (k, v) => if k == r then (k, f (some v)) else (k, v)
  else t ++ [(r, f none)]

/-- The bucket of a resource. -/
def bucketOf? (p : MemoryPlan) (r : Res) : Option Nat := find? p.assignment r

/-- The liveness of a resource. -/
def livenessOf? (p : MemoryPlan) (r : Res) : Option Liveness := find? p.liveness r

/-- What the live passes do to resources, in schedule order: liveness, the passes using each
resource, and the first state of each chain base. -/
structure Usage where
  liveness : List (Res × Liveness) := []
  users : List (Res × List Nat) := []
  initial : List (Res × InitialState) := []

/-- Every resource a pass touches: each interaction's resource and output, then its bindless
reads. -/
def touched (p : PassInfo) : List Res :=
  p.interactions.flatMap (fun i => i.resource :: i.output.toList) ++ p.bindlessReads

/-- The state an explicit interaction puts a resource in; buffers have no layout. -/
def interactionState (i : Interaction) : InitialState :=
  ⟨i.stage, i.access, if i.resource.kind = .image then i.layout.getD 0 else 0⟩

/-- Records one pass at a schedule position. -/
def Usage.record (r : Registry) (u : Usage) (pos pass : Nat) : Usage :=
  match r.passes[pass]? with
  | none => u
  | some info =>
    let step := fun (u : Usage) (res : Res) =>
      { u with
        liveness := upsert u.liveness res fun l => (l.map (·.extend pos)).getD ⟨pos, pos⟩
        users := upsert u.users res fun l =>
          match l with
          | some list => if list.getLast? = some pass then list else list ++ [pass]
          | none => [pass] }
    let u := (touched info).foldl step u
    let firstState := fun (t : List (Res × InitialState)) (base : Res) (st : InitialState) =>
      if t.any (·.1 == base) then t else t ++ [(base, st)]
    let initial := info.interactions.foldl
      (fun t i => firstState t (r.baseOf i.resource) (interactionState i)) u.initial
    let initial := info.bindlessReads.foldl
      (fun t res => firstState t (r.baseOf res) (bindlessState info.queue res.kind)) initial
    { u with initial }

/-- What the live passes of a schedule do to resources: each pass recorded at its position, then
the present image kept live up to the last position. -/
def Usage.collect (r : Registry) (s : Schedule) : Usage :=
  let u := s.order.zipIdx.foldl (fun u (pass, pos) => u.record r pos pass) ({} : Usage)
  match r.presentImage, s.order.length with
  | some i, n + 1 =>
    { u with liveness := upsert u.liveness (.image i) fun l =>
        match l with
        | some l => { l with last := n }
        | none => ⟨0, n⟩ }
  | _, _ => u

/-- The description of one resource's memory. -/
def describe (r : Registry) (res : Res) : Except ConfigError BucketDesc :=
  match res with
  | .buffer i => match r.buffer? i with
    | some b => .ok (.buffer b.desc.size b.desc.usage b.desc.memory)
    | none => .error (.unknownResource res)
  | .image i => match r.image? i with
    | some img => .ok (.image img.shape img.desc.usage)
    | none => .error (.unknownResource res)

/-- Orders resources by their key. -/
def resLe (a b : Res) : Bool := !Res.lt b a

/-- Gathers the chains of all registered resources, in the order their first member is
registered. A chain needs memory of its own when its base is persistent or it is the present
image's chain. Members are sorted by link order, then by resource. -/
def collectGroups (r : Registry) (presentBase : Option Res) : Except ConfigError (List Group) := do
  let groups ← r.resources.foldlM (fun (groups : List Group) res => do
    let base := r.baseOf res
    let desc ← describe r res
    match groups.findIdx? (·.base == base) with
    | some idx =>
      pure (groups.modify idx fun g => { g with desc := g.desc.merge desc, members := g.members ++ [res] })
    | none =>
      let baseDesc ← describe r base
      let dedicated := r.lifetime base == .persistent || some base == presentBase
      pure (groups ++ [⟨base, [res], baseDesc.merge desc, dedicated⟩])) []
  pure (groups.map fun g =>
    { g with members := g.members.mergeSort fun a b =>
        r.chainOrder a < r.chainOrder b || (r.chainOrder a == r.chainOrder b && resLe a b) })

/-- The placement order of chains: own-bucket chains first, then larger chains, then by base. -/
def groupLe (a b : Group) : Bool :=
  if a.dedicated != b.dedicated then a.dedicated
  else if !a.dedicated && a.desc.byteSize != b.desc.byteSize then a.desc.byteSize > b.desc.byteSize
  else resLe a.base b.base

/-- Whether two members may share memory: one of them is never touched, or their ranges are
disjoint and every use of the earlier one happens before every use of the later one. -/
def ordered (s : Schedule) (sync : SyncPlan) (users : List (Res × List Nat)) (a b : Member) : Bool :=
  match a.liveness, b.liveness with
  | some la, some lb =>
    if !la.independent lb then false
    else
      let (earlier, later) := if la.last < lb.first then (a.resource, b.resource) else (b.resource, a.resource)
      match find? users earlier, find? users later with
      | some es, some ls => es.all fun e => ls.all fun l => sync.happensBefore s e l
      | _, _ => true
  | _, _ => true

/-- The component that reports memory planning. -/
def target : String := "rmg_bake::alloc"

/-- Places one chain: into the first bucket that can take it, or into a new bucket. -/
def placeGroup (s : Schedule) (sync : SyncPlan) (options : BakeOptions) (u : Usage)
    (acc : Array Bucket × List (Res × Nat)) (g : Group) : Logged (Array Bucket × List (Res × Nat)) := do
  let (buckets, assignment) := acc
  let members := g.members.map fun m => Member.mk m (find? u.liveness m)
  let fits := fun (b : Bucket) =>
    !b.persistent && b.desc.compatible g.desc &&
      b.members.all fun occupant => members.all fun m => ordered s sync u.users occupant m
  let target := if g.dedicated || !options.aliasTransients then none else buckets.findIdx? fits
  match target with
  | some idx =>
    let b := buckets.getD idx default
    log .trace MemoryPlan.target
      s!"Placing chain of {g.base.text} into bucket {b.id} (base {b.base.text})"
    let b := { b with desc := b.desc.merge g.desc, members := b.members ++ members }
    pure (buckets.set! idx b, assignment ++ g.members.map fun m => (m, b.id))
  | none =>
    let id := buckets.size
    log .trace MemoryPlan.target
      s!"New bucket {id} for chain of {g.base.text} (dedicated: {g.dedicated})"
    pure (buckets.push ⟨id, g.base, g.desc, g.dedicated, members, {}⟩,
      assignment ++ g.members.map fun m => (m, id))

/-- The state of a bucket: that of the chain base of the member touched first (ties broken by
resource), or the default when no member is touched. -/
def initialOf (r : Registry) (u : Usage) (b : Bucket) : InitialState :=
  let firsts := b.members.filterMap fun m => m.liveness.map fun l => (l.first, m.resource)
  let earliest := firsts.foldl (fun acc x =>
    match acc with
    | none => some x
    | some y => if x.1 < y.1 || (x.1 == y.1 && Res.lt x.2 y.2) then some x else some y) none
  match earliest with
  | some (_, res) => (find? u.initial (r.baseOf res)).getD b.initial
  | none => b.initial

/-- Plans the memory of a bake. -/
def build (r : Registry) (s : Schedule) (sync : SyncPlan) (options : BakeOptions) :
    BakeM MemoryPlan := do
  let u := Usage.collect r s
  let presentBase := r.presentImage.map fun i => r.baseOf (.image i)
  let groups ← BakeM.ofConfig (collectGroups r presentBase)
  let mut used := #[]
  let mut unused := []
  for g in groups do
    if g.dedicated || g.members.any (fun m => (find? u.liveness m).isSome) then
      used := used.push g
    else
      log .warn target s!"Transient chain of {g.base.text} is never used, no memory is assigned"
      unused := unused ++ g.members
  let ordered := used.toList.mergeSort groupLe
  let (buckets, assignment) ← (ordered.foldlM (placeGroup s sync options u) (#[], []) : Logged _)
  let buckets := buckets.map fun b => { b with initial := initialOf r u b }
  log .info target
    s!"Aliasing: {assignment.length} resources in {buckets.size} buckets, {unused.length} unused"
  pure ⟨buckets, assignment, u.liveness, unused⟩

end MemoryPlan

end RenderGraph
