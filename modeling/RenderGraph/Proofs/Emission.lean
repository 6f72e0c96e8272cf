import RenderGraph.Proofs.Layout
/-!
# The baked graph of a bake

`BakedGraph.emit` hands the stages of a bake to a backend as one graph. For every successful
bake that graph mirrors the plans it was made from (`bake_emits_plans`):

* its buckets are the memory plan's buckets in order, with their ids, bases, memory,
  persistence and first states, and the number of their members;
* its aliases are the members of the buckets other than each bucket's base, one record per
  member, at offset 0;
* its queues are the classes the schedule gives passes to, in class order. Each carries the
  plan's frames for its class and the class's passes in queue order. Each pass has its position,
  its queue index (its place in the list), its level and minimized waits, and its reads then
  writes resolved to the buckets of their resources (`Mirrors`);
* so a resource is found in the bucket the plan assigns it, or in none when the plan has none
  (`bucketOf?_emit`).

A backend finds a resource's bucket by the bucket bases first and by the aliases second. Both
agree with the plan, because a bucket's base is one of its members and a resource is a member
of one bucket at most (`LayoutLaws.base_mem`, `LayoutLaws.eq_of_mem`).
-/

namespace RenderGraph

open Logged

/-! ### Buckets of a laid-out plan -/

/-- A successful map in `Except` returns, for each of its results, an input that gives it. -/
theorem Except.exists_of_mem_mapM {ε α β : Type} {f : α → Except ε β} {xs : List α}
    {ys : List β} (h : xs.mapM f = .ok ys) {y : β} (hy : y ∈ ys) : ∃ x ∈ xs, f x = .ok y := by
  have hfa := Except.forall₂_of_mapM h
  clear h
  induction hfa with
  | nil => cases hy
  | @cons x y' xs ys hxy _ ih =>
    rcases List.mem_cons.mp hy with rfl | hy
    · exact ⟨x, List.mem_cons_self, hxy⟩
    · obtain ⟨x', hx', hfx⟩ := ih hy
      exact ⟨x', List.mem_cons_of_mem x hx', hfx⟩

namespace MemoryPlan.LayoutLaws

variable {r : Registry} {s : Schedule} {m : MemoryPlan} (h : LayoutLaws r s m)
include h

/-- The base of a bucket is one of its members: the first, as the base of its first chain. -/
theorem base_mem {bk : Bucket} (hbk : bk ∈ m.buckets) : bk.base ∈ bk.resources := by
  obtain ⟨cs, hne, -, hres, hbase, hchains⟩ := h.chains bk hbk
  obtain ⟨c, rest, rfl⟩ := List.exists_cons_of_ne_nil hne
  simp only [List.head?_cons, Option.map_some, Option.some.injEq] at hbase
  have hhead := (hchains c List.mem_cons_self).1.head
  rw [hres, hbase]
  exact List.mem_flatMap.mpr ⟨c, List.mem_cons_self, List.mem_of_mem_head? hhead⟩

/-- A bucket lists each member once: its chains have distinct bases, and each chain lists its
members once. -/
theorem nodup_resources {bk : Bucket} (hbk : bk ∈ m.buckets) : bk.resources.Nodup := by
  obtain ⟨cs, -, hnd, hres, -, hchains⟩ := h.chains bk hbk
  rw [hres, List.nodup_flatMap]
  refine ⟨fun c hc => (hchains c hc).1.nodup, ?_⟩
  refine (List.pairwise_map.mp hnd).imp_of_mem fun {c c'} hc hc' hne => ?_
  show List.Disjoint c.2 c'.2
  rw [List.disjoint_left]
  -- a member of a chain has the chain's base as its base
  intro x hx hx'
  exact hne ((((hchains c hc).1.mem_iff x).mp hx).2.symm.trans
    (((hchains c' hc').1.mem_iff x).mp hx').2)

/-- Two buckets that share a member are one bucket. -/
theorem eq_of_mem {bk bk' : Bucket} (hbk : bk ∈ m.buckets) (hbk' : bk' ∈ m.buckets) {x : Res}
    (hx : x ∈ bk.resources) (hx' : x ∈ bk'.resources) : bk = bk' := by
  obtain ⟨i, hi, rfl⟩ := Array.getElem_of_mem hbk
  obtain ⟨j, hj, rfl⟩ := Array.getElem_of_mem hbk'
  obtain rfl := h.bucket_unique x i j _ _ (Array.getElem?_eq_getElem hi)
    (Array.getElem?_eq_getElem hj) hx hx'
  rfl

/-- A member of a bucket is assigned to it. -/
theorem bucketOf?_of_mem {bk : Bucket} (hbk : bk ∈ m.buckets) {x : Res} (hx : x ∈ bk.resources) :
    m.bucketOf? x = some bk.id := by
  obtain ⟨i, hi, rfl⟩ := Array.getElem_of_mem hbk
  rw [h.id_eq i _ (Array.getElem?_eq_getElem hi)]
  exact (h.bucketOf_iff x i).mpr ⟨_, Array.getElem?_eq_getElem hi, hx⟩

/-- A resource that is no bucket's member is assigned to none. -/
theorem bucketOf?_eq_none {x : Res} (hx : ∀ bk ∈ m.buckets, x ∉ bk.resources) :
    m.bucketOf? x = none := by
  cases hb : m.bucketOf? x with
  | none => rfl
  | some i =>
    obtain ⟨bk, hbk, hxb⟩ := (h.bucketOf_iff x i).mp hb
    exact absurd hxb (hx bk (Array.mem_of_getElem? hbk))

/-- Buckets are distinct, being numbered by position. -/
theorem nodup_buckets : m.buckets.toList.Nodup := by
  refine List.Nodup.of_map (·.id) ?_
  have hids : m.buckets.toList.map (·.id) = List.range m.buckets.size := by
    refine List.ext_getElem (by simp) fun i h₁ h₂ => ?_
    simp only [List.getElem_map, List.getElem_range, Array.getElem_toList]
    exact h.id_eq i _ (Array.getElem?_eq_getElem (by simpa using h₂))
  rw [hids]
  exact List.nodup_range

end MemoryPlan.LayoutLaws

namespace BakedGraph

variable {r : Registry} {s : Schedule} {sync : SyncPlan} {m : MemoryPlan} {G : BakedGraph}

/-! ### Aliases -/

/-- The aliases of a bucket are its members other than its base, at offset 0. -/
theorem mem_bucketAliases {bk : Bucket} {a : BakedAlias} :
    a ∈ bucketAliases bk ↔ a.resource ∈ bk.resources ∧ a.resource ≠ bk.base ∧
      a.bucket = bk.id ∧ a.base = bk.base ∧ a.offset = 0 := by
  rcases a with ⟨x, i, base, offset⟩
  simp only [bucketAliases, Bucket.resources, List.mem_map, List.mem_filter, bne_iff_ne, ne_eq,
    BakedAlias.mk.injEq]
  constructor
  · rintro ⟨mb, ⟨hmb, hne⟩, rfl, rfl, rfl, rfl⟩
    exact ⟨⟨mb, hmb, rfl⟩, hne, rfl, rfl, rfl⟩
  · rintro ⟨⟨mb, hmb, rfl⟩, hne, rfl, rfl, rfl⟩
    exact ⟨mb, ⟨hmb, hne⟩, rfl, rfl, rfl, rfl⟩

theorem map_resource_bucketAliases (bk : Bucket) :
    (bucketAliases bk).map (·.resource) = bk.resources.filter (· != bk.base) := by
  simp only [bucketAliases, Bucket.resources, List.map_map, List.filter_map]
  rfl

/-- With the members of a laid-out plan, each non-base member has one alias record. -/
theorem nodup_aliases {s : Schedule} (hm : MemoryPlan.LayoutLaws r s m) :
    ((m.buckets.toList.flatMap bucketAliases).map (·.resource)).Nodup := by
  rw [List.map_flatMap]
  simp only [map_resource_bucketAliases]
  rw [List.nodup_flatMap]
  refine ⟨fun bk hbk => (hm.nodup_resources (Array.mem_toList_iff.mp hbk)).filter _, ?_⟩
  refine hm.nodup_buckets.imp_of_mem fun {bk bk'} hbk hbk' hne => ?_
  show List.Disjoint _ _
  rw [List.disjoint_left]
  -- a resource in two buckets would make them one
  intro x hx hx'
  exact hne (hm.eq_of_mem (Array.mem_toList_iff.mp hbk) (Array.mem_toList_iff.mp hbk')
    (List.mem_of_mem_filter hx) (List.mem_of_mem_filter hx'))

/-! ### What emitting builds -/

theorem emit_buckets (h : emit r s sync m = .ok G) :
    G.buckets = m.buckets.toList.map bakeBucket ∧ G.aliases = m.buckets.toList.flatMap bucketAliases := by
  unfold emit at h
  obtain ⟨Qs, -, h⟩ := Except.exists_of_bind_eq_ok h
  obtain rfl := Except.ok.inj h
  exact ⟨rfl, rfl⟩

/-- Every queue entry of an emitted graph is the one baked for its class: the plan's frames for
the class, and the class's passes baked one for one in queue order. -/
theorem emit_queue_of_mem (h : emit r s sync m = .ok G) {Q : BakedQueue} (hQ : Q ∈ G.queues) :
    Q.frames = sync.frames.get Q.queue ∧
      List.Forall₂ (fun p bp => bakePass r s sync m Q.queue p = .ok bp) (s.queues.get Q.queue)
        Q.passes := by
  unfold emit at h
  obtain ⟨Qs, hQs, h⟩ := Except.exists_of_bind_eq_ok h
  obtain rfl := Except.ok.inj h
  obtain ⟨q, -, hq⟩ := Except.exists_of_mem_mapM hQs hQ
  obtain ⟨passes, hpasses, hq⟩ := Except.exists_of_bind_eq_ok hq
  obtain rfl := Except.ok.inj hq
  exact ⟨rfl, Except.forall₂_of_mapM hpasses⟩

/-! ### Passes -/

/-- An interaction resolved to the bucket the memory plan gives its resource, with everything
else copied. -/
def Resolves (m : MemoryPlan) (i : Interaction) (ri : ResolvedInteraction) : Prop :=
  m.bucketOf? i.resource = some ri.bucket ∧
    ri = ⟨i.resource, i.output, ri.bucket, i.binding, i.mode, i.stage, i.access, i.layout⟩

/-- `bp` is pass `p` as a backend sees it, `p` standing at index `i` of the list of queue class
`q`. -/
structure Mirrors (r : Registry) (s : Schedule) (sync : SyncPlan) (m : MemoryPlan) (q : QueueClass)
    (i p : Nat) (bp : BakedPass) : Prop where
  id_eq : bp.id = (r.passes.getD p default).id
  name_eq : bp.name = (r.passes.getD p default).name
  queue_eq : bp.queue = q
  position_eq : s.positionOf? p = some bp.position
  queueIndex_eq : bp.queueIndex = i
  level_eq : bp.level = s.levelOf p
  program_eq : bp.program = (r.passes.getD p default).program
  waits_eq : bp.waits = sync.waitsOf p
  /-- Reads, then writes, each resolved to its bucket. -/
  interactions : List.Forall₂ (Resolves m) (r.passes.getD p default).interactions bp.interactions

theorem resolve_eq_ok {i : Interaction} {ri : ResolvedInteraction} (h : resolve m i = .ok ri) :
    Resolves m i ri := by
  unfold resolve at h
  split at h
  · rename_i bucket hb
    obtain rfl := Except.ok.inj h
    exact ⟨hb, rfl⟩
  · cases h

/-- A pass of a placed schedule, baked, mirrors the pass. -/
theorem bakePass_mirrors {n : Nat} (hs : s.Placement n) {q : QueueClass} {i p : Nat}
    {bp : BakedPass} (hp : (s.queues.get q)[i]? = some p) (h : bakePass r s sync m q p = .ok bp) :
    Mirrors r s sync m q i p bp := by
  unfold bakePass at h
  obtain ⟨ris, hris, h⟩ := Except.exists_of_bind_eq_ok h
  obtain rfl := Except.ok.inj h
  -- a pass in a queue list is live, so it has a position
  have hlive : p ∈ s.order := (hs.mem_queues_iff.mp (List.mem_of_getElem? hp)).1
  obtain ⟨k, hk⟩ := List.mem_iff_getElem?.mp hlive
  have hpos := (hs.position_eq p k).mpr hk
  refine ⟨rfl, rfl, rfl, ?_, hs.queueIndex_eq q i p hp, rfl, rfl, rfl, ?_⟩
  · rw [hpos]
    rfl
  · exact (Except.forall₂_of_mapM hris).imp fun _ _ => resolve_eq_ok

/-! ### Finding a resource's bucket -/

/-- **A backend finds every resource in the bucket the plan assigns it.** Bases are members,
so a bucket found by its base is the member's one bucket; a resource that is no bucket's base
but a member has an alias, which names its bucket. -/
theorem bucketOf?_emit {s : Schedule} (hm : MemoryPlan.LayoutLaws r s m)
    (h : emit r s sync m = .ok G) (x : Res) : G.bucketOf? x = m.bucketOf? x := by
  obtain ⟨hbuckets, haliases⟩ := emit_buckets h
  unfold bucketOf?
  cases hfind : G.buckets.find? (·.base == x) with
  | some bb =>
    have hmem := List.mem_of_find?_eq_some hfind
    have hbase : bb.base = x := by simpa using List.find?_some hfind
    rw [hbuckets] at hmem
    obtain ⟨bk, hbk, rfl⟩ := List.mem_map.mp hmem
    have hbk' := Array.mem_toList_iff.mp hbk
    rw [hm.bucketOf?_of_mem hbk' (hbase ▸ hm.base_mem hbk')]
    rfl
  | none =>
    have hnobase : ∀ bk ∈ m.buckets, bk.base ≠ x := by
      intro bk hbk hb
      have := List.find?_eq_none.mp hfind (bakeBucket bk)
        (hbuckets ▸ List.mem_map_of_mem (Array.mem_toList_iff.mpr hbk))
      simp [bakeBucket, hb] at this
    dsimp only
    cases halias : G.aliases.find? (·.resource == x) with
    | some a =>
      have hmem := List.mem_of_find?_eq_some halias
      have hres : a.resource = x := by simpa using List.find?_some halias
      rw [haliases, List.mem_flatMap] at hmem
      obtain ⟨bk, hbk, ha⟩ := hmem
      obtain ⟨hx, -, hid, -⟩ := mem_bucketAliases.mp ha
      rw [Option.map_some, hid, ← hres, hm.bucketOf?_of_mem (Array.mem_toList_iff.mp hbk) hx]
    | none =>
      -- a member that is not its bucket's base would have an alias
      refine (hm.bucketOf?_eq_none fun bk hbk hx => ?_).symm
      have ha : (⟨x, bk.id, bk.base, 0⟩ : BakedAlias) ∈ G.aliases := by
        rw [haliases, List.mem_flatMap]
        exact ⟨bk, Array.mem_toList_iff.mpr hbk,
          mem_bucketAliases.mpr ⟨hx, (hnobase bk hbk).symm, rfl, rfl, rfl⟩⟩
      simpa using List.find?_eq_none.mp halias _ ha

end BakedGraph

open BakedGraph

/-- **The baked graph of every successful bake mirrors its plans.** Its buckets are the memory
plan's, in order. Its aliases are the non-base members of the buckets, one record each. Its
queues are the classes with live passes, in class order. Each queue carries the plan's frames
and the schedule's passes of its class, in queue order, each at its index as `Mirrors` says.
And a resource is found in the bucket the plan assigns it. -/
theorem bake_emits_plans {bytes : Bytes} {o : BakeOptions} {b : Bake}
    (h : Returns (bake bytes o) b) :
    b.baked.buckets = b.memory.buckets.toList.map (fun bk =>
      ⟨bk.id, bk.base, bk.desc, bk.persistent, bk.members.length, bk.initial⟩) ∧
    (b.baked.aliases.map (·.resource)).Nodup ∧
    (∀ a, a ∈ b.baked.aliases ↔ ∃ bk ∈ b.memory.buckets, a.resource ∈ bk.resources ∧
      a.resource ≠ bk.base ∧ a.bucket = bk.id ∧ a.base = bk.base ∧ a.offset = 0) ∧
    b.baked.queues.map (·.queue) =
      QueueClass.all.filter (fun q => !(b.schedule.queues.get q).isEmpty) ∧
    (∀ Q ∈ b.baked.queues, Q.frames = b.sync.frames.get Q.queue ∧
      Q.passes.length = (b.schedule.queues.get Q.queue).length ∧
      ∀ i p bp, (b.schedule.queues.get Q.queue)[i]? = some p → Q.passes[i]? = some bp →
        Mirrors b.registry b.schedule b.sync b.memory Q.queue i p bp) ∧
    ∀ x, b.baked.bucketOf? x = b.memory.bucketOf? x := by
  obtain ⟨-, -, hsch, -, -, hemit⟩ := bake_returns h
  have hs := Schedule.build_placement hsch
  have hm := bake_layout h
  obtain ⟨hbuckets, haliases⟩ := emit_buckets hemit
  refine ⟨hbuckets, haliases ▸ nodup_aliases hm, fun a => ?_, emit_classes hemit,
    fun Q hQ => ?_, bucketOf?_emit hm hemit⟩
  · rw [haliases, List.mem_flatMap]
    simp only [mem_bucketAliases, Array.mem_toList_iff]
  · obtain ⟨hframes, hpasses⟩ := emit_queue_of_mem hemit hQ
    refine ⟨hframes, hpasses.length_eq.symm, fun i p bp hp hbp => ?_⟩
    -- the baked pass at index `i` is the schedule's pass there, baked
    obtain ⟨hi, rfl⟩ := List.getElem?_eq_some_iff.mp hp
    obtain ⟨hi', rfl⟩ := List.getElem?_eq_some_iff.mp hbp
    exact bakePass_mirrors hs hp (hpasses.get hi hi')

/-- In the bake of `twoReadsStream` the two read buffers share one bucket, so the baked graph
has an alias for the second, and it mirrors the plans. -/
theorem twoReads_emitsPlans : ∃ b, Returns (bake twoReadsStream {}) b ∧
    b.memory.buckets.map (·.resources) = #[[.buffer 0, .buffer 1]] ∧
    b.baked.buckets = b.memory.buckets.toList.map (fun bk =>
      ⟨bk.id, bk.base, bk.desc, bk.persistent, bk.members.length, bk.initial⟩) ∧
    (b.baked.aliases.map (·.resource)).Nodup ∧
    (∀ a, a ∈ b.baked.aliases ↔ ∃ bk ∈ b.memory.buckets, a.resource ∈ bk.resources ∧
      a.resource ≠ bk.base ∧ a.bucket = bk.id ∧ a.base = bk.base ∧ a.offset = 0) ∧
    b.baked.queues.map (·.queue) =
      QueueClass.all.filter (fun q => !(b.schedule.queues.get q).isEmpty) ∧
    (∀ Q ∈ b.baked.queues, Q.frames = b.sync.frames.get Q.queue ∧
      Q.passes.length = (b.schedule.queues.get Q.queue).length ∧
      ∀ i p bp, (b.schedule.queues.get Q.queue)[i]? = some p → Q.passes[i]? = some bp →
        Mirrors b.registry b.schedule b.sync b.memory Q.queue i p bp) ∧
    ∀ x, b.baked.bucketOf? x = b.memory.bucketOf? x := by
  obtain ⟨b, hb, hres, -, -, -⟩ := twoReads_bake
  exact ⟨b, hb, hres, bake_emits_plans hb⟩

end RenderGraph
