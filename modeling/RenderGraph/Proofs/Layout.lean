import RenderGraph.Proofs.Groups
import RenderGraph.Proofs.Usage
/-!
# The layout of a memory plan

`MemoryPlan.build` keeps the chains in use, sorts them and places them one by one into the
first bucket that takes them. This module proves what the plan of every successful bake looks
like (`bake_layout`, `bake_buckets_hold_members`):

* every registered resource is a member of exactly one bucket or listed as unused, never both,
  and the assignment names the bucket of each member, buckets being numbered by position;
* a bucket's members are whole chains one after the other, each in chain order with its base
  first, and the bucket's base is the first chain's base;
* the unused resources are exactly the members of transient chains, other than the present
  image's, that no live pass touches;
* the recorded ranges are those of `Usage.collect`;
* a bucket's memory holds every member and has the size of the largest.

The placement carries one invariant (`Placed`), indexed by the chains placed so far, through
the fold (`placeGroup_placed`); what each chain brings is `GroupLaws`.
-/

namespace RenderGraph

open Logged

/-- The resources of a bucket's members, in order. -/
def Bucket.resources (b : Bucket) : List Res := b.members.map (·.resource)

/-- A chain's lifetime is its base's. -/
theorem Registry.Ranked.lifetime_baseOf {r : Registry} (h : r.Ranked) (res : Res) :
    r.lifetime (r.baseOf res) = r.lifetime res := by
  unfold Registry.lifetime
  rw [h.baseOf_baseOf]

namespace MemoryPlan

open BucketDesc

variable {r : Registry} {s : Schedule} {sync : SyncPlan} {o : BakeOptions} {u : Usage}

/-! ### Folds over a prefix -/

/-- A logged fold with an invariant of the part of the list folded so far. -/
theorem Ensures.foldlM_prefix {α β : Type} {xs : List α} {f : β → α → Logged β}
    {I : List α → β → Prop} {init : β} (hinit : I [] init)
    (hstep : ∀ pre x acc, pre ++ [x] <+: xs → I pre acc → Ensures (f acc x) (I (pre ++ [x]))) :
    Ensures (xs.foldlM f init) (I xs) := by
  induction xs generalizing init I with
  | nil => exact Ensures.pure hinit
  | cons x rest ih =>
    rw [List.foldlM_cons]
    refine Ensures.bind (hstep [] x init (by simp) hinit) fun acc hacc => ?_
    exact ih (I := fun pre => I (x :: pre)) hacc
      fun pre y acc' hp h => hstep (x :: pre) y acc' ((List.prefix_cons_inj x).mpr hp) h

/-! ### Association lists with distinct keys -/

section Keys

variable {α : Type} {t : List (Res × α)}

theorem eq_of_mem_of_nodup (hnd : (t.map Prod.fst).Nodup) {x : Res} {a b : α} (ha : (x, a) ∈ t)
    (hb : (x, b) ∈ t) : a = b :=
  congrArg Prod.snd (List.inj_on_of_nodup_map hnd ha hb rfl)

theorem find?_eq_some_iff_mem (hnd : (t.map Prod.fst).Nodup) {x : Res} {a : α} :
    find? t x = some a ↔ (x, a) ∈ t := by
  constructor
  · intro h
    obtain ⟨y, hy, rfl⟩ := Option.map_eq_some_iff.mp h
    have hyx : y.1 = x := by simpa using List.find?_some hy
    rw [← hyx]
    exact List.mem_of_find?_eq_some hy
  · intro h
    have hsome : (t.find? (·.1 == x)).isSome := List.find?_isSome.mpr ⟨_, h, by simp⟩
    obtain ⟨y, hy⟩ := Option.isSome_iff_exists.mp hsome
    have hyx : y.1 = x := by simpa using List.find?_some hy
    have hmem := List.mem_of_find?_eq_some hy
    rw [find?, hy, Option.map_some, eq_of_mem_of_nodup hnd (hyx ▸ hmem : (x, y.2) ∈ t) h]

end Keys

/-! ### Placing chains -/

/-- The members a placed chain brings are its resources. -/
theorem resources_members (g : Group) :
    (g.members.map fun m => Member.mk m (find? u.liveness m)).map (·.resource) = g.members := by
  simp [Function.comp_def]

/-- Two descriptions that may share memory merge into one that holds the members of both and is
as large as one of them. -/
theorem DescLaws.merge {L L' : List Res} {D d : BucketDesc} (hD : DescLaws r L D)
    (hd : DescLaws r L' d) (hc : D.compatible d = true) : DescLaws r (L ++ L') (D.merge d) := by
  obtain ⟨hholds, x, hx, dx, hdx, hfx⟩ := hD
  obtain ⟨hholds', y, hy, dy, hdy, hfy⟩ := hd
  refine ⟨fun z hz => ?_, ?_⟩
  · rcases List.mem_append.mp hz with hz | hz
    · obtain ⟨dz, hdz, hz⟩ := hholds z hz
      exact ⟨dz, hdz, hz.merge_left hc⟩
    · obtain ⟨dz, hdz, hz⟩ := hholds' z hz
      exact ⟨dz, hdz, hz.merge_right hc⟩
  · rcases Fills.merge hfx hfy hc with hf | hf
    · exact ⟨x, List.mem_append_left _ hx, dx, hdx, hf⟩
    · exact ⟨y, List.mem_append_right _ hy, dy, hdy, hf⟩

/-- What placement keeps of the buckets `B` and the assignment `A` made from the chains `Gs`
placed so far: buckets are numbered by position, the assignment lists the members of the placed
chains in order and pairs each with its bucket, a bucket's members are whole chains with distinct
bases after one another and its base is the first one's, its memory holds every member and has
the size of one, a chain that needs memory of its own has a persistent bucket to itself, and no
bucket has a first state yet. -/
structure Placed (r : Registry) (Gs : List Group) (B : Array Bucket) (A : List (Res × Nat)) :
    Prop where
  id_eq : ∀ i (h : i < B.size), B[i].id = i
  keys : A.map Prod.fst = Gs.flatMap (·.members)
  assigned : ∀ x i, (x, i) ∈ A ↔ ∃ h : i < B.size, x ∈ B[i].resources
  chains : ∀ b ∈ B, ∃ cs : List Group, cs ≠ [] ∧ (∀ c ∈ cs, c ∈ Gs) ∧
    (cs.map (·.base)).Nodup ∧ b.resources = cs.flatMap (·.members) ∧
    some b.base = cs.head?.map (·.base) ∧
    ∀ c ∈ cs, c.dedicated = true → cs = [c] ∧ b.persistent = true
  desc : ∀ b ∈ B, DescLaws r b.resources b.desc
  initial : ∀ b ∈ B, b.initial = {}

theorem placed_nil : Placed r [] #[] [] where
  id_eq i h := absurd h (Nat.not_lt_zero i)
  keys := rfl
  assigned x i := by simp
  chains := by simp
  desc := by simp
  initial := by simp

section Step

variable {Gs : List Group} {g : Group} {B : Array Bucket} {A : List (Res × Nat)}
  {ms : List Member}

theorem keys_snoc (h : Placed r Gs B A) (i : Nat) :
    (A ++ g.members.map fun m => (m, i)).map Prod.fst = (Gs ++ [g]).flatMap (·.members) := by
  simp [h.keys, Function.comp_def]

/-- A chain that opens a new bucket. -/
theorem Placed.push (h : Placed r Gs B A) (hg : DescLaws r g.members g.desc)
    (hms : ms.map (·.resource) = g.members) :
    Placed r (Gs ++ [g]) (B.push ⟨B.size, g.base, g.desc, g.dedicated, ms, {}⟩)
      (A ++ g.members.map fun m => (m, B.size)) where
  id_eq i hi := by
    rw [Array.getElem_push]
    split
    · exact h.id_eq i _
    · rw [Array.size_push] at hi
      dsimp only
      omega
  keys := keys_snoc h _
  assigned x i := by
    rw [List.mem_append, h.assigned, List.mem_map]
    constructor
    · rintro (⟨hi, hx⟩ | ⟨y, hy, hxy⟩)
      · refine ⟨by rw [Array.size_push]; omega, ?_⟩
        rwa [Array.getElem_push_lt hi]
      · obtain ⟨rfl, rfl⟩ := Prod.mk.inj hxy
        refine ⟨by simp, ?_⟩
        rwa [Array.getElem_push_eq, Bucket.resources, hms]
    · rintro ⟨hi, hx⟩
      rw [Array.getElem_push] at hx
      split at hx
      · exact .inl ⟨_, hx⟩
      · have hi : i = B.size := by rw [Array.size_push] at hi; omega
        subst hi
        rw [Bucket.resources, hms] at hx
        exact .inr ⟨x, hx, rfl⟩
  chains b hb := by
    rcases Array.mem_push.mp hb with hb | rfl
    · obtain ⟨cs, hne, hmem, hnd, hres, hbase, hded⟩ := h.chains b hb
      exact ⟨cs, hne, fun c hc => List.mem_append_left _ (hmem c hc), hnd, hres, hbase, hded⟩
    · refine ⟨[g], List.cons_ne_nil _ _, by simp, by simp, ?_, rfl, fun c hc hcd => ?_⟩
      · simp [Bucket.resources, hms]
      · rw [List.mem_singleton.mp hc] at hcd ⊢
        exact ⟨rfl, hcd⟩
  desc b hb := by
    rcases Array.mem_push.mp hb with hb | rfl
    · exact h.desc b hb
    · rw [Bucket.resources, hms]
      exact hg
  initial b hb := by
    rcases Array.mem_push.mp hb with hb | rfl
    · exact h.initial b hb
    · rfl

/-- A bucket that a chain joins holds its old members and then the chain's. -/
theorem resources_join (b : Bucket) (hms : ms.map (·.resource) = g.members) {b' : Bucket}
    (hb : b'.members = b.members ++ ms) : b'.resources = b.resources ++ g.members := by
  simp [Bucket.resources, hb, ← hms]

/-- A chain that joins bucket `idx`, which may share its memory. -/
theorem Placed.join (h : Placed r Gs B A) (hg : DescLaws r g.members g.desc)
    (hfresh : ∀ c ∈ Gs, c.base ≠ g.base) (hms : ms.map (·.resource) = g.members) {idx : Nat}
    (hlt : idx < B.size) (hc : B[idx].desc.compatible g.desc = true)
    (hgd : g.dedicated = false) (hpers : B[idx].persistent = false) :
    Placed r (Gs ++ [g])
      (B.setIfInBounds idx ⟨B[idx].id, B[idx].base, B[idx].desc.merge g.desc, B[idx].persistent,
        B[idx].members ++ ms, B[idx].initial⟩)
      (A ++ g.members.map fun m => (m, B[idx].id)) where
  id_eq i hi := by
    have hi' : i < B.size := by simpa using hi
    rw [Array.getElem_setIfInBounds hi']
    split
    · rename_i hidx
      subst hidx
      exact h.id_eq idx hlt
    · exact h.id_eq i hi'
  keys := keys_snoc h _
  assigned x i := by
    rw [List.mem_append, h.assigned, List.mem_map, h.id_eq idx hlt]
    constructor
    · rintro (⟨hi, hx⟩ | ⟨y, hy, hxy⟩)
      · refine ⟨by simpa using hi, ?_⟩
        rw [Array.getElem_setIfInBounds hi]
        split
        · rename_i hidx
          subst hidx
          rw [resources_join B[idx] hms rfl]
          exact List.mem_append_left _ hx
        · exact hx
      · obtain ⟨rfl, rfl⟩ := Prod.mk.inj hxy
        refine ⟨by simpa using hlt, ?_⟩
        rw [Array.getElem_setIfInBounds hlt, if_pos rfl, resources_join B[idx] hms rfl]
        exact List.mem_append_right _ hy
    · rintro ⟨hi, hx⟩
      have hi' : i < B.size := by simpa using hi
      rw [Array.getElem_setIfInBounds hi'] at hx
      split at hx
      · rename_i hidx
        subst hidx
        rw [resources_join B[idx] hms rfl] at hx
        rcases List.mem_append.mp hx with hx | hx
        · exact .inl ⟨hlt, hx⟩
        · exact .inr ⟨x, hx, rfl⟩
      · exact .inl ⟨hi', hx⟩
  chains b hb := by
    rcases Array.mem_or_eq_of_mem_setIfInBounds hb with hb | rfl
    · obtain ⟨cs, hne, hmem, hnd, hcs, hbase, hded⟩ := h.chains b hb
      exact ⟨cs, hne, fun c hc => List.mem_append_left _ (hmem c hc), hnd, hcs, hbase, hded⟩
    -- the joined bucket holds its chains and then the new one, none of them dedicated
    obtain ⟨cs, hne, hmem, hnd, hcs, hbase, hded⟩ := h.chains _ (Array.getElem_mem hlt)
    refine ⟨cs ++ [g], by simp, fun c hc => ?_, ?_, ?_, ?_, fun c hc hcd => ?_⟩
    · rcases List.mem_append.mp hc with hc | hc
      · exact List.mem_append_left _ (hmem c hc)
      · exact List.mem_append_right _ hc
    · rw [List.map_append, List.nodup_append]
      refine ⟨hnd, List.nodup_singleton _, fun a ha b hb => ?_⟩
      obtain ⟨c, hc, rfl⟩ := List.mem_map.mp ha
      rw [List.mem_singleton.mp hb]
      exact hfresh c (hmem c hc)
    · rw [resources_join B[idx] hms rfl, hcs, List.flatMap_append, List.flatMap_singleton]
    · obtain ⟨c, cs', rfl⟩ := List.exists_cons_of_ne_nil hne
      exact hbase
    · rcases List.mem_append.mp hc with hc | hc
      · exact absurd (hded c hc hcd).2 (by rw [hpers]; decide)
      · rw [List.mem_singleton.mp hc, hgd] at hcd
        cases hcd
  desc b hb := by
    rcases Array.mem_or_eq_of_mem_setIfInBounds hb with hb | rfl
    · exact h.desc b hb
    · rw [resources_join B[idx] hms rfl]
      exact (h.desc _ (Array.getElem_mem hlt)).merge hg hc
  initial b hb := by
    rcases Array.mem_or_eq_of_mem_setIfInBounds hb with hb | rfl
    · exact h.initial b hb
    · exact (h.initial _ (Array.getElem_mem hlt) :)

end Step

/-- Placing a chain whose base no placed chain has keeps the buckets as `Placed` says. -/
theorem placeGroup_placed {Gs : List Group} {g : Group} {acc : Array Bucket × List (Res × Nat)}
    (h : Placed r Gs acc.1 acc.2) (hg : DescLaws r g.members g.desc)
    (hfresh : ∀ c ∈ Gs, c.base ≠ g.base) :
    Ensures (placeGroup s sync o u acc g) fun acc => Placed r (Gs ++ [g]) acc.1 acc.2 := by
  obtain ⟨B, A⟩ := acc
  have hms := resources_members (u := u) g
  unfold placeGroup
  dsimp only
  split
  · -- the chain joins the first bucket that fits it
    rename_i idx hidx
    split at hidx
    · cases hidx
    rename_i hshare
    simp only [Bool.or_eq_true, not_or] at hshare
    obtain ⟨hlt, hfits, -⟩ := Array.findIdx?_eq_some_iff_getElem.mp hidx
    simp only [Bool.and_eq_true, Bool.not_eq_true'] at hfits
    rw [Array.getD_eq_getD_getElem?, Array.getElem?_eq_getElem hlt, Option.getD_some]
    refine Ensures.log_bind (Ensures.pure ?_)
    rw [Array.set!_eq_setIfInBounds]
    exact h.join hg hfresh hms hlt hfits.1.2 (by simpa using hshare.1) hfits.1.1
  · -- the chain opens a bucket of its own
    exact Ensures.log_bind (Ensures.pure (h.push hg hms))

/-- Placing chains with distinct bases, each described by its laws, one after the other. -/
theorem foldlM_placeGroup_placed {gs : List Group} (hnd : (gs.map (·.base)).Nodup)
    (hdesc : ∀ g ∈ gs, DescLaws r g.members g.desc) :
    Ensures (gs.foldlM (placeGroup s sync o u) (#[], [])) fun acc => Placed r gs acc.1 acc.2 := by
  refine Ensures.foldlM_prefix
    (I := fun pre (acc : Array Bucket × List (Res × Nat)) => Placed r pre acc.1 acc.2) placed_nil ?_
  intro pre g acc hpre h
  -- the chains placed before have other bases, as the bases of a prefix are distinct
  have hnd' : ((pre ++ [g]).map (·.base)).Nodup := hnd.sublist (hpre.sublist.map _)
  rw [List.map_append, List.nodup_append] at hnd'
  refine placeGroup_placed h (hdesc g (hpre.subset (by simp))) fun c hc => ?_
  exact hnd'.2.2 _ (List.mem_map_of_mem hc) _ (List.mem_singleton_self _)

/-! ### Which chains get memory -/

/-- Whether a chain gets memory: it needs memory of its own, or a live pass touches a member. -/
def inUse (u : Usage) (g : Group) : Bool :=
  g.dedicated || g.members.any fun m => (find? u.liveness m).isSome

/-- One turn of the loop that keeps the chains in use and gathers the members of the others. -/
def splitStep (u : Usage) (acc : Array Group × List Res) (g : Group) : Array Group × List Res :=
  if inUse u g then (acc.1.push g, acc.2) else (acc.1, acc.2 ++ g.members)

theorem foldl_splitStep (gs : List Group) (acc : Array Group × List Res) :
    (gs.foldl (splitStep u) acc).1.toList = acc.1.toList ++ gs.filter (inUse u) ∧
      (gs.foldl (splitStep u) acc).2 =
        acc.2 ++ (gs.filter fun g => !inUse u g).flatMap (·.members) := by
  induction gs generalizing acc with
  | nil => simp
  | cons g gs ih =>
    rw [List.foldl_cons, (ih _).1, (ih _).2]
    unfold splitStep
    by_cases hg : inUse u g = true <;> simp [hg]

/-- The plan of a successful `build`: the chains in use, sorted, are placed as `Placed` says, each
bucket then gets its first state, the ranges are those of the usage and the members of the other
chains are unused. -/
theorem build_placed (hr : r.Ranked) (hwf : r.Wf) (hc : r.Consistent) {m : MemoryPlan}
    (h : Returns (build r s sync o) m) :
    ∃ groups, GroupLaws r (r.presentImage.map fun i => r.baseOf (.image i)) groups ∧
      ∃ B, Placed r ((groups.filter (inUse (Usage.collect r s))).mergeSort groupLe) B m.assignment ∧
        m.buckets = B.map (fun b => { b with initial := initialOf r (Usage.collect r s) b }) ∧
        m.liveness = (Usage.collect r s).liveness ∧
        m.unused = (groups.filter fun g => !inUse (Usage.collect r s) g).flatMap (·.members) := by
  unfold build at h
  dsimp only at h
  obtain ⟨groups, hgroups, h⟩ := h.bind
  have hlaws := collectGroups_laws hr hwf hc (BakeM.eq_of_returns_ofConfig hgroups)
  obtain ⟨acc, hloop, h⟩ := h.bind
  -- the loop over the chains is the fold of `splitStep`
  have hacc : acc = groups.foldl (splitStep (Usage.collect r s)) (#[], []) := by
    refine hloop.eq_of_yields (Yields.run_forIn fun g acc => ?_)
    unfold splitStep inUse
    by_cases hg : (g.dedicated || g.members.any fun m =>
        (find? (Usage.collect r s).liveness m).isSome) = true
    · rw [if_pos hg, if_pos hg]
      exact Yields.run_pure _
    · rw [if_neg hg, if_neg hg]
      exact Yields.run_bind (Yields.run_lift (Yields.log _ _ _)) (Yields.run_pure _)
  have hused : acc.1.toList = groups.filter (inUse (Usage.collect r s)) := by
    rw [hacc, (foldl_splitStep _ _).1]
    rfl
  obtain ⟨x, hx, h⟩ := h.bind
  rw [hused] at hx
  obtain ⟨j, hj⟩ := Returns.lift hx
  -- the chains in use have distinct bases and are described by their laws
  have hperm := List.mergeSort_perm (groups.filter (inUse (Usage.collect r s))) groupLe
  have hnd := (hperm.map (·.base)).nodup_iff.mpr
    (hlaws.bases_nodup.sublist (List.filter_sublist.map _))
  have hplaced : Placed r ((groups.filter (inUse (Usage.collect r s))).mergeSort groupLe) x.1 x.2 := by
    rw [← hj]
    exact foldlM_placeGroup_placed hnd
      (fun g hg => hlaws.desc g (List.mem_filter.mp (hperm.subset hg)).1) j
  obtain ⟨B, A⟩ := x
  obtain rfl := h.eq_of_yields (Yields.run_bind (Yields.run_lift (Yields.log _ _ _)) (Yields.run_pure _))
  refine ⟨groups, hlaws, B, hplaced, rfl, rfl, ?_⟩
  rw [hacc, (foldl_splitStep _ _).2]
  rfl

/-! ### Chains -/

/-- `a` comes before `b` in their chain: by link order, then by id. -/
def LinkBefore (r : Registry) (a b : Res) : Prop :=
  r.chainOrder a < r.chainOrder b ∨ (r.chainOrder a = r.chainOrder b ∧ a.id < b.id)

/-- The members of a chain of a consistent registry have the kind of its base, so chain order
compares their ids. -/
theorem IsChain.linkBefore (hc : r.Consistent) {base : Res} {L : List Res}
    (h : IsChain r base L) : L.Pairwise (LinkBefore r) := by
  refine h.sorted.imp_of_mem fun {a b} ha hb hab => ?_
  obtain ⟨hca, hba⟩ := (h.mem_iff a).mp ha
  obtain ⟨hcb, hbb⟩ := (h.mem_iff b).mp hb
  have hka : a.kind = base.kind := hba ▸ (hc.fits a hca).kind_eq
  have hkb : b.kind = base.kind := hbb ▸ (hc.fits b hcb).kind_eq
  rcases hab with hlt | ⟨heq, hlt⟩
  · exact .inl hlt
  · refine .inr ⟨heq, ?_⟩
    rw [Res.lt_iff_key] at hlt
    simp only [Res.key, hka, hkb] at hlt
    omega

theorem IsChain.nodup {base : Res} {L : List Res} (h : IsChain r base L) : L.Nodup := by
  refine h.sorted.imp fun {a b} hab heq => ?_
  subst heq
  rcases hab with hlt | ⟨-, hlt⟩
  · exact Nat.lt_irrefl _ hlt
  · rw [Res.lt_iff_key] at hlt
    omega

/-- The members of chains with distinct bases are distinct. -/
theorem nodup_flatMap_members {gs : List Group} (hnd : (gs.map (·.base)).Nodup)
    (hch : ∀ g ∈ gs, IsChain r g.base g.members) : (gs.flatMap (·.members)).Nodup := by
  refine List.nodup_flatMap.mpr ⟨fun g hg => (hch g hg).nodup, ?_⟩
  refine (List.pairwise_map.mp hnd).imp_of_mem fun {a b} ha hb hne x hxa hxb => hne ?_
  rw [← ((hch a ha).mem_iff x).mp hxa |>.2, ← ((hch b hb).mem_iff x).mp hxb |>.2]

/-- A resource is a member of one chain only. -/
theorem GroupLaws.eq_of_mem {presentBase : Option Res} {groups : List Group}
    (h : GroupLaws r presentBase groups) {g c : Group} (hg : g ∈ groups) (hc : c ∈ groups)
    {x : Res} (hxg : x ∈ g.members) (hxc : x ∈ c.members) : g = c :=
  List.inj_on_of_nodup_map h.bases_nodup hg hc
    ((((h.chain g hg).mem_iff x).mp hxg).2.symm.trans (((h.chain c hc).mem_iff x).mp hxc).2)

/-- A resource outside the present image's chain is not the present image. -/
theorem ne_present_of_base {y : Res}
    (hp : r.presentImage.map (fun i => r.baseOf (.image i)) ≠ some (r.baseOf y)) :
    ∀ i, r.presentImage = some i → s.order ≠ [] → y ≠ .image i := by
  rintro i hi - rfl
  rw [hi] at hp
  exact hp rfl

/-! ### What placement keeps, read off the plan -/

section Read

variable {Gs : List Group} {B : Array Bucket} {A : List (Res × Nat)} {x : Res} {i : Nat}

theorem Placed.exists_chain (h : Placed r Gs B A) {b : Bucket} (hb : b ∈ B)
    (hx : x ∈ b.resources) : ∃ c ∈ Gs, x ∈ c.members := by
  obtain ⟨cs, -, hmem, -, hres, -, -⟩ := h.chains b hb
  rw [hres, List.mem_flatMap] at hx
  obtain ⟨c, hc, hx⟩ := hx
  exact ⟨c, hmem c hc, hx⟩

/-- Every member of a placed chain is in a bucket. -/
theorem Placed.exists_bucket (h : Placed r Gs B A) (hx : x ∈ Gs.flatMap (·.members)) :
    ∃ i : Nat, ∃ b : Bucket, B[i]? = some b ∧ x ∈ b.resources := by
  rw [← h.keys, List.mem_map] at hx
  obtain ⟨⟨y, i⟩, hy, rfl⟩ := hx
  obtain ⟨hi, hx⟩ := (h.assigned y i).mp hy
  exact ⟨i, B[i], Array.getElem?_eq_getElem hi, hx⟩

/-- The resources in the buckets are the members of the placed chains. -/
theorem Placed.mem_iff (h : Placed r Gs B A) :
    (∃ b ∈ B, x ∈ b.resources) ↔ x ∈ Gs.flatMap (·.members) := by
  constructor
  · rintro ⟨b, hb, hx⟩
    obtain ⟨c, hc, hxc⟩ := h.exists_chain hb hx
    exact List.mem_flatMap.mpr ⟨c, hc, hxc⟩
  · intro hx
    obtain ⟨i, b, hb, hxb⟩ := h.exists_bucket hx
    exact ⟨b, Array.mem_of_getElem? hb, hxb⟩

/-- With distinct members, the assignment names the bucket each member is in. -/
theorem Placed.find?_eq_some_iff (h : Placed r Gs B A) (hnd : (Gs.flatMap (·.members)).Nodup) :
    find? A x = some i ↔ ∃ b : Bucket, B[i]? = some b ∧ x ∈ b.resources := by
  rw [find?_eq_some_iff_mem (h.keys ▸ hnd), h.assigned]
  constructor
  · rintro ⟨hi, hx⟩
    exact ⟨B[i], Array.getElem?_eq_getElem hi, hx⟩
  · rintro ⟨b, hb, hx⟩
    obtain ⟨hi, rfl⟩ := Array.getElem?_eq_some_iff.mp hb
    exact ⟨hi, hx⟩

end Read

/-! ### The layout -/

/-- What a memory plan `m` of a schedule `s` over a registry `r` looks like. -/
structure LayoutLaws (r : Registry) (s : Schedule) (m : MemoryPlan) : Prop where
  /-- Every registered resource is in a bucket or unused. -/
  placed_or_unused : ∀ x, r.contains x = true → (∃ b ∈ m.buckets, x ∈ b.resources) ∨ x ∈ m.unused
  placed_registered : ∀ b ∈ m.buckets, ∀ x ∈ b.resources, r.contains x = true
  unused_not_placed : ∀ x ∈ m.unused, ∀ b ∈ m.buckets, x ∉ b.resources
  /-- Buckets are numbered by position. -/
  id_eq : ∀ (i : Nat) (b : Bucket), m.buckets[i]? = some b → b.id = i
  /-- A resource is in one bucket at most, and its assignment names that bucket. -/
  bucket_unique : ∀ x (i j : Nat) (b b' : Bucket), m.buckets[i]? = some b → m.buckets[j]? = some b' →
    x ∈ b.resources → x ∈ b'.resources → i = j
  bucketOf_iff : ∀ x (i : Nat), m.bucketOf? x = some i ↔
    ∃ b : Bucket, m.buckets[i]? = some b ∧ x ∈ b.resources
  /-- A bucket's members are whole chains with distinct bases one after the other, each in link
  order and then by id with its base first; the bucket's base is the first chain's. -/
  chains : ∀ b ∈ m.buckets, ∃ cs : List (Res × List Res), cs ≠ [] ∧ (cs.map Prod.fst).Nodup ∧
    b.resources = cs.flatMap Prod.snd ∧ some b.base = cs.head?.map Prod.fst ∧
    ∀ c ∈ cs, IsChain r c.1 c.2 ∧ c.2.Pairwise (LinkBefore r)
  /-- The unused resources are the members of the transient chains, other than the present
  image's, that no live pass touches. -/
  unused_iff : ∀ x, x ∈ m.unused ↔ r.contains x = true ∧ r.lifetime x ≠ .persistent ∧
    r.presentImage.map (fun i => r.baseOf (.image i)) ≠ some (r.baseOf x) ∧
    ∀ y, r.contains y = true → r.baseOf y = r.baseOf x → ∀ pos, ¬TouchedAt r s.order y pos
  /-- A resource's range runs from the first to the last position of a live pass touching it. -/
  liveness : ∀ x, (∀ i, r.presentImage = some i → s.order ≠ [] → x ≠ .image i) →
    (m.livenessOf? x = none ↔ ∀ pos, ¬TouchedAt r s.order x pos) ∧
    ∀ l, m.livenessOf? x = some l →
      IsFirst (TouchedAt r s.order x) l.first ∧ IsLast (TouchedAt r s.order x) l.last
  /-- The present image stays live to the last position, and from the first if it is untouched. -/
  liveness_present : ∀ i n, r.presentImage = some i → s.order.length = n + 1 →
    ∃ l, m.livenessOf? (.image i) = some l ∧ l.last = n ∧
      (IsFirst (TouchedAt r s.order (.image i)) l.first ∨
        (l.first = 0 ∧ ∀ pos, ¬TouchedAt r s.order (.image i) pos))

/-- The members of the chains not in use are the registered resources of transient chains, other
than the present image's, that no live pass touches. -/
theorem mem_unused_iff (hr : r.Ranked) {groups : List Group}
    (hlaws : GroupLaws r (r.presentImage.map fun i => r.baseOf (.image i)) groups) {x : Res} :
    x ∈ (groups.filter fun g => !inUse (Usage.collect r s) g).flatMap (·.members) ↔
      r.contains x = true ∧ r.lifetime x ≠ .persistent ∧
      r.presentImage.map (fun i => r.baseOf (.image i)) ≠ some (r.baseOf x) ∧
      ∀ y, r.contains y = true → r.baseOf y = r.baseOf x → ∀ pos, ¬TouchedAt r s.order y pos := by
  -- a chain is not in use when it is transient, not the present image's, and untouched
  have hidle : ∀ g ∈ groups, inUse (Usage.collect r s) g = false ↔
      r.lifetime g.base ≠ .persistent ∧
      r.presentImage.map (fun i => r.baseOf (.image i)) ≠ some g.base ∧
      ∀ y ∈ g.members, ∀ pos, ¬TouchedAt r s.order y pos := by
    intro g hg
    have hnone : ∀ y ∈ g.members,
        r.presentImage.map (fun i => r.baseOf (.image i)) ≠ some g.base →
        (find? (Usage.collect r s).liveness y = none ↔ ∀ pos, ¬TouchedAt r s.order y pos) := by
      intro y hy hpb
      refine (find?_liveness_collect (ne_present_of_base ?_)).1
      rwa [(((hlaws.chain g hg).mem_iff y).mp hy).2]
    simp only [inUse, hlaws.dedicated_eq g hg, Bool.or_eq_false_iff, beq_eq_false_iff_ne,
      List.any_eq_false, Bool.not_eq_true, Option.isSome_eq_false_iff, Option.isNone_iff_eq_none]
    constructor
    · rintro ⟨⟨hlt, hpb⟩, hall⟩
      exact ⟨hlt, Ne.symm hpb, fun y hy => (hnone y hy (Ne.symm hpb)).mp (hall y hy)⟩
    · rintro ⟨hlt, hpb, hall⟩
      exact ⟨⟨hlt, Ne.symm hpb⟩, fun y hy => (hnone y hy hpb).mpr (hall y hy)⟩
  simp only [List.mem_flatMap, List.mem_filter, Bool.not_eq_true']
  constructor
  · rintro ⟨g, ⟨hg, hin⟩, hx⟩
    obtain ⟨hlt, hpb, hun⟩ := (hidle g hg).mp hin
    obtain ⟨hcx, hbx⟩ := ((hlaws.chain g hg).mem_iff x).mp hx
    refine ⟨hcx, ?_, by rwa [hbx], fun y hy hyb => hun y ?_⟩
    · rwa [← hr.lifetime_baseOf, hbx]
    · exact ((hlaws.chain g hg).mem_iff y).mpr ⟨hy, hyb.trans hbx⟩
  · rintro ⟨hcx, hlt, hpb, hun⟩
    obtain ⟨g, hg, hgb⟩ := hlaws.covers x hcx
    refine ⟨g, ⟨hg, (hidle g hg).mpr ⟨?_, by rwa [hgb], fun y hy => ?_⟩⟩,
      ((hlaws.chain g hg).mem_iff x).mpr ⟨hcx, hgb.symm⟩⟩
    · rwa [hgb, hr.lifetime_baseOf]
    · obtain ⟨hcy, hyb⟩ := ((hlaws.chain g hg).mem_iff y).mp hy
      exact hun y hcy (hyb.trans hgb)

/-- Every memory plan that `build` returns over a registry as ingestion leaves it is laid out as
`LayoutLaws` says. -/
theorem build_layout (hr : r.Ranked) (hwf : r.Wf) (hc : r.Consistent) {m : MemoryPlan}
    (h : Returns (build r s sync o) m) : LayoutLaws r s m := by
  obtain ⟨groups, hlaws, B, hB, hbuckets, hlive, hunused⟩ := build_placed hr hwf hc h
  -- the chains in use, in placement order, have distinct bases and so distinct members
  have hordered : ∀ g, g ∈ (groups.filter (inUse (Usage.collect r s))).mergeSort groupLe ↔
      g ∈ groups ∧ inUse (Usage.collect r s) g = true :=
    fun g => List.mem_mergeSort.trans List.mem_filter
  have hnd := ((List.mergeSort_perm _ groupLe).map (·.base)).nodup_iff.mpr
    (hlaws.bases_nodup.sublist ((List.filter_sublist (p := inUse (Usage.collect r s))).map _))
  have hmnd := nodup_flatMap_members hnd fun g hg => hlaws.chain g ((hordered g).mp hg).1
  -- a bucket of the plan is a placed bucket with its first state
  have hbucket : ∀ b ∈ m.buckets, ∃ b0 ∈ B, b.resources = b0.resources ∧ b.base = b0.base := by
    intro b hb
    rw [hbuckets] at hb
    obtain ⟨b0, hb0, rfl⟩ := Array.mem_map.mp hb
    exact ⟨b0, hb0, rfl, rfl⟩
  -- a resource is in a bucket of the plan exactly when its chain is in use
  have hplaced : ∀ x, (∃ b ∈ m.buckets, x ∈ b.resources) ↔
      x ∈ ((groups.filter (inUse (Usage.collect r s))).mergeSort groupLe).flatMap (·.members) := by
    intro x
    rw [← hB.mem_iff]
    constructor
    · rintro ⟨b, hb, hx⟩
      obtain ⟨b0, hb0, hres, -⟩ := hbucket b hb
      exact ⟨b0, hb0, hres ▸ hx⟩
    · rintro ⟨b0, hb0, hx⟩
      rw [hbuckets]
      exact ⟨_, Array.mem_map_of_mem hb0, hx⟩
  have hget : ∀ (i : Nat) (b : Bucket), m.buckets[i]? = some b ↔
      ∃ b0, B[i]? = some b0 ∧ b = { b0 with initial := initialOf r (Usage.collect r s) b0 } := by
    intro i b
    rw [hbuckets, Array.getElem?_map, Option.map_eq_some_iff]
    exact exists_congr fun b0 => and_congr_right fun _ => eq_comm
  have hbof : ∀ x (i : Nat), m.bucketOf? x = some i ↔
      ∃ b : Bucket, m.buckets[i]? = some b ∧ x ∈ b.resources := by
    intro x i
    rw [bucketOf?, hB.find?_eq_some_iff hmnd]
    constructor
    · rintro ⟨b0, hb0, hx⟩
      exact ⟨_, (hget i _).mpr ⟨b0, hb0, rfl⟩, hx⟩
    · rintro ⟨b, hb, hx⟩
      obtain ⟨b0, hb0, rfl⟩ := (hget i b).mp hb
      exact ⟨b0, hb0, hx⟩
  refine
    { placed_or_unused := fun x hx => ?placed_or_unused
      placed_registered := fun b hb x hx => ?placed_registered
      unused_not_placed := fun x hx b hb hxb => ?unused_not_placed
      id_eq := fun i b hb => ?id_eq
      bucket_unique := fun x i j b b' hb hb' hx hx' => ?bucket_unique
      bucketOf_iff := hbof
      chains := fun b hb => ?chains
      unused_iff := fun x => ?unused_iff
      liveness := fun x hx => ?liveness
      liveness_present := fun i n hi hn => ?liveness_present }
  case placed_or_unused =>
    -- a registered resource is in its chain, placed when in use and unused otherwise
    obtain ⟨g, hg, hgb⟩ := hlaws.covers x hx
    have hxg := ((hlaws.chain g hg).mem_iff x).mpr ⟨hx, hgb.symm⟩
    cases hin : inUse (Usage.collect r s) g
    · rw [hunused]
      exact .inr (List.mem_flatMap.mpr ⟨g, List.mem_filter.mpr ⟨hg, by simp [hin]⟩, hxg⟩)
    · exact .inl ((hplaced x).mpr (List.mem_flatMap.mpr ⟨g, (hordered g).mpr ⟨hg, hin⟩, hxg⟩))
  case placed_registered =>
    obtain ⟨c, hc, hxc⟩ := List.mem_flatMap.mp ((hplaced x).mp ⟨b, hb, hx⟩)
    exact (((hlaws.chain c ((hordered c).mp hc).1).mem_iff x).mp hxc).1
  case unused_not_placed =>
    -- an unused resource's chain is not in use, and a placed one's is
    rw [hunused, List.mem_flatMap] at hx
    obtain ⟨g, hg, hxg⟩ := hx
    obtain ⟨hg, hin⟩ := List.mem_filter.mp hg
    obtain ⟨c, hc, hxc⟩ := List.mem_flatMap.mp ((hplaced x).mp ⟨b, hb, hxb⟩)
    obtain ⟨hc, hinc⟩ := (hordered c).mp hc
    obtain rfl := hlaws.eq_of_mem hg hc hxg hxc
    simp [hinc] at hin
  case id_eq =>
    obtain ⟨b0, hb0, rfl⟩ := (hget i b).mp hb
    obtain ⟨hi, rfl⟩ := Array.getElem?_eq_some_iff.mp hb0
    exact hB.id_eq i hi
  case bucket_unique =>
    have hxi := (hbof x i).mpr ⟨b, hb, hx⟩
    rw [(hbof x j).mpr ⟨b', hb', hx'⟩] at hxi
    exact (Option.some.inj hxi).symm
  case chains =>
    -- the placed bucket's chains, read as pairs of a base and its members
    obtain ⟨b0, hb0, hres, hbase⟩ := hbucket b hb
    obtain ⟨cs, hne, hmem, hndcs, hcs, hcsb, -⟩ := hB.chains b0 hb0
    refine ⟨cs.map fun c => (c.base, c.members), by simpa using hne, ?_, ?_, ?_, ?_⟩
    · simpa [Function.comp_def] using hndcs
    · rw [hres, hcs, List.flatMap_map]
    · rw [hbase, hcsb, List.head?_map, Option.map_map]
      rfl
    · intro p hp
      obtain ⟨c, hcs, rfl⟩ := List.mem_map.mp hp
      have hch := hlaws.chain c ((hordered c).mp (hmem c hcs)).1
      exact ⟨hch, hch.linkBefore hc⟩
  case unused_iff =>
    rw [hunused]
    exact mem_unused_iff hr hlaws
  case liveness =>
    rw [livenessOf?, hlive]
    exact find?_liveness_collect hx
  case liveness_present =>
    rw [livenessOf?, hlive]
    exact find?_liveness_collect_present hi hn

/-! ### Bucket memory -/

theorem describe_buffer_eq_ok {i : Nat} {d : BucketDesc} (h : describe r (.buffer i) = .ok d) :
    ∃ info, r.buffer? i = some info ∧
      d = .buffer info.desc.size info.desc.usage info.desc.memory := by
  unfold describe at h
  dsimp only at h
  split at h
  · rename_i info hinfo
    exact ⟨info, hinfo, (Except.ok.inj h).symm⟩
  · cases h

theorem describe_image_eq_ok {i : Nat} {d : BucketDesc} (h : describe r (.image i) = .ok d) :
    ∃ info, r.image? i = some info ∧ d = .image info.shape info.desc.usage := by
  unfold describe at h
  dsimp only at h
  split at h
  · rename_i info hinfo
    exact ⟨info, hinfo, (Except.ok.inj h).symm⟩
  · cases h

section Members

variable {L : List Res} {D : BucketDesc}

/-- Memory that holds a buffer is buffer memory of its class, at least its size and with all its
usage bits, and is as large as some buffer among the members. -/
theorem DescLaws.buffer (h : DescLaws r L D) {i : Nat} (hx : .buffer i ∈ L) :
    ∃ info, r.buffer? i = some info ∧ ∃ size usage, D = .buffer size usage info.desc.memory ∧
      info.desc.size ≤ size ∧ info.desc.usage ||| usage = usage ∧
      ∃ j info', Res.buffer j ∈ L ∧ r.buffer? j = some info' ∧ info'.desc.size = size := by
  obtain ⟨hholds, y, hy, dy, hdy, hfy⟩ := h
  obtain ⟨d, hd, hcov, husage⟩ := hholds _ hx
  obtain ⟨info, hinfo, rfl⟩ := describe_buffer_eq_ok hd
  cases D with
  | image sh u => exact hcov.elim
  | buffer size usage memory =>
    obtain ⟨hmemory, hsize⟩ := hcov
    refine ⟨info, hinfo, size, usage, by rw [hmemory], hsize, husage, ?_⟩
    -- the member the memory is as large as is a buffer too
    cases y with
    | buffer j =>
      obtain ⟨info', hinfo', rfl⟩ := describe_buffer_eq_ok hdy
      exact ⟨j, info', hy, hinfo', hfy⟩
    | image j =>
      obtain ⟨info', -, rfl⟩ := describe_image_eq_ok hdy
      exact hfy.elim

/-- Memory that holds an image is image memory of its shape, with all its usage bits. -/
theorem DescLaws.image (h : DescLaws r L D) {i : Nat} (hx : .image i ∈ L) :
    ∃ info, r.image? i = some info ∧ ∃ usage, D = .image info.shape usage ∧
      info.desc.usage ||| usage = usage := by
  obtain ⟨d, hd, hcov, husage⟩ := h.1 _ hx
  obtain ⟨info, hinfo, rfl⟩ := describe_image_eq_ok hd
  cases D with
  | buffer size usage memory => exact hcov.elim
  | image shape usage =>
    exact ⟨info, hinfo, usage, by rw [show shape = info.shape from hcov.symm], husage⟩

end Members

/-- Every bucket of a successful memory plan is described by its members' laws. -/
theorem build_descLaws (hr : r.Ranked) (hwf : r.Wf) (hc : r.Consistent) {m : MemoryPlan}
    (h : Returns (build r s sync o) m) : ∀ b ∈ m.buckets, DescLaws r b.resources b.desc := by
  obtain ⟨_, -, B, hB, hbuckets, -⟩ := build_placed hr hwf hc h
  intro b hb
  rw [hbuckets] at hb
  obtain ⟨b0, hb0, rfl⟩ := Array.mem_map.mp hb
  exact hB.desc b0 hb0

end MemoryPlan

open MemoryPlan

/-- The memory plan of every successful bake is laid out as `LayoutLaws` says: registered
resources are placed in exactly one bucket or unused, buckets hold whole chains in chain order,
the unused ones are the untouched transient chains, and ranges span the live passes. -/
theorem bake_layout {bytes : Bytes} {o : BakeOptions} {b : Bake} (h : Returns (bake bytes o) b) :
    LayoutLaws b.registry b.schedule b.memory := by
  obtain ⟨hreg, -, -, -, hmem, -⟩ := bake_returns h
  exact build_layout (Registry.ingest_ranked hreg) (Registry.ingest_wf hreg)
    (Registry.consistent_of_ingest hreg).1 hmem

/-- In every successful bake a bucket's memory holds each member: a buffer's bucket is buffer
memory of its class, at least its size and with all its usage bits, and is exactly as large as
one of its buffers; an image's bucket is image memory of its shape with all its usage bits. -/
theorem bake_buckets_hold_members {bytes : Bytes} {o : BakeOptions} {b : Bake}
    (h : Returns (bake bytes o) b) : ∀ bk ∈ b.memory.buckets,
      (∀ i, Res.buffer i ∈ bk.resources → ∃ info, b.registry.buffer? i = some info ∧
        ∃ size usage, bk.desc = .buffer size usage info.desc.memory ∧ info.desc.size ≤ size ∧
          info.desc.usage ||| usage = usage ∧
          ∃ j info', Res.buffer j ∈ bk.resources ∧ b.registry.buffer? j = some info' ∧
            info'.desc.size = size) ∧
      (∀ i, Res.image i ∈ bk.resources → ∃ info, b.registry.image? i = some info ∧
        ∃ usage, bk.desc = .image info.shape usage ∧ info.desc.usage ||| usage = usage) := by
  obtain ⟨hreg, -, -, -, hmem, -⟩ := bake_returns h
  intro bk hbk
  have hlaws := build_descLaws (Registry.ingest_ranked hreg) (Registry.ingest_wf hreg)
    (Registry.consistent_of_ingest hreg).1 hmem bk hbk
  exact ⟨fun i hi => hlaws.buffer hi, fun i hi => hlaws.image hi⟩

/-! ### A bake where two buffers share memory -/

/-- Four buffers: two passes read one each, and the last two form an untouched chain. -/
def twoReadsStream : Bytes :=
  let buffer (size : UInt64) (id usage : UInt32) : Stream.Record :=
    Stream.Record.ofPayload .registerBuffer
      ({ size, id, usage, memory := 0, lifetime := 0, nameLen := 0, reserved := 0 } :
        Stream.BufferPayload) []
  let reader (id res : UInt32) : Stream.Record :=
    Stream.Record.ofPayload .registerPass
      ({ id, queue := 0, program := Stream.noneId, bindless := Stream.noneId, readCount := 1,
         writeCount := 0, nameLen := 0, reserved := 0 } : Stream.PassPayload)
      (Stream.Tail.ofItems
        [({ stage := 1, access := 1, resourceKind := 0, resource := res, output := Stream.noneId,
            binding := 0, layout := 0, reserved := 0 } : Stream.InteractionPayload)])
  Stream.write Stream.inputMagic
    [Stream.Record.ofPayload .setBrief
        ({ bufferCount := 4, imageCount := 0, passCount := 2, programCount := 0,
           shaderCount := 0, samplerCount := 0, bindlessCount := 0, presentImage := Stream.noneId,
           renderWidth := 0, renderHeight := 0, renderFormat := 0, reserved := 0 } :
          Stream.BriefPayload) [],
     buffer 256 0 0x21, buffer 128 1 0x22, buffer 64 2 0x20, buffer 64 3 0x20,
     Stream.Record.ofPayload .forceAliasBuffer
        ({ base := 2, member := 3 } : Stream.ForceAliasPayload) [],
     reader 0 0, reader 1 1]

/-- The registry of `twoReadsStream`. -/
def twoReads : Registry where
  brief := ⟨4, 0, 2, 0, 0, 0, 0, none, none, ⟨0⟩⟩
  buffers := #[some ⟨"", ⟨256, 0x21, .gpuOnly⟩, .transient⟩,
    some ⟨"", ⟨128, 0x22, .gpuOnly⟩, .transient⟩, some ⟨"", ⟨64, 0x20, .gpuOnly⟩, .transient⟩,
    some ⟨"", ⟨64, 0x20, .gpuOnly⟩, .transient⟩]
  images := #[]
  shaders := #[]
  programs := #[]
  samplers := #[]
  bindless := #[]
  passes := #[⟨0, "", .graphics, none, none, [⟨.buffer 0, none, .read, 0, 1, 1, none⟩], [], []⟩,
    ⟨1, "", .graphics, none, none, [⟨.buffer 1, none, .read, 0, 1, 1, none⟩], [], []⟩]
  passSlots := #[some 0, some 1]
  bufferForest := ⟨.buffer, #[some 0, some 1, some 2, some 2], #[0, 0, 0, 1], 2⟩
  imageForest := ⟨.image, #[], #[], 1⟩

set_option maxRecDepth 8000 in
/-- Baking `twoReadsStream` puts both read buffers in one bucket, as large as the larger with
the usage bits of both and in the state of the first read, and leaves the untouched chain
unused. -/
theorem twoReads_bake : ∃ b, Returns (bake twoReadsStream {}) b ∧
    b.memory.buckets.map (·.resources) = #[[.buffer 0, .buffer 1]] ∧
    b.memory.buckets.map (·.desc) = #[.buffer 256 0x23 .gpuOnly] ∧
    b.memory.unused = [.buffer 2, .buffer 3] ∧ b.memory.buckets.map (·.initial) = #[⟨1, 1, 0⟩] := by
  have hI : ((Registry.ingest twoReadsStream).run.run #[]).1 = .ok twoReads := by
    decide +kernel
  -- the later stages do not read the journal ingestion leaves
  have hI' : (Registry.ingest twoReadsStream).run.run #[] =
      (.ok twoReads, ((Registry.ingest twoReadsStream).run.run #[]).2) := Prod.ext hI rfl
  generalize ((Registry.ingest twoReadsStream).run.run #[]).2 = J at hI'
  have hrun : ((bake twoReadsStream {}).run.run #[]).1.toOption.map (fun b =>
      (b.memory.buckets.map (·.resources), b.memory.buckets.map (·.desc), b.memory.unused,
        b.memory.buckets.map (·.initial))) =
        some (#[[.buffer 0, .buffer 1]], #[.buffer 256 0x23 .gpuOnly], [.buffer 2, .buffer 3],
          #[⟨1, 1, 0⟩]) := by
    unfold bake
    simp only [ExceptT.run_bind, StateT.run_bind, hI']
    cbv
  cases hres : ((bake twoReadsStream {}).run.run #[]).1 with
  | error e =>
    rw [hres] at hrun
    cases hrun
  | ok b =>
    rw [hres] at hrun
    obtain ⟨h1, h2, h3, h4⟩ : b.memory.buckets.map (·.resources) = #[[.buffer 0, .buffer 1]] ∧
        b.memory.buckets.map (·.desc) = #[.buffer 256 0x23 .gpuOnly] ∧
        b.memory.unused = [.buffer 2, .buffer 3] ∧
        b.memory.buckets.map (·.initial) = #[⟨1, 1, 0⟩] := by
      simpa [Except.toOption] using hrun
    exact ⟨b, ⟨#[], hres⟩, h1, h2, h3, h4⟩

theorem twoReads_layoutLaws : ∃ b, Returns (bake twoReadsStream {}) b ∧
    b.memory.unused = [.buffer 2, .buffer 3] ∧ LayoutLaws b.registry b.schedule b.memory := by
  obtain ⟨b, hb, -, -, hunused, -⟩ := twoReads_bake
  exact ⟨b, hb, hunused, bake_layout hb⟩

theorem twoReads_bucketsHoldMembers : ∃ b, Returns (bake twoReadsStream {}) b ∧
    b.memory.buckets.map (·.desc) = #[.buffer 256 0x23 .gpuOnly] ∧
    ∀ bk ∈ b.memory.buckets,
      (∀ i, Res.buffer i ∈ bk.resources → ∃ info, b.registry.buffer? i = some info ∧
        ∃ size usage, bk.desc = .buffer size usage info.desc.memory ∧ info.desc.size ≤ size ∧
          info.desc.usage ||| usage = usage ∧
          ∃ j info', Res.buffer j ∈ bk.resources ∧ b.registry.buffer? j = some info' ∧
            info'.desc.size = size) ∧
      (∀ i, Res.image i ∈ bk.resources → ∃ info, b.registry.image? i = some info ∧
        ∃ usage, bk.desc = .image info.shape usage ∧ info.desc.usage ||| usage = usage) := by
  obtain ⟨b, hb, -, hdesc, -, -⟩ := twoReads_bake
  exact ⟨b, hb, hdesc, bake_buckets_hold_members hb⟩

end RenderGraph
