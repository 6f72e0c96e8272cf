import RenderGraph.Proofs.Registered
import RenderGraph.Proofs.Scheduling
import RenderGraph.Proofs.Sharing
import RenderGraph.Proofs.Baking
/-!
# Where a bake can fail

A bake fails only while it reads the declaration stream, while it builds the dependency graph,
or on a dependency cycle, and on a registry whose graph has no cycle it succeeds
(`bake_fails_only_early`). The later stages have error paths of their own that no input
reaches:

* the schedule's check of its order against the edges never fires (`Schedule.build_fails`);
* the memory plan describes every registered resource and the base of its chain, since an
  ingested registry roots its chains at registered resources (`Registry.ingest_wf`); so it
  gathers the chains without error and gives a bucket to every member of a chain in use
  (`MemoryPlan.build_succeeds`);
* every resource a live pass reads or writes is registered and touched by that pass, so its
  chain is in use, and `BakedGraph.emit` finds its bucket (`BakedGraph.emit_ok`).
-/

namespace RenderGraph

open Logged

/-- Where every step of a fold succeeds, the fold followed by `k` succeeds as `k` does on what
the steps established. -/
theorem Except.bind_foldlM_ok {ε α β γ : Type} {f : β → α → Except ε β} {k : β → Except ε γ}
    {P : α → β → Prop} {Q : γ → Prop} {xs : List α} (init : β)
    (hstep : ∀ acc x, x ∈ xs → ∃ b, f acc x = .ok b ∧ P x b ∧ ∀ y, P y acc → P y b)
    (hk : ∀ out, (∀ x ∈ xs, P x out) → ∃ c, k out = .ok c ∧ Q c) :
    ∃ c, (xs.foldlM f init >>= k) = .ok c ∧ Q c := by
  obtain ⟨out, hout, -, hall⟩ := Except.foldlM_all init hstep
  rw [hout]
  exact hk out hall

/-- A successful step followed by steps that always succeed succeeds. -/
theorem Except.bind_ok_of_ok {ε α β : Type} {m : Except ε α} {k : α → Except ε β}
    (hm : ∃ a, m = .ok a) (hk : ∀ a, ∃ c, k a = .ok c) : ∃ c, (m >>= k) = .ok c := by
  obtain ⟨a, rfl⟩ := hm
  exact hk a

namespace Registry

variable {r : Registry}

theorem lt_of_join_isSome {α : Type} {t : Array (Option α)} {i : Nat} (h : (t[i]?).join.isSome) :
    i < t.size := by
  by_contra hi
  rw [Array.getElem?_eq_none (by omega)] at h
  cases h

/-- The registered resources are those the tables hold. -/
theorem mem_resources {res : Res} : res ∈ r.resources ↔ r.contains res = true := by
  cases res with
  | buffer i =>
    simp only [resources, filledIds, List.mem_append, List.mem_map, List.mem_filter,
      List.mem_range, Res.buffer.injEq, reduceCtorEq, and_false, exists_false, or_false,
      exists_eq_right, contains, buffer?]
    exact ⟨fun h => h.2, fun h => ⟨lt_of_join_isSome h, h⟩⟩
  | image i =>
    simp only [resources, filledIds, List.mem_append, List.mem_map, List.mem_filter,
      List.mem_range, Res.image.injEq, reduceCtorEq, and_false, exists_false, false_or,
      exists_eq_right, contains, image?]
    exact ⟨fun h => h.2, fun h => ⟨lt_of_join_isSome h, h⟩⟩

/-- A registered resource has a description of its memory. -/
theorem describe_ok {res : Res} (h : r.contains res = true) :
    ∃ d, MemoryPlan.describe r res = .ok d := by
  cases res with
  | buffer i =>
    obtain ⟨b, hb⟩ := Option.isSome_iff_exists.mp h
    exact ⟨_, by rw [MemoryPlan.describe, hb]⟩
  | image i =>
    obtain ⟨img, himg⟩ := Option.isSome_iff_exists.mp h
    exact ⟨_, by rw [MemoryPlan.describe, himg]⟩

end Registry

namespace MemoryPlan

variable {r : Registry}

/-- Where every registered resource and the base of its chain have a description, the chains are
gathered without error, and every registered resource is a member of one of them. -/
theorem collectGroups_covers (presentBase : Option Res)
    (hdesc : ∀ res ∈ r.resources,
      (∃ d, describe r res = .ok d) ∧ ∃ d, describe r (r.baseOf res) = .ok d) :
    ∃ groups, collectGroups r presentBase = .ok groups ∧
      ∀ res ∈ r.resources, ∃ g ∈ groups, res ∈ g.members := by
  unfold collectGroups
  refine Except.bind_foldlM_ok (P := fun res (gs : List Group) => ∃ g ∈ gs, res ∈ g.members) []
    (fun acc res hres => ?_) fun gs hall => ⟨_, rfl, fun res hres => ?_⟩
  · obtain ⟨⟨d, hd⟩, d', hd'⟩ := hdesc res hres
    dsimp only
    rw [hd]
    cases hidx : acc.findIdx? (·.base == r.baseOf res) with
    | some idx =>
      -- the resource joins the chain of its base, which keeps its members
      obtain ⟨hlt, -, -⟩ := List.findIdx?_eq_some_iff_getElem.mp hidx
      refine ⟨_, rfl, ?_, fun y ⟨g, hg, hy⟩ => ?_⟩
      · rw [List.modify_eq_set_getElem?, List.getElem?_eq_getElem hlt]
        exact ⟨_, List.mem_set hlt _, by simp⟩
      · rw [List.modify_eq_set_getElem?, List.getElem?_eq_getElem hlt]
        obtain ⟨k, hk, rfl⟩ := List.getElem_of_mem hg
        by_cases hki : k = idx
        · subst hki
          exact ⟨_, List.mem_set hlt _, by simp [hy]⟩
        · refine ⟨acc[k], ?_, hy⟩
          rw [List.mem_iff_getElem]
          exact ⟨k, by simpa using hk, List.getElem_set_ne (Ne.symm hki) _⟩
    | none =>
      -- the resource starts a chain of its own
      dsimp only
      rw [hd']
      exact ⟨_, rfl, ⟨_, List.mem_append_right _ (List.mem_singleton_self _),
        List.mem_singleton_self _⟩, fun y ⟨g, hg, hy⟩ => ⟨g, List.mem_append_left _ hg, hy⟩⟩
  · obtain ⟨g, hg, hres⟩ := hall res hres
    exact ⟨_, List.mem_map_of_mem hg, List.mem_mergeSort.mpr hres⟩

/-! ### What the live passes touch -/

/-- Recording a pass keeps a range for every resource with recorded users. -/
theorem keysCovered_record {u : Usage}
    (h : ∀ res, (find? u.users res).isSome → (find? u.liveness res).isSome) (pos pass : Nat) :
    ∀ res, (find? (u.record r pos pass).users res).isSome →
      (find? (u.record r pos pass).liveness res).isSome := by
  unfold Usage.record
  cases r.passes[pass]? with
  | none => exact h
  | some info =>
    dsimp only
    generalize touched info = L
    induction L generalizing u with
    | nil => exact h
    | cons x rest ih =>
      rw [List.foldl_cons]
      apply ih
      -- one step records both the users and the range of the same resource
      intro res hres
      dsimp only at hres ⊢
      rw [find?_upsert] at hres ⊢
      split
      · rfl
      · rename_i hne
        rw [if_neg hne] at hres
        exact h res hres

/-- Every resource a live pass touches has a recorded range. -/
theorem isSome_liveness_collect {s : Schedule} {p : Nat} {info : PassInfo} {res : Res}
    (hp : p ∈ s.order) (hinfo : r.passes[p]? = some info) (hres : res ∈ touched info) :
    (find? (Usage.collect r s).liveness res).isSome := by
  have hkeys : ∀ res, (find? (Usage.collect r s).users res).isSome →
      (find? (Usage.collect r s).liveness res).isSome := by
    dsimp only [Usage.collect]
    generalize hu : List.foldl _ _ s.order.zipIdx = u
    have hfold : ∀ res, (find? u.users res).isSome → (find? u.liveness res).isSome := by
      rw [← hu]
      refine List.foldlRecOn
        (motive := fun u : Usage => ∀ res, (find? u.users res).isSome → (find? u.liveness res).isSome)
        _ _ (fun _ h => by cases h) fun u hu ⟨pass, pos⟩ _ => keysCovered_record hu pos pass
    split
    · -- the present image only gains a range
      intro res hres
      dsimp only at hres ⊢
      rw [find?_upsert]
      split
      · rfl
      · exact hfold res hres
    · exact hfold
  obtain ⟨list, hl, -⟩ := hasUser_collect hp hinfo hres
  exact hkeys res (by rw [hl]; rfl)

/-! ### The memory plan -/

/-- Placing a chain assigns all its members to one bucket, after the assignments made before. -/
theorem placeGroup_assignment (s : Schedule) (sync : SyncPlan) (o : BakeOptions) (u : Usage)
    (acc : Array Bucket × List (Res × Nat)) (g : Group) :
    Ensures (placeGroup s sync o u acc g)
      fun acc' => ∃ id, acc'.2 = acc.2 ++ g.members.map fun m => (m, id) := by
  obtain ⟨B, A⟩ := acc
  unfold placeGroup
  dsimp only
  split
  · exact Ensures.log_bind (Ensures.pure ⟨_, rfl⟩)
  · exact Ensures.log_bind (Ensures.pure ⟨_, rfl⟩)

/-- **On a well-formed registry the memory plan never fails**, and it gives a bucket to every
registered resource that a live pass touches. -/
theorem build_succeeds (hr : r.Wf) {s : Schedule} {sync : SyncPlan} {o : BakeOptions} :
    Succeeds (build r s sync o) fun m => ∀ res ∈ r.resources,
      (find? (Usage.collect r s).liveness res).isSome → (m.bucketOf? res).isSome := by
  obtain ⟨groups, hgroups, hcover⟩ :=
    collectGroups_covers (r.presentImage.map fun i => r.baseOf (.image i)) fun res hres =>
      have hc := Registry.mem_resources.mp hres
      ⟨Registry.describe_ok hc, Registry.describe_ok (hr.contains_baseOf hc)⟩
  unfold build
  dsimp only
  rw [hgroups]
  refine Succeeds.bind (Succeeds.pure (P := (· = groups)) rfl) fun gs hgs => ?_
  subst hgs
  -- every chain with a member in use is kept for placement
  refine Succeeds.bind (Succeeds.forIn_all (P := fun g acc =>
      (g.dedicated || g.members.any fun m => (find? (Usage.collect r s).liveness m).isSome) = true →
        g ∈ acc.1) fun g _ acc => ?_) fun acc hacc => ?_
  · split
    · exact Succeeds.pure ⟨_, rfl, fun _ => Array.mem_push_self,
        fun y hy hu => Array.mem_push_of_mem _ (hy hu)⟩
    · rename_i hunused
      exact Succeeds.log_bind (Succeeds.pure ⟨_, rfl, fun hu => absurd hu hunused, fun y hy => hy⟩)
  -- placing the kept chains assigns each of their members
  refine Succeeds.bind (Succeeds.lift (Ensures.foldlM_all
      (P := fun g (acc : Array Bucket × List (Res × Nat)) => ∀ m ∈ g.members, ∃ x ∈ acc.2, x.1 = m)
      (fun acc g _ j => ?_) fun acc g g' _ hg' j => ?_)) fun x hx => ?_
  · obtain ⟨id, hid⟩ := placeGroup_assignment s sync o _ acc g j
    intro m hm
    exact ⟨(m, id), by rw [hid]; exact List.mem_append_right _ (List.mem_map_of_mem hm), rfl⟩
  · obtain ⟨id, hid⟩ := placeGroup_assignment s sync o _ acc g j
    intro m hm
    obtain ⟨x, hx, hxm⟩ := hg' m hm
    exact ⟨x, by rw [hid]; exact List.mem_append_left _ hx, hxm⟩
  obtain ⟨B, A⟩ := x
  refine Succeeds.log_bind (Succeeds.pure fun res hres hlive => ?_)
  obtain ⟨g, hg, hm⟩ := hcover res hres
  have hused : g ∈ acc.1 := hacc.2 g hg (by
    simp only [Bool.or_eq_true, List.any_eq_true]
    exact .inr ⟨res, hm, hlive⟩)
  obtain ⟨y, hy, rfl⟩ := hx g (List.mem_mergeSort.mpr (by simpa using hused)) res hm
  simp only [bucketOf?, find?, Option.isSome_map, List.find?_isSome]
  exact ⟨y, hy, by simp⟩

end MemoryPlan

namespace BakedGraph

variable {r : Registry} {s : Schedule} {m : MemoryPlan}

/-- An interaction whose resource has a bucket resolves. -/
theorem resolve_ok {i : Interaction} (h : (m.bucketOf? i.resource).isSome) :
    ∃ ri, resolve m i = .ok ri := by
  obtain ⟨b, hb⟩ := Option.isSome_iff_exists.mp h
  exact ⟨_, by rw [resolve, hb]⟩

/-- Where every resource a live pass reads or writes has a bucket, emitting succeeds. -/
theorem emit_ok {n : Nat} (hs : s.Placement n)
    (hres : ∀ p ∈ s.order, ∀ i ∈ (r.passes.getD p default).interactions,
      (m.bucketOf? i.resource).isSome) (sync : SyncPlan) :
    ∃ G, emit r s sync m = .ok G := by
  unfold emit
  refine Except.bind_ok_of_ok (Except.mapM_ok fun q _ => ?_) fun _ => ⟨_, rfl⟩
  refine Except.bind_ok_of_ok (Except.mapM_ok fun p hp => ?_) fun _ => ⟨_, rfl⟩
  have hp := (hs.mem_queues_iff.mp hp).1
  unfold bakePass
  exact Except.bind_ok_of_ok (Except.mapM_ok fun i hi => resolve_ok (hres p hp i hi))
    fun _ => ⟨_, rfl⟩

/-- **On a well-formed registry, emitting the plans of a schedule never fails.** -/
theorem emit_ok_of_wf (hr : r.Wf) (hs : s.Placement r.passes.size)
    (hm : ∀ res ∈ r.resources,
      (MemoryPlan.find? (MemoryPlan.Usage.collect r s).liveness res).isSome →
        (m.bucketOf? res).isSome) (sync : SyncPlan) :
    ∃ G, emit r s sync m = .ok G := by
  refine emit_ok hs (fun p hp i hi => ?_) sync
  have hlt := hs.lt_of_mem p hp
  have hinfo : r.passes[p]? = some (r.passes.getD p default) := by
    rw [Array.getD_eq_getD_getElem?, Array.getElem?_eq_getElem hlt]
    rfl
  -- a live pass's resources are registered and touched by it
  refine hm _ (Registry.mem_resources.mpr (hr.interaction_contains _ ?_ i hi))
    (MemoryPlan.isSome_liveness_collect hp hinfo ?_)
  · exact Array.mem_of_getElem? hinfo
  · exact List.mem_append_left _ (List.mem_flatMap.mpr ⟨i, hi, List.mem_cons_self⟩)

end BakedGraph

namespace Schedule

variable {r : Registry} {g : Graph} {o : BakeOptions}

/-- **`Schedule.build` fails only on a dependency cycle**, with the error that names an edge of
it: its check of the order against the edges never fires. -/
theorem build_fails (hg : Returns (Graph.build r) g) {e : BakeError}
    (h : Fails (Schedule.build r g o) e) :
    ¬g.Acyclic ∧ ∃ p c, e = .graph (.cyclicDependency p c) := by
  rcases hl : levels g with ⟨pred, pass⟩ | level
  · refine ⟨fun hacyc => ?_, ?_⟩
    · obtain ⟨level, hlev⟩ := (levels_ok_iff (Graph.build_edges_lt hg)).mpr hacyc
      rw [hl] at hlev
      cases hlev
    · unfold Schedule.build at h
      dsimp only at h
      rw [hl] at h
      -- the cycle is logged, then thrown
      rcases Fails.bind h with h | ⟨_, -, h⟩
      · exact absurd h (Succeeds.lift (P := fun _ => True) fun _ => trivial).not_fails
      · rcases Fails.bind h with h | ⟨_, h, -⟩
        · exact ⟨_, _, Fails.throw h⟩
        · exact absurd h Returns.not_throw
  · exact absurd h (Succeeds.of_yields (build_yields_plan hg hl)).not_fails

end Schedule

/-- **A bake fails only while it reads its input, while it builds the dependency graph, or on a
dependency cycle; on a registry whose graph has no cycle it succeeds.** The schedule's order
check, the memory plan and the emitted graph never fail. -/
theorem bake_fails_only_early (bytes : Bytes) (o : BakeOptions) :
    (∀ e, Fails (bake bytes o) e →
      Fails (Registry.ingest bytes) e ∨
      ∃ r, Returns (Registry.ingest bytes) r ∧
        (Fails (Graph.build r) e ∨
          ∃ g, Returns (Graph.build r) g ∧ ¬g.Acyclic ∧
            ∃ p c, e = .graph (.cyclicDependency p c))) ∧
    ∀ r g, Returns (Registry.ingest bytes) r → Returns (Graph.build r) g → g.Acyclic →
      ∃ b, Returns (bake bytes o) b := by
  refine ⟨fun e h => ?_, fun r g hr hg hacyc => ?_⟩
  · unfold bake at h
    rcases Fails.bind h with h | ⟨r, hr, h⟩
    · exact .inl h
    refine .inr ⟨r, hr, ?_⟩
    rcases Fails.bind h with h | ⟨g, hg, h⟩
    · exact .inl h
    refine .inr ⟨g, hg, ?_⟩
    rcases Fails.bind h with h | ⟨s, hs, h⟩
    · exact Schedule.build_fails hg h
    -- the stages after the schedule never fail
    exfalso
    have hwf := Registry.ingest_wf hr
    rcases Fails.bind h with h | ⟨sync, -, h⟩
    · exact (Succeeds.lift (P := fun _ => True) fun _ => trivial).not_fails h
    have hmem : Succeeds (MemoryPlan.build r s sync o) _ := MemoryPlan.build_succeeds hwf
    rcases Fails.bind h with h | ⟨m, hm, h⟩
    · exact hmem.not_fails h
    obtain ⟨G, hG⟩ := BakedGraph.emit_ok_of_wf hwf (Schedule.build_placement hs)
      (hmem.of_returns hm) sync
    rcases Fails.bind h with h | ⟨baked, -, h⟩
    · rw [hG] at h
      exact (Succeeds.pure (P := fun _ => True) trivial).not_fails h
    refine (Succeeds.log_bind (P := fun _ => True) ?_).not_fails h
    dsimp only
    split
    · exact Succeeds.log_bind (Succeeds.pure trivial)
    · exact Succeeds.pure trivial
  · have hwf := Registry.ingest_wf hr
    obtain ⟨producers, hp, rfl⟩ := Graph.build_returns hg
    obtain ⟨level, hl⟩ := (Schedule.levels_ok_iff (Graph.build_edges_lt hg)).mpr hacyc
    unfold bake
    refine Exists.imp (fun b hb => hb.1) (Returns.bind_succeeds (P := fun _ => True) hr ?_)
    -- from the registry on, every stage succeeds
    refine Succeeds.bind (Succeeds.of_yields (Graph.build_yields hp)) fun g' hg' => ?_
    subst hg'
    refine Succeeds.bind (Succeeds.of_yields (Schedule.build_yields_plan hg hl)) fun s hs => ?_
    subst hs
    refine Succeeds.bind (Succeeds.lift (P := fun _ => True) fun _ => trivial) fun sync _ => ?_
    refine Succeeds.bind (MemoryPlan.build_succeeds hwf) fun m hm => ?_
    obtain ⟨G, hG⟩ := BakedGraph.emit_ok_of_wf hwf (Schedule.plan_placement _ _ _ _) hm sync
    rw [hG]
    refine Succeeds.bind (Succeeds.pure (P := fun _ => True) trivial) fun baked _ => ?_
    refine Succeeds.log_bind ?_
    dsimp only
    split
    · exact Succeeds.log_bind (Succeeds.pure trivial)
    · exact Succeeds.pure trivial

end RenderGraph
