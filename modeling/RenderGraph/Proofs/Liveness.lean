import RenderGraph.Proofs.Scheduling
/-!
# Live passes

With culling, a pass stays live exactly when its results reach something observable: a pass
without writes, or one that writes into a persistent chain or into the chain of the present image.
`markLive` pops passes from a work list, seeded with the observable passes, and pushes the
predecessors of every pass it marks live.

* `markLive_sound`: whatever the work list holds and the array marks live satisfies a property
  that every predecessor inherits, so the walk marks nothing beyond the backward closure of its
  seeds.
* `livePasses_iff`: with `markLive_closed` (the live passes are closed under predecessors, and the
  seeds are live) the live passes are exactly those from which an observable pass is reached.
* `build_live_iff_feeds_observable`: the passes of a schedule, with culling and without.
-/

namespace RenderGraph

/-- A pass is observable: it writes nothing, or one of its writes goes into a persistent chain or
into the chain of the present image. -/
def Registry.Observable (r : Registry) (p : Nat) : Prop :=
  ∃ pass, r.passes[p]? = some pass ∧
    (pass.writes = [] ∨ ∃ w ∈ pass.writes, r.lifetime w.resource = .persistent ∨
      ∃ i, r.presentImage = some i ∧ r.baseOf w.resource = r.baseOf (.image i))

namespace Schedule

open Logged

variable {g : Graph} {r : Registry}

theorem observable_iff {pass : PassInfo} :
    observable r pass = true ↔ pass.writes = [] ∨ ∃ w ∈ pass.writes,
      r.lifetime w.resource = .persistent ∨
        ∃ i, r.presentImage = some i ∧ r.baseOf w.resource = r.baseOf (.image i) := by
  simp only [observable, Bool.or_eq_true, List.isEmpty_iff, List.any_eq_true, beq_iff_eq]
  constructor
  · rintro (h | ⟨w, hw, h | h⟩)
    · exact .inl h
    · exact .inr ⟨w, hw, .inl h⟩
    · obtain ⟨i, hi, hbase⟩ := Option.map_eq_some_iff.mp h.symm
      exact .inr ⟨w, hw, .inr ⟨i, hi, hbase.symm⟩⟩
  · rintro (h | ⟨w, hw, h | ⟨i, hi, hbase⟩⟩)
    · exact .inl h
    · exact .inr ⟨w, hw, .inl h⟩
    · exact .inr ⟨w, hw, .inr (by rw [hi, hbase]; rfl)⟩

/-- The seeds of `livePasses` are the observable passes. -/
theorem mem_seeds_iff {u : Nat} :
    u ∈ (List.range r.passes.size).filter (fun i => (r.passes[i]?.map (observable r)).getD false) ↔
      r.Observable u := by
  simp only [List.mem_filter, List.mem_range, Registry.Observable, ← observable_iff]
  constructor
  · rintro ⟨hu, hobs⟩
    rw [Array.getElem?_eq_getElem hu] at hobs ⊢
    exact ⟨_, rfl, by simpa using hobs⟩
  · rintro ⟨pass, hp, hobs⟩
    refine ⟨(Array.getElem?_eq_some_iff.mp hp).1, ?_⟩
    rw [hp]
    simpa using hobs

/-! ### The work list marks nothing beyond the closure of its seeds -/

/-- **The work-list walk marks only what a predecessor-closed property allows**: when every pass
of the list, and every pass already live, satisfies a property that each predecessor inherits,
every pass the walk leaves live satisfies it. -/
theorem markLive_sound {P : Nat → Prop} (hP : ∀ c p, P c → p ∈ g.preds c → P p) (fuel : Nat)
    {work : List Nat} {live : Array Bool} (hlive : ∀ u < g.passCount, live.getD u true = true → P u)
    (hwork : ∀ u ∈ work, P u) :
    ∀ u < g.passCount, (markLive g fuel work live).getD u true = true → P u := by
  induction fuel generalizing work live with
  | zero => exact hlive
  | succ fuel ih =>
    cases work with
    | nil => exact hlive
    | cons p rest =>
      unfold markLive
      split
      · exact ih hlive fun u hu => hwork u (List.mem_cons_of_mem p hu)
      · refine ih (fun u hu hset => ?_) fun u hu => ?_
        · rcases Array.getD_set!_eq_or live p true u true with h | ⟨rfl, -⟩
          · exact hlive u hu (h ▸ hset)
          · exact hwork u List.mem_cons_self
        · rcases List.mem_append.mp hu with hu | hu
          · exact hP p u (hwork p List.mem_cons_self) (List.mem_filter.mp hu).1
          · exact hwork u (List.mem_cons_of_mem p hu)

/-! ### The live passes -/

section Live

variable (hedges : ∀ e ∈ g.edges, e.producer < g.passCount ∧ e.consumer < g.passCount)
  (hn : g.passCount = r.passes.size)
include hedges hn

/-- **A pass is live exactly when an observable pass is reached from it**, itself included. -/
theorem livePasses_iff {u : Nat} (hu : u < r.passes.size) :
    (livePasses r g).getD u true = true ↔ ∃ v, Relation.ReflTransGen g.Dep u v ∧ r.Observable v := by
  obtain ⟨hclosed, hseeds⟩ := livePasses_closed_seeds hn
  constructor
  · -- what the walk marks reaches its seeds
    refine markLive_sound (P := fun u => ∃ v, Relation.ReflTransGen g.Dep u v ∧ r.Observable v)
      ?_ _ ?_ ?_ u (hn ▸ hu)
    · rintro c p ⟨v, hcv, hv⟩ hp
      exact ⟨v, .head hp hcv, hv⟩
    · intro u hu hlive
      simp [Array.getD_eq_getD_getElem?, hn ▸ hu] at hlive
    · intro u hu
      exact ⟨u, .refl, mem_seeds_iff.mp hu⟩
  · rintro ⟨v, huv, hv⟩
    clear hu
    induction huv using Relation.ReflTransGen.head_induction_on with
    | refl => exact hseeds _ (mem_seeds_iff.mpr hv)
    | head hp _ ih =>
      rcases hclosed _ (lt_passCount_of_mem_preds hedges hp).2 ih _ hp with h | h
      · exact h
      · cases h

end Live

/-! ### The passes of a schedule -/

/-- What a schedule promises about which passes it keeps. -/
structure LiveLaws (r : Registry) (g : Graph) (o : BakeOptions) (s : Schedule) : Prop where
  /-- With culling, a pass is live exactly when an observable pass is reached from it. -/
  live_iff : o.cullPasses = true → ∀ p, s.isLive p = true ↔
    p < r.passes.size ∧ ∃ v, Relation.ReflTransGen g.Dep p v ∧ r.Observable v
  /-- Without culling every pass is live. -/
  all_live : o.cullPasses = false → ∀ p < r.passes.size, s.isLive p = true
  /-- The culled passes are the others, in declaration order. -/
  culled_eq : s.culled = (List.range r.passes.size).filter fun p => !s.isLive p
  /-- Without culling none is culled. -/
  culled_nil : o.cullPasses = false → s.culled = []
  /-- Every predecessor of a live pass is live. -/
  pred_live : ∀ c p, s.isLive c = true → p ∈ g.preds c → s.isLive p = true

variable {o : BakeOptions} {s : Schedule}

/-- **The live passes of a schedule are those whose results reach something observable**: with
culling, exactly the passes from which an observable pass is reached; without, all of them. The
culled passes are the rest, in declaration order, and no live pass depends on a culled one. -/
theorem build_live_iff_feeds_observable (hg : Returns (Graph.build r) g)
    (hs : Returns (Schedule.build r g o) s) : LiveLaws r g o s := by
  have hn := Graph.build_passCount hg
  have hsize : (livePasses r g).size = r.passes.size := by simp [livePasses, size_markLive]
  have hlive : ∀ p, s.isLive p = true ↔ p < r.passes.size ∧
      (if o.cullPasses then livePasses r g else Array.replicate r.passes.size true).getD p false =
        true := fun p => isLive_iff_of_build hs
  refine ⟨fun ho p => ?_, fun ho p hp => ?_, ?_, fun ho => ?_, fun c p hc hp => build_pred_live hg hs hp hc⟩
  · rw [hlive, if_pos ho]
    constructor
    · rintro ⟨hp, hl⟩
      refine ⟨hp, (livePasses_iff (Graph.build_edges_lt hg) hn hp).mp ?_⟩
      rwa [Array.getD_default_of_lt (by omega) false true] at hl
    · rintro ⟨hp, hreach⟩
      refine ⟨hp, ?_⟩
      rw [Array.getD_default_of_lt (by omega) false true]
      exact (livePasses_iff (Graph.build_edges_lt hg) hn hp).mpr hreach
  · rw [hlive, if_neg (by simp [ho])]
    simp [Array.getD_eq_getD_getElem?, hp]
  · obtain ⟨-, -, -, -, hculled⟩ := build_returns hs
    rw [hculled]
    refine List.filter_congr fun p hp => ?_
    congr 1
    rw [Bool.eq_iff_iff, hlive]
    exact ⟨fun h => ⟨List.mem_range.mp hp, h⟩, fun h => h.2⟩
  · obtain ⟨-, heq, -⟩ := build_eq_plan hs
    rw [heq]
    exact plan_culled_nil ho

/-- A pass fills a transient scratch buffer, a second pass reads it into a persistent history
buffer, and a third pass writes a transient buffer nothing reads. -/
def historyFeed : Registry where
  brief := ⟨6, 0, 3, 0, 0, 0, 0, none, none, ⟨0⟩⟩
  buffers := #[some ⟨"scratch", .storage 64, .transient⟩, some ⟨"history", .storage 64, .persistent⟩,
    some ⟨"dead", .storage 64, .transient⟩]
  images := #[]
  shaders := #[]
  programs := #[]
  samplers := #[]
  bindless := #[]
  passes := #[
    ⟨0, "fill", .compute, none, none, [],
      [⟨.buffer 0, some (.buffer 3), .write, 0, 0x800, 0x40, none⟩], []⟩,
    ⟨1, "accumulate", .compute, none, none, [⟨.buffer 3, none, .read, 0, 0x800, 0x20, none⟩],
      [⟨.buffer 1, some (.buffer 4), .write, 1, 0x800, 0x40, none⟩], []⟩,
    ⟨2, "unused", .compute, none, none, [],
      [⟨.buffer 2, some (.buffer 5), .write, 0, 0x800, 0x40, none⟩], []⟩]
  passSlots := #[some 0, some 1, some 2]
  bufferForest := Forest.empty .buffer 0
  imageForest := Forest.empty .image 0

/-- Its graph: the accumulating pass reads what the filling pass wrote. -/
def historyFeedGraph : Graph :=
  ⟨3, [⟨0, 1, .buffer 3, .readAfterWrite⟩], [(.buffer 3, 0), (.buffer 4, 1), (.buffer 5, 2)]⟩

/-- Its schedule with culling: the two passes that feed the history, and the third culled. -/
def historyFeedSchedule : Schedule :=
  ⟨[0, 1], #[some 0, some 1, none], #[0, 1, 0], #[.compute, .compute, .compute], #[0, 1, 0],
    ⟨[], [0, 1], [], []⟩, [2]⟩

theorem historyFeed_liveLaws :
    Returns (Graph.build historyFeed) historyFeedGraph ∧
      Returns (Schedule.build historyFeed historyFeedGraph { cullPasses := true }) historyFeedSchedule ∧
      historyFeedSchedule.culled = [2] ∧
      LiveLaws historyFeed historyFeedGraph { cullPasses := true } historyFeedSchedule := by
  have hg : Returns (Graph.build historyFeed) historyFeedGraph := ⟨#[], by rfl⟩
  have hs : Returns (Schedule.build historyFeed historyFeedGraph { cullPasses := true })
      historyFeedSchedule := ⟨#[], by cbv⟩
  exact ⟨hg, hs, rfl, build_live_iff_feeds_observable hg hs⟩

end Schedule

end RenderGraph
