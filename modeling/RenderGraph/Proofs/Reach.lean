import RenderGraph.Proofs.Frames
import RenderGraph.Proofs.Scheduling
/-!
# Reach

The reach of a pass on a queue is the largest queue index, on that queue, of a pass from which it
is reached by a nonempty dependency path (`ancestorIndices`). The table is filled in one sweep in
schedule order, each row from the rows of the pass's direct predecessors and the predecessors
themselves (`predStep`).

* Soundness needs no order: every entry of a row names a pass on that queue from which the row's
  pass is reached, since a predecessor's entries name its own ancestors (`reachTable_ancestor`).
* Completeness needs the order: a successful schedule puts every predecessor of a live pass before
  it, so when a row is written the rows it reads are final, and the table satisfies its defining
  equation (`reachTable_eq`, from `Array.getD_foldl_set!_fix`). An entry then bounds the index of
  every ancestor on its queue, by induction on the path (`reachTable_ge_of_transGen`).

`build_reach_max_ancestor` collects what follows for the reach and the raw waits of a plan.
-/

namespace RenderGraph.SyncPlan

open Logged

/-- The queue indices, on queue `q`, of the passes from which `c` is reached by a nonempty
dependency path. -/
def ancestorIndices (g : Graph) (s : Schedule) (c : Nat) (q : QueueClass) : Set Nat :=
  {i | ∃ u, Relation.TransGen g.Dep u c ∧ s.queueOf u = q ∧ s.queueIndexOf u = i}

variable {g : Graph} {s : Schedule}

/-! ### One predecessor's contribution -/

/-- An entry after a predecessor's contribution comes from the row before, from the predecessor's
row, or is the predecessor's own index on its queue. -/
theorem predStep_get_eq_some {reach : Array Reach} {row : Reach} {pred : Nat} {Q : QueueClass}
    {j : Nat} (h : (predStep s reach row pred).get Q = some j) :
    row.get Q = some j ∨ (reach.getD pred (.const none)).get Q = some j ∨
      (Q = s.queueOf pred ∧ j = s.queueIndexOf pred) := by
  have hzip : ∀ {i}, (PerQueue.zipWith maxOpt row (reach.getD pred (.const none))).get Q = some i →
      row.get Q = some i ∨ (reach.getD pred (.const none)).get Q = some i := by
    intro i hi
    simp only [PerQueue.zipWith, PerQueue.get_ofFn] at hi
    exact maxOpt_eq_some hi
  unfold predStep at h
  rw [PerQueue.get_set] at h
  split at h
  · rename_i hQ
    subst hQ
    rcases maxOpt_eq_some h with h | h
    · exact (hzip h).elim .inl (.inr ∘ .inl)
    · exact .inr (.inr ⟨rfl, (Option.some.inj h).symm⟩)
  · exact (hzip h).elim .inl (.inr ∘ .inl)

theorem maxOpt_of_right {b : Option Nat} {k : Nat} (a : Option Nat) (h : ∃ i, b = some i ∧ k ≤ i) :
    ∃ i, maxOpt a b = some i ∧ k ≤ i := by
  obtain ⟨i, rfl, hk⟩ := h
  cases a with
  | none => exact ⟨i, rfl, hk⟩
  | some a => exact ⟨max a i, rfl, Nat.le_trans hk (Nat.le_max_right a i)⟩

/-- A predecessor's contribution raises the row to at least the predecessor's own row. -/
theorem predStep_ge_reach {reach : Array Reach} {pred : Nat} {Q : QueueClass} {k : Nat}
    (h : ∃ i, (reach.getD pred (.const none)).get Q = some i ∧ k ≤ i) (row : Reach) :
    ∃ i, (predStep s reach row pred).get Q = some i ∧ k ≤ i := by
  have hzip : ∃ i, (PerQueue.zipWith maxOpt row (reach.getD pred (.const none))).get Q = some i ∧
      k ≤ i := by
    simpa [PerQueue.zipWith] using maxOpt_of_right _ h
  unfold predStep
  rw [PerQueue.get_set]
  split
  · rename_i hQ
    exact maxOpt_of_left _ (hQ ▸ hzip)
  · exact hzip

/-- The contributions of a list of predecessors raise the row to at least the row of each. -/
theorem foldl_predStep_ge_reach {reach : Array Reach} {l : List Nat} {x : Nat} (hx : x ∈ l)
    {Q : QueueClass} {k : Nat} (h : ∃ i, (reach.getD x (.const none)).get Q = some i ∧ k ≤ i)
    (row : Reach) : ∃ i, (l.foldl (predStep s reach) row).get Q = some i ∧ k ≤ i := by
  induction l generalizing row with
  | nil => cases hx
  | cons y rest ih =>
    rw [List.foldl_cons]
    rcases List.mem_cons.mp hx with rfl | hx
    · exact foldl_predStep_mono rest (predStep_ge_reach h row)
    · exact ih hx _

/-- The contributions of a list of predecessors read the table only at those predecessors. -/
theorem foldl_predStep_congr {reach reach' : Array Reach} {l : List Nat}
    (h : ∀ y ∈ l, reach.getD y (.const none) = reach'.getD y (.const none)) (row : Reach) :
    l.foldl (predStep s reach) row = l.foldl (predStep s reach') row := by
  induction l generalizing row with
  | nil => rfl
  | cons y rest ih =>
    rw [List.foldl_cons, List.foldl_cons, ih fun z hz => h z (List.mem_cons_of_mem y hz)]
    unfold predStep
    rw [h y List.mem_cons_self]

/-! ### Every entry names an ancestor -/

/-- Every entry of a row names a pass on that queue, at that index, from which `x` is reached. -/
def RowAncestors (g : Graph) (s : Schedule) (x : Nat) (row : Reach) : Prop :=
  ∀ Q j, row.get Q = some j → j ∈ ancestorIndices g s x Q

theorem rowAncestors_const_none (x : Nat) : RowAncestors g s x (.const none) := by
  intro Q j h
  cases Q <;> cases h

/-- A predecessor of `x`, whose row names its own ancestors, adds only ancestors of `x`. -/
theorem RowAncestors.predStep {reach : Array Reach} {row : Reach} {x pred : Nat}
    (h : RowAncestors g s x row) (hpred : pred ∈ g.preds x)
    (hreach : RowAncestors g s pred (reach.getD pred (.const none))) :
    RowAncestors g s x (predStep s reach row pred) := by
  intro Q j hj
  rcases predStep_get_eq_some hj with hj | hj | ⟨rfl, rfl⟩
  · exact h Q j hj
  · obtain ⟨u, hu, hq, hi⟩ := hreach Q j hj
    exact ⟨u, .tail hu hpred, hq, hi⟩
  · exact ⟨pred, .single hpred, rfl, rfl⟩

/-- Every row of the reach table names ancestors of its pass. -/
theorem reachTable_ancestor (x : Nat) : RowAncestors g s x ((reachTable g s).getD x (.const none)) :=
  reachTable_induct rowAncestors_const_none (fun _ _ _ _ _ hp hrow hreach => hrow.predStep hp hreach) x

/-! ### Every ancestor is bounded by its entry -/

section Complete

variable {r : Registry} {o : BakeOptions}
  (hg : Returns (Graph.build r) g) (hsch : Returns (Schedule.build r g o) s)
include hg hsch

theorem placement_of_build : s.Placement g.passCount := by
  rw [Graph.build_passCount hg]
  exact Schedule.build_placement hsch

/-- The rows of a live pass's predecessors are final when its row is written, so the table
satisfies its defining equation at every live pass. -/
theorem reachTable_eq {c : Nat} (hc : c ∈ s.order) :
    (reachTable g s).getD c (.const none) =
      (g.preds c).foldl (predStep s (reachTable g s)) (.const none) := by
  have hs := placement_of_build hg hsch
  refine Array.getD_foldl_set!_fix (fun a x => (g.preds x).foldl (predStep s a) (.const none))
    g.preds (.const none) (fun a b c h => foldl_predStep_congr h _) hs.nodup _
    (fun x hx => by simpa using hs.lt_of_mem x hx) (fun c hc p hp => ?_) c hc
  exact Schedule.build_pred_before hg hsch hp (hs.isLive_iff.mpr hc)

/-- **Every pass from which a live pass is reached is bounded by its entry**: the row of the live
pass reaches, on the queue of that pass, at least its queue index. -/
theorem reachTable_ge_of_transGen {u c : Nat} (h : Relation.TransGen g.Dep u c) :
    c ∈ s.order → ∃ i, ((reachTable g s).getD c (.const none)).get (s.queueOf u) = some i ∧
      s.queueIndexOf u ≤ i := by
  have hs := placement_of_build hg hsch
  induction h with
  | single hp => exact fun hc => reachTable_ge hs hc hp
  | tail _ hp ih =>
    intro hc
    have hb := (Schedule.build_preds_earlier hg hsch hc hp).1
    rw [reachTable_eq hg hsch hc]
    exact foldl_predStep_ge_reach hp (ih hb) _

/-- The reach of a live pass on a queue is the largest index of an ancestor there. -/
theorem reachTable_isGreatest {c : Nat} (hc : c ∈ s.order) (Q : QueueClass) (i : Nat) :
    ((reachTable g s).getD c (.const none)).get Q = some i ↔ IsGreatest (ancestorIndices g s c Q) i := by
  constructor
  · intro h
    refine ⟨reachTable_ancestor c Q i h, ?_⟩
    rintro j ⟨u, hu, rfl, rfl⟩
    obtain ⟨i', hi', hle⟩ := reachTable_ge_of_transGen hg hsch hu hc
    rw [h, Option.some.injEq] at hi'
    exact hi' ▸ hle
  · rintro ⟨⟨u, hu, rfl, rfl⟩, hmax⟩
    obtain ⟨i', hi', hle⟩ := reachTable_ge_of_transGen hg hsch hu hc
    rw [hi', Nat.le_antisymm (hmax (reachTable_ancestor c _ i' hi')) hle]

/-- The reach of a live pass on a queue is absent exactly when no ancestor lies there. -/
theorem reachTable_eq_none_iff {c : Nat} (hc : c ∈ s.order) (Q : QueueClass) :
    ((reachTable g s).getD c (.const none)).get Q = none ↔ ancestorIndices g s c Q = ∅ := by
  rw [Set.eq_empty_iff_forall_notMem]
  constructor
  · rintro h j ⟨u, hu, rfl, rfl⟩
    obtain ⟨i, hi, -⟩ := reachTable_ge_of_transGen hg hsch hu hc
    rw [h] at hi
    cases hi
  · intro h
    cases hget : ((reachTable g s).getD c (.const none)).get Q with
    | none => rfl
    | some i => exact absurd (reachTable_ancestor c Q i hget) (h i)

end Complete

/-- A culled pass has no row. -/
theorem reachTable_culled {c : Nat} (hc : c ∉ s.order) :
    (reachTable g s).getD c (.const none) = .const none := by
  rw [reachTable_eq_foldl, Array.getD_foldl_set!_of_not_mem _ _ hc, Array.getD_replicate_self]

/-! ### The reach of a plan -/

/-- What the reach table and the raw waits of a plan say about the dependencies of a schedule. -/
structure ReachLaws (g : Graph) (s : Schedule) (p : SyncPlan) : Prop where
  /-- The reach of a live pass on a queue is the largest queue index there of a pass from which it
  is reached by a nonempty path. -/
  reach_isGreatest : ∀ c q i, s.isLive c = true →
    (p.reachOf c q = some i ↔ IsGreatest (ancestorIndices g s c q) i)
  /-- It is absent exactly when there is no such pass. -/
  reach_eq_none_iff : ∀ c q, s.isLive c = true → (p.reachOf c q = none ↔ ancestorIndices g s c q = ∅)
  /-- A culled pass reaches nothing. -/
  reach_culled : ∀ c q, s.isLive c = false → p.reachOf c q = none
  /-- The raw waits of a pass are its reach on every other queue, in queue order, where it has
  one; a culled pass has none. -/
  rawWaits_eq : ∀ c, p.rawWaitsOfPass c = if s.isLive c then
    (QueueClass.all.filter (· ≠ s.queueOf c)).filterMap fun q => (p.reachOf c q).map fun i => ⟨q, i⟩
    else []

/-- **The reach of a pass is the largest index of its ancestors on each queue**: for every
registry whose graph the schedule orders, with any options, the plan's reach table holds the
largest queue index of a pass on each queue from which the pass is reached by a nonempty path,
nothing for culled passes, and the raw waits list it queue by queue. -/
theorem build_reach_max_ancestor {r : Registry} {o : BakeOptions} {j : Journal} {p : SyncPlan}
    (hg : Returns (Graph.build r) g) (hsch : Returns (Schedule.build r g o) s)
    (hp : ((SyncPlan.build g s).run j).1 = p) : ReachLaws g s p := by
  have hs := placement_of_build hg hsch
  rw [build_yields g s j] at hp
  subst hp
  refine ⟨fun c q i hc => reachTable_isGreatest hg hsch (hs.isLive_iff.mp hc) q i,
    fun c q hc => reachTable_eq_none_iff hg hsch (hs.isLive_iff.mp hc) q, fun c q hc => ?_,
    fun c => ?_⟩
  · have hc : c ∉ s.order := fun h => by rw [hs.isLive_iff.mpr h] at hc; cases hc
    rw [reachOf, reachTable_culled hc]
    cases q <;> rfl
  · rw [rawWaitsOfPass, getD_rawTable hs, rawWaitsOf]
    cases s.isLive c <;> rfl

/-- A copy pass uploads a buffer, a compute pass reads it into another, and a graphics pass reads
that one: the graphics pass reaches the copy pass only through the compute pass. -/
def uploadChain : Registry where
  brief := ⟨4, 0, 3, 0, 0, 0, 0, none, none, ⟨0⟩⟩
  buffers := #[]
  images := #[]
  shaders := #[]
  programs := #[]
  samplers := #[]
  bindless := #[]
  passes := #[
    ⟨0, "upload", .copy, none, none, [],
      [⟨.buffer 0, some (.buffer 2), .write, 0, 0x1000, 0x1000, none⟩], []⟩,
    ⟨1, "simulate", .compute, none, none, [⟨.buffer 2, none, .read, 0, 0x800, 0x20, none⟩],
      [⟨.buffer 1, some (.buffer 3), .write, 1, 0x800, 0x40, none⟩], []⟩,
    ⟨2, "draw", .graphics, none, none, [⟨.buffer 3, none, .read, 0, 0x8, 0x4, none⟩], [], []⟩]
  passSlots := #[some 0, some 1, some 2]
  bufferForest := Forest.empty .buffer 0
  imageForest := Forest.empty .image 0

/-- Its graph: a chain of two edges. -/
def uploadChainGraph : Graph :=
  ⟨3, [⟨0, 1, .buffer 2, .readAfterWrite⟩, ⟨1, 2, .buffer 3, .readAfterWrite⟩],
    [(.buffer 2, 0), (.buffer 3, 1)]⟩

/-- Its schedule: one pass on each of three queues, on three levels. -/
def uploadChainSchedule : Schedule :=
  ⟨[0, 1, 2], #[some 0, some 1, some 2], #[0, 1, 2], #[.copy, .compute, .graphics], #[0, 0, 0],
    ⟨[2], [1], [0], []⟩, []⟩

/-- The graphics pass reaches the copy pass through the compute pass. -/
theorem uploadChain_reachLaws :
    Returns (Graph.build uploadChain) uploadChainGraph ∧
      Returns (Schedule.build uploadChain uploadChainGraph {}) uploadChainSchedule ∧
      ((SyncPlan.build uploadChainGraph uploadChainSchedule).run #[]).1.reachOf 2 .copy = some 0 ∧
      ReachLaws uploadChainGraph uploadChainSchedule
        ((SyncPlan.build uploadChainGraph uploadChainSchedule).run #[]).1 := by
  have hg : Returns (Graph.build uploadChain) uploadChainGraph := ⟨#[], by rfl⟩
  have hs : Returns (Schedule.build uploadChain uploadChainGraph {}) uploadChainSchedule :=
    ⟨#[], by cbv⟩
  exact ⟨hg, hs, by cbv, build_reach_max_ancestor hg hs rfl⟩

end RenderGraph.SyncPlan
