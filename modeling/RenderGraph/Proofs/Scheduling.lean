import RenderGraph.Proofs.Paths
import RenderGraph.Proofs.Order
/-!
# Schedules of acyclic graphs

On a dependency graph without cycles `Schedule.build` succeeds under any options: the check of
the order against the edges never fires. Every schedule it returns obeys `ScheduleLaws`
(`build_acyclic_schedules`):

* the level of a pass is the length of the longest dependency path that ends at it;
* the order lists the passes that are not culled, sorted by level and within a level by
  declaration index; without culling none is;
* a pass has a position exactly when it is not culled, and its position is its index in the
  order, so every edge between live passes runs forward;
* each queue lists the order's passes of its class, and a pass's queue index is its index there.

The schedule is `plan` of the levels (`build_eq_plan`), so each law is a fact about `plan`. The
sort is stable and its input ascends, which keeps declaration order within a level
(`mergeSort_key_sorted`); predecessors lie on lower levels (`plan_pred_before`), so the check finds
no edge out of order.
-/

namespace RenderGraph

open Logged

/-- Two members of an ascending list stand in it in ascending order. -/
theorem pair_sublist_of_lt {L : List Nat} (hL : L.Pairwise (· < ·)) {a b : Nat} (ha : a ∈ L)
    (hb : b ∈ L) (hab : a < b) : [a, b].Sublist L := by
  rcases pair_sublist_or ha hb (Nat.ne_of_lt hab) with h | h
  · exact h
  · have := List.pairwise_iff_forall_sublist.mp hL h
    omega

/-- Sorting an ascending list by a key orders it by the key, and by the element among equal
keys: the sort is stable. -/
theorem mergeSort_key_sorted {L : List Nat} (hL : L.Pairwise (· < ·)) (key : Nat → Nat) :
    (L.mergeSort fun a b => key a ≤ key b).Pairwise
      fun a b => key a < key b ∨ (key a = key b ∧ a < b) := by
  have hnodup : (L.mergeSort fun a b => key a ≤ key b).Nodup :=
    (List.mergeSort_perm _ _).nodup_iff.mpr (hL.imp Nat.ne_of_lt)
  have htrans : ∀ a b c : Nat, decide (key a ≤ key b) = true → decide (key b ≤ key c) = true →
      decide (key a ≤ key c) = true := by
    intro a b c hab hbc
    simp only [decide_eq_true_eq] at hab hbc ⊢
    omega
  have htotal : ∀ a b : Nat, (decide (key a ≤ key b) || decide (key b ≤ key a)) = true := by
    intro a b
    simp only [Bool.or_eq_true, decide_eq_true_eq]
    omega
  have hsorted := List.pairwise_mergeSort htrans htotal L
  refine List.pairwise_iff_forall_sublist.mpr fun {a b} hab => ?_
  have hle : key a ≤ key b := by
    simpa using List.pairwise_iff_forall_sublist.mp hsorted hab
  rcases Nat.lt_or_eq_of_le hle with hlt | heq
  · exact .inl hlt
  refine .inr ⟨heq, ?_⟩
  have hne : a ≠ b := by simpa using hnodup.sublist hab
  rcases Nat.lt_or_gt_of_ne hne with hlt | hgt
  · exact hlt
  · -- the input holds the tied pair the other way round, and the sort keeps it so
    have ha : a ∈ L := List.mem_mergeSort.mp (hab.subset (by simp))
    have hb : b ∈ L := List.mem_mergeSort.mp (hab.subset (by simp))
    have hba := List.pair_sublist_mergeSort htrans htotal (by simp [heq])
      (pair_sublist_of_lt hL hb ha hgt)
    have h1 := idxOf_lt_of_pair_sublist hnodup hab
    have h2 := idxOf_lt_of_pair_sublist hnodup hba
    omega

namespace Graph

/-- A built graph has one node per declared pass. -/
theorem build_passCount {r : Registry} {g : Graph} (h : Returns (Graph.build r) g) :
    g.passCount = r.passes.size := by
  obtain ⟨producers, -, rfl⟩ := build_returns h
  rfl

end Graph

namespace Schedule

/-- What a schedule of an acyclic dependency graph promises about its levels, its order, its
positions and its queues. -/
structure ScheduleLaws (r : Registry) (g : Graph) (o : BakeOptions) (s : Schedule) : Prop where
  /-- The level of a pass is the length of the longest dependency path that ends at it. -/
  level_longest : ∀ p < r.passes.size, IsGreatest {k | g.PathTo k p} (s.levelOf p)
  /-- The order lists the passes that are not culled. -/
  mem_order : ∀ p, p ∈ s.order ↔ p < r.passes.size ∧ p ∉ s.culled
  /-- Without culling no pass is culled. -/
  culled_nil : o.cullPasses = false → s.culled = []
  /-- The order is sorted by level, and within a level by declaration index. -/
  order_sorted : s.order.Pairwise
    fun a b => s.levelOf a < s.levelOf b ∨ (s.levelOf a = s.levelOf b ∧ a < b)
  /-- The position of a pass is its index in the order. -/
  position_eq : ∀ p i, s.positionOf? p = some i ↔ s.order[i]? = some p
  /-- Exactly the culled passes have no position. -/
  position_none : ∀ p < r.passes.size, s.positionOf? p = none ↔ p ∈ s.culled
  /-- Every edge between live passes runs forward in the order. -/
  edge_forward : ∀ e ∈ g.edges, ∀ i j, s.positionOf? e.producer = some i →
    s.positionOf? e.consumer = some j → i < j
  /-- A pass runs on the queue its declaration names. -/
  queueOf_eq : ∀ p, s.queueOf p = r.queueOf p
  /-- Each queue lists the order's passes of its class. -/
  queues_eq : ∀ q, s.queues.get q = s.order.filter (s.queueOf · = q)
  /-- The queue index of a pass is its index in its queue's list. -/
  queueIndex_eq : ∀ q i p, (s.queues.get q)[i]? = some p → s.queueIndexOf p = i

namespace Placement

variable {s : Schedule} {n : Nat}

/-- A pass's position is its index in the order. -/
theorem idxOf_of_position (hs : s.Placement n) {p i : Nat} (h : s.positionOf? p = some i) :
    s.order.idxOf p = i := by
  obtain ⟨hi, rfl⟩ := List.getElem?_eq_some_iff.mp ((hs.position_eq p i).mp h)
  exact hs.nodup.idxOf_getElem i hi

/-- Positions follow the order. -/
theorem position_lt (hs : s.Placement n) {p c i j : Nat} (hp : s.positionOf? p = some i)
    (hc : s.positionOf? c = some j) (h : [p, c].Sublist s.order) : i < j := by
  rw [← hs.idxOf_of_position hp, ← hs.idxOf_of_position hc]
  exact idxOf_lt_of_pair_sublist hs.nodup h

end Placement

variable {r : Registry} {g : Graph} {o : BakeOptions} {level : Array Nat}

/-- The planned order holds the passes the plan does not cull. -/
theorem plan_mem_order {p : Nat} :
    p ∈ (plan r g o level).order ↔ p < r.passes.size ∧ p ∉ (plan r g o level).culled := by
  simp only [plan, List.mem_mergeSort, List.mem_filter, List.mem_range, Bool.not_eq_true',
    not_and, Bool.not_eq_false]
  constructor
  · rintro ⟨hp, hlive⟩
    exact ⟨hp, fun _ => hlive⟩
  · rintro ⟨hp, hlive⟩
    exact ⟨hp, hlive hp⟩

/-- Without culling the plan culls nothing. -/
theorem plan_culled_nil (ho : o.cullPasses = false) : (plan r g o level).culled = [] := by
  simp only [plan, ho, Bool.false_eq_true, if_false]
  refine List.filter_eq_nil_iff.mpr fun p hp => ?_
  rw [List.mem_range] at hp
  simp [Array.getD_eq_getD_getElem?, hp]

/-- The planned order is sorted by level, and within a level by declaration index. -/
theorem plan_sorted : (plan r g o level).order.Pairwise fun a b =>
    (plan r g o level).levelOf a < (plan r g o level).levelOf b ∨
      ((plan r g o level).levelOf a = (plan r g o level).levelOf b ∧ a < b) :=
  mergeSort_key_sorted (List.pairwise_lt_range.filter _) (level.getD · 0)

/-- A planned pass has no position exactly when the plan culls it. -/
theorem plan_position_none {p : Nat} (hp : p < r.passes.size) :
    (plan r g o level).positionOf? p = none ↔ p ∈ (plan r g o level).culled := by
  have hlive := (plan_placement r g o level).isLive_iff (p := p)
  rw [isLive, plan_mem_order] at hlive
  unfold positionOf?
  constructor
  · intro h
    simp only [h, Option.isSome_none, Bool.false_eq_true, false_iff, not_and, not_not] at hlive
    exact hlive hp
  · intro hc
    cases h : (plan r g o level).position.getD p none with
    | none => rfl
    | some i =>
      simp only [h, Option.isSome_some, true_iff] at hlive
      exact absurd hc hlive.2

section Edges

variable (hg : Returns (Graph.build r) g) (hl : levels g = .ok level)
include hg hl

/-- In a plan of the levels, every edge between live passes runs forward. -/
theorem plan_edge_forward {e : Edge} (he : e ∈ g.edges) {i j : Nat}
    (hi : (plan r g o level).positionOf? e.producer = some i)
    (hj : (plan r g o level).positionOf? e.consumer = some j) : i < j := by
  have hlive : (plan r g o level).isLive e.consumer = true := by
    show ((plan r g o level).positionOf? e.consumer).isSome = true
    rw [hj]
    rfl
  have hsub := plan_pred_before hg hl (Graph.mem_preds.mpr ⟨e, he, rfl, rfl⟩) hlive
  exact (plan_placement r g o level).position_lt hi hj hsub

/-- The check of a plan of the levels finds no edge out of order. -/
theorem plan_orderViolation : orderViolation? g (plan r g o level) = none := by
  refine List.find?_eq_none.mpr fun e he => ?_
  cases hi : (plan r g o level).positionOf? e.producer with
  | none => simp
  | some i =>
    cases hj : (plan r g o level).positionOf? e.consumer with
    | none => simp
    | some j =>
      have := plan_edge_forward hg hl he hi hj
      simp only [decide_eq_true_eq]
      omega

/-- Once the levels are found, `Schedule.build` returns their plan from every journal: it only
logs the culled passes and a summary, and its check passes. -/
theorem build_yields_plan : Yields (Schedule.build r g o).run (.ok (plan r g o level)) := by
  unfold Schedule.build
  dsimp only
  rw [hl]
  refine Yields.run_bind (Yields.run_pure _) ?_
  refine Yields.run_bind (Yields.run_forIn fun _ _ =>
    Yields.run_bind (Yields.run_lift (Yields.log _ _ _)) (Yields.run_pure _)) ?_
  refine Yields.run_bind (Yields.run_lift (Yields.log _ _ _)) ?_
  rw [plan_orderViolation hg hl]
  exact Yields.run_pure _

theorem build_returns_plan : Returns (Schedule.build r g o) (plan r g o level) :=
  Returns.of_yields (build_yields_plan hg hl)

/-- A plan of the levels obeys the schedule laws. -/
theorem plan_laws : ScheduleLaws r g o (plan r g o level) := by
  have hplace := plan_placement r g o level
  have hn := Graph.build_passCount hg
  refine ⟨fun p hp => ?_, fun p => plan_mem_order, plan_culled_nil, plan_sorted,
    hplace.position_eq, fun p hp => plan_position_none hp,
    fun e he i j => plan_edge_forward hg hl he, fun p => ?_, hplace.queues_eq,
    hplace.queueIndex_eq⟩
  · exact levels_isGreatest (Graph.build_edges_lt hg) hl (hn ▸ hp)
  · simp [plan, queueOf, Registry.queueOf, Array.getD_eq_getD_getElem?]

end Edges

/-- **On an acyclic dependency graph `Schedule.build` succeeds under any options, and every
schedule it returns obeys the schedule laws.** -/
theorem build_acyclic_schedules (hg : Returns (Graph.build r) g) (hacyc : g.Acyclic)
    (o : BakeOptions) :
    (∃ s, Returns (Schedule.build r g o) s) ∧
      ∀ s, Returns (Schedule.build r g o) s → ScheduleLaws r g o s := by
  obtain ⟨level, hl⟩ := (levels_ok_iff (Graph.build_edges_lt hg)).mpr hacyc
  refine ⟨⟨_, build_returns_plan hg hl⟩, fun s hs => ?_⟩
  obtain ⟨hls, heq, -⟩ := build_eq_plan hs
  rw [heq]
  exact plan_laws hg hls

/-- Four graphics passes in a diamond: the first writes a buffer that the next two read, and the
last reads what both of those wrote. -/
def diamond : Registry where
  brief := ⟨6, 0, 4, 0, 0, 0, 0, none, none, ⟨0⟩⟩
  buffers := #[]
  images := #[]
  shaders := #[]
  programs := #[]
  samplers := #[]
  bindless := #[]
  passes := #[
    ⟨0, "A", .graphics, none, none, [], [⟨.buffer 0, some (.buffer 3), .write, 0, 0x800, 0x40, none⟩],
      []⟩,
    ⟨1, "B", .graphics, none, none, [⟨.buffer 3, none, .read, 0, 0x800, 0x20, none⟩],
      [⟨.buffer 1, some (.buffer 4), .write, 1, 0x800, 0x40, none⟩], []⟩,
    ⟨2, "C", .graphics, none, none, [⟨.buffer 3, none, .read, 0, 0x800, 0x20, none⟩],
      [⟨.buffer 2, some (.buffer 5), .write, 1, 0x800, 0x40, none⟩], []⟩,
    ⟨3, "D", .graphics, none, none, [⟨.buffer 4, none, .read, 0, 0x800, 0x20, none⟩,
      ⟨.buffer 5, none, .read, 1, 0x800, 0x20, none⟩], [], []⟩]
  passSlots := #[some 0, some 1, some 2, some 3]
  bufferForest := Forest.empty .buffer 0
  imageForest := Forest.empty .image 0

/-- Its graph: the two middle passes read the first, and the last reads both. -/
def diamondGraph : Graph :=
  ⟨4, [⟨0, 1, .buffer 3, .readAfterWrite⟩, ⟨0, 2, .buffer 3, .readAfterWrite⟩,
    ⟨1, 3, .buffer 4, .readAfterWrite⟩, ⟨2, 3, .buffer 5, .readAfterWrite⟩],
    [(.buffer 3, 0), (.buffer 4, 1), (.buffer 5, 2)]⟩

/-- The longest paths of the diamond have lengths 0, 1, 1 and 2. -/
example : levels diamondGraph = .ok #[0, 1, 1, 2] := by rfl

/-- The diamond builds an acyclic graph, so its schedule exists and obeys the laws. -/
theorem diamond_scheduleLaws :
    Returns (Graph.build diamond) diamondGraph ∧ diamondGraph.Acyclic ∧
      (∃ s, Returns (Schedule.build diamond diamondGraph {}) s) ∧
      ∀ s, Returns (Schedule.build diamond diamondGraph {}) s →
        ScheduleLaws diamond diamondGraph {} s := by
  have hg : Returns (Graph.build diamond) diamondGraph := ⟨#[], by rfl⟩
  have hacyc : diamondGraph.Acyclic :=
    (levels_ok_iff (Graph.build_edges_lt hg)).mp ⟨#[0, 1, 1, 2], by rfl⟩
  exact ⟨hg, hacyc, build_acyclic_schedules hg hacyc {}⟩

end Schedule

end RenderGraph
