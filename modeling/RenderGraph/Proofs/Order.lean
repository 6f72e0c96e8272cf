import RenderGraph.Proofs.Levels
import RenderGraph.Proofs.Placement
import RenderGraph.Proofs.Dependencies
/-!
# The order of a schedule

A successful schedule orders the live passes so that every dependency runs first: the producer of
an edge into a live pass is live, and it stands before the consumer in the order
(`build_pred_before`). Along one queue, the order of the queue list is the order of the schedule
(`Placement.queueIndexOf_lt_iff`).

Liveness comes from `markLive`, a work-list walk with fuel: while it runs, a live pass has each
predecessor live or waiting in the list (`Pending`), and each step takes one unit of a weight, the
list's length plus the predecessors of the passes not yet live, so the fuel never runs out
(`markLive_closed`). The order comes from the levels, sorted: a predecessor lies on a lower level
(`levels_lt`), hence before.
-/

namespace RenderGraph

/-! ### Pairs in a list -/

/-- Two distinct members of a list stand in it one before the other. -/
theorem pair_sublist_or {α : Type} {L : List α} {a b : α} (ha : a ∈ L) (hb : b ∈ L) (hne : a ≠ b) :
    [a, b].Sublist L ∨ [b, a].Sublist L := by
  induction L with
  | nil => cases ha
  | cons x xs ih =>
    by_cases hax : a = x
    · subst hax
      have hb' : b ∈ xs := (List.mem_cons.mp hb).resolve_left (Ne.symm hne)
      exact .inl ((List.singleton_sublist.mpr hb').cons_cons a)
    have ha' : a ∈ xs := (List.mem_cons.mp ha).resolve_left hax
    by_cases hbx : b = x
    · subst hbx
      exact .inr ((List.singleton_sublist.mpr ha').cons_cons b)
    have hb' : b ∈ xs := (List.mem_cons.mp hb).resolve_left hbx
    rcases ih ha' hb' with h | h
    · exact .inl (h.cons x)
    · exact .inr (h.cons x)

/-- In a list without duplicates, the first of a pair has the smaller index. -/
theorem idxOf_lt_of_pair_sublist {L : List Nat} (hL : L.Nodup) {a b : Nat} (h : [a, b].Sublist L) :
    L.idxOf a < L.idxOf b := by
  have hpair : L.Pairwise (fun x y => L.idxOf x < L.idxOf y) := by
    rw [List.pairwise_iff_getElem]
    intro i j hi hj hij
    rw [hL.idxOf_getElem, hL.idxOf_getElem]
    exact hij
  exact List.pairwise_iff_forall_sublist.mp hpair h

/-! ### Live passes -/

open Logged

namespace Schedule

variable {g : Graph}

/-- Every live pass below the pass count has each predecessor live or waiting in the work list. -/
def Pending (g : Graph) (work : List Nat) (live : Array Bool) : Prop :=
  ∀ v < g.passCount, live.getD v true = true → ∀ p ∈ g.preds v, live.getD p true = true ∨ p ∈ work

/-- The predecessors of the passes not yet live. -/
def deadWeight (g : Graph) (live : Array Bool) : Nat :=
  ∑ u ∈ (Finset.range g.passCount).filter (fun u => live.getD u true = false), (g.preds u).length

theorem lt_of_getD_false {live : Array Bool} {p : Nat} (h : live.getD p true = false) :
    p < live.size := by
  by_contra hp
  rw [Array.getD_eq_getD_getElem?, Array.getElem?_eq_none (by omega)] at h
  cases h

theorem getD_set!_true {live : Array Bool} {p : Nat} (hp : live.getD p true = false) (u : Nat) :
    (live.set! p true).getD u true = if u = p then true else live.getD u true :=
  Array.getD_set! live (lt_of_getD_false hp) true u true

theorem getD_set!_true_of_true {live : Array Bool} {p u : Nat} (hp : live.getD p true = false)
    (hu : live.getD u true = true) : (live.set! p true).getD u true = true := by
  rw [getD_set!_true hp]
  split <;> [rfl; exact hu]

/-- Popping a pass that is already live keeps the list pending. -/
theorem Pending.pop {work : List Nat} {live : Array Bool} {p : Nat} (h : Pending g (p :: work) live)
    (hp : live.getD p true = true) : Pending g work live := by
  intro v hv hlive q hq
  rcases h v hv hlive q hq with hq | hq
  · exact .inl hq
  rcases List.mem_cons.mp hq with rfl | hq
  · exact .inl hp
  · exact .inr hq

/-- Marking a popped pass live and pushing its predecessors not yet live keeps the list
pending. -/
theorem Pending.mark {work : List Nat} {live : Array Bool} {p : Nat} (h : Pending g (p :: work) live)
    (hp : live.getD p true = false) :
    Pending g ((g.preds p).filter (fun q => !live.getD q true) ++ work) (live.set! p true) := by
  intro v hv hlive q hq
  rw [getD_set!_true hp] at hlive
  by_cases hvp : v = p
  · -- the new live pass: each predecessor was live or is pushed now
    subst hvp
    by_cases hql : live.getD q true = true
    · exact .inl (getD_set!_true_of_true hp hql)
    · exact .inr (List.mem_append_left _ (List.mem_filter.mpr ⟨hq, by simpa using hql⟩))
  · rw [if_neg hvp] at hlive
    rcases h v hv hlive q hq with hq | hq
    · exact .inl (getD_set!_true_of_true hp hq)
    rcases List.mem_cons.mp hq with rfl | hq
    · exact .inl (by rw [getD_set!_true hp, if_pos rfl])
    · exact .inr (List.mem_append_right _ hq)

/-- Marking a pass live takes its predecessors out of the weight, which pays for pushing those
not yet live. -/
theorem deadWeight_mark {live : Array Bool} {p : Nat} (hsize : live.size = g.passCount)
    (hp : live.getD p true = false) :
    ((g.preds p).filter (fun q => !live.getD q true)).length + deadWeight g (live.set! p true) ≤
      deadWeight g live := by
  have hw := Array.sum_filter_set! live hsize (hsize ▸ lt_of_getD_false hp) true true
    (· = false) (fun u => (g.preds u).length) hp (by decide)
  have hlen := List.length_filter_le (fun q => !live.getD q true) (g.preds p)
  unfold deadWeight
  omega

/-- A work-list walk with more fuel than weight runs to its end: every live pass then has live
predecessors, passes live before stay live, and every pass of the list is live. -/
theorem markLive_closed (fuel : Nat) {work : List Nat} {live : Array Bool}
    (hsize : live.size = g.passCount) (h : Pending g work live)
    (hfuel : work.length + deadWeight g live < fuel) :
    Pending g [] (markLive g fuel work live) ∧
      (∀ u, live.getD u true = true → (markLive g fuel work live).getD u true = true) ∧
      ∀ u ∈ work, (markLive g fuel work live).getD u true = true := by
  -- the weight, the list's length plus `deadWeight`, drops at every step and bounds the fuel
  fun_induction markLive g fuel work live with
  | case1 => omega
  | case2 live =>
    refine ⟨fun v hv hlive p hp => ?_, fun _ hu => hu, by simp⟩
    rcases h v hv hlive p hp with hp | hp
    · exact .inl hp
    · cases hp
  | case3 fuel p rest live hp ih =>
    obtain ⟨hpend, hmono, hwork⟩ := ih hsize (h.pop hp)
      (by simp only [List.length_cons] at hfuel; omega)
    refine ⟨hpend, hmono, fun u hu => ?_⟩
    rcases List.mem_cons.mp hu with rfl | hu
    · exact hmono u hp
    · exact hwork u hu
  | case4 fuel p rest live hp ih =>
    have hp : live.getD p true = false := by simpa using hp
    have hweight := deadWeight_mark hsize hp
    obtain ⟨hpend, hmono, hwork⟩ := ih (by simp [hsize]) (h.mark hp)
      (by simp only [List.length_append, List.length_cons] at hfuel ⊢; omega)
    refine ⟨hpend, fun u hu => hmono u (getD_set!_true_of_true hp hu), fun u hu => ?_⟩
    rcases List.mem_cons.mp hu with rfl | hu
    · exact hmono u (by rw [getD_set!_true hp, if_pos rfl])
    · exact hwork u (List.mem_append_right _ hu)

theorem size_markLive (fuel : Nat) (work : List Nat) (live : Array Bool) :
    (markLive g fuel work live).size = live.size := by
  induction fuel generalizing work live with
  | zero => rfl
  | succ fuel ih =>
    cases work with
    | nil => rfl
    | cons p rest =>
      unfold markLive
      split
      · exact ih rest live
      · rw [ih]
        simp

/-- The walk `livePasses` runs ends with its live passes closed under predecessors and every seed
live. -/
theorem livePasses_closed_seeds {r : Registry} (hn : g.passCount = r.passes.size) :
    Pending g [] (livePasses r g) ∧ ∀ u ∈ (List.range r.passes.size).filter
      (fun i => (r.passes[i]?.map (observable r)).getD false), (livePasses r g).getD u true = true := by
  unfold livePasses
  have hinit : Pending g ((List.range r.passes.size).filter fun i =>
      (r.passes[i]?.map (observable r)).getD false) (Array.replicate r.passes.size false) := by
    intro v hv hlive
    simp [Array.getD_eq_getD_getElem?, hn ▸ hv] at hlive
  have hdead : deadWeight g (Array.replicate r.passes.size false) ≤ g.edges.length :=
    (Finset.sum_le_sum_of_subset (Finset.filter_subset _ _)).trans (sum_length_preds_le _)
  have hseeds := List.length_filter_le (fun i => (r.passes[i]?.map (observable r)).getD false)
    (List.range r.passes.size)
  rw [List.length_range] at hseeds
  obtain ⟨hpend, -, hwork⟩ := markLive_closed (r.passes.size + g.edges.length + 1) (by simp [hn]) hinit
    (by omega)
  exact ⟨hpend, hwork⟩

/-- The passes `livePasses` marks live have live predecessors. -/
theorem livePasses_closed {r : Registry} (hn : g.passCount = r.passes.size) {v : Nat}
    (hv : v < g.passCount) (hlive : (livePasses r g).getD v true = true) {p : Nat}
    (hp : p ∈ g.preds v) : (livePasses r g).getD p true = true := by
  rcases (livePasses_closed_seeds hn).1 v hv hlive p hp with h | h
  · exact h
  · cases h

variable {r : Registry} {o : BakeOptions} {s : Schedule} {level : Array Nat}

/-- A live pass of a planned schedule is one the liveness array marks, below the pass count. -/
theorem isLive_plan_iff {p : Nat} :
    (plan r g o level).isLive p = true ↔ p < r.passes.size ∧
      (if o.cullPasses then livePasses r g else Array.replicate r.passes.size true).getD p false = true := by
  rw [(plan_placement r g o level).isLive_iff, plan, List.mem_mergeSort, List.mem_filter, List.mem_range]

/-- A live pass is one the schedule's liveness array marks, below the pass count. -/
theorem isLive_iff_of_build (hs : Returns (Schedule.build r g o) s) {p : Nat} :
    s.isLive p = true ↔ p < r.passes.size ∧
      (if o.cullPasses then livePasses r g else Array.replicate r.passes.size true).getD p false = true := by
  obtain ⟨-, heq, -⟩ := build_eq_plan hs
  rw [heq]
  exact isLive_plan_iff

/-- **Every predecessor of a live pass is live.** -/
theorem plan_pred_live (hg : Returns (Graph.build r) g) {p c : Nat} (hp : p ∈ g.preds c)
    (hc : (plan r g o level).isLive c = true) : (plan r g o level).isLive p = true := by
  obtain ⟨producers, -, hgeq⟩ := Graph.build_returns hg
  have hn : g.passCount = r.passes.size := by rw [hgeq]
  obtain ⟨e, he, rfl, rfl⟩ := Graph.mem_preds.mp hp
  have hlt := Graph.build_edges_lt hg e he
  rw [isLive_plan_iff] at hc ⊢
  refine ⟨hn ▸ hlt.1, ?_⟩
  split
  · -- culling: `livePasses` is closed under predecessors
    rename_i hcull
    rw [if_pos hcull] at hc
    have hsize : (livePasses r g).size = r.passes.size := by
      simp [livePasses, size_markLive]
    have hpl := livePasses_closed hn hlt.2
      (by rw [Array.getD_default_of_lt (by omega) true false]; exact hc.2) hp
    rwa [Array.getD_default_of_lt (by omega) false true]
  · simp [Array.getD_eq_getD_getElem?, hn ▸ hlt.1]

theorem build_pred_live (hg : Returns (Graph.build r) g) (hs : Returns (Schedule.build r g o) s)
    {p c : Nat} (hp : p ∈ g.preds c) (hc : s.isLive c = true) : s.isLive p = true := by
  obtain ⟨-, heq, -⟩ := build_eq_plan hs
  rw [heq] at hc ⊢
  exact plan_pred_live hg hp hc

/-- **A live pass comes after each of its predecessors in a schedule planned from the levels.** -/
theorem plan_pred_before (hg : Returns (Graph.build r) g) (hl : levels g = .ok level) {p c : Nat}
    (hp : p ∈ g.preds c) (hc : (plan r g o level).isLive c = true) :
    [p, c].Sublist (plan r g o level).order := by
  have hplace := plan_placement r g o level
  have hlt := Graph.build_edges_lt hg
  obtain ⟨e, he, rfl, rfl⟩ := Graph.mem_preds.mp hp
  have hlevel := levels_lt hl (hlt e he).2 hp
  have hpo := hplace.isLive_iff.mp (plan_pred_live hg hp hc)
  have hco := hplace.isLive_iff.mp hc
  rcases pair_sublist_or hpo hco (fun h => by rw [h] at hlevel; omega) with h | h
  · exact h
  · -- the order is sorted by level, so the consumer cannot come first
    have hsorted : (plan r g o level).order.Pairwise
        (fun a b => decide (level.getD a 0 ≤ level.getD b 0) = true) :=
      List.pairwise_mergeSort (fun a b c hab hbc => by simp at hab hbc ⊢; omega)
        (fun a b => by simp; omega) _
    have := List.pairwise_iff_forall_sublist.mp hsorted h
    simp only [decide_eq_true_eq] at this
    omega

theorem build_pred_before (hg : Returns (Graph.build r) g) (hs : Returns (Schedule.build r g o) s)
    {p c : Nat} (hp : p ∈ g.preds c) (hc : s.isLive c = true) : [p, c].Sublist s.order := by
  obtain ⟨hl, heq, -⟩ := build_eq_plan hs
  rw [heq] at hc ⊢
  exact plan_pred_before hg hl hp hc

/-- The predecessors of a live pass are live and come before it in the order. -/
theorem build_preds_earlier (hg : Returns (Graph.build r) g) (hs : Returns (Schedule.build r g o) s)
    {c : Nat} (hc : c ∈ s.order) {p : Nat} (hp : p ∈ g.preds c) :
    p ∈ s.order ∧ s.order.idxOf p < s.order.idxOf c := by
  have hplace := build_placement hs
  have hlive : s.isLive c = true := hplace.isLive_iff.mpr hc
  exact ⟨hplace.isLive_iff.mp (build_pred_live hg hs hp hlive),
    idxOf_lt_of_pair_sublist hplace.nodup (build_pred_before hg hs hp hlive)⟩

namespace Placement

variable {n : Nat}

/-- A live pass's place in its queue list is its queue index. -/
theorem idxOf_queues (hs : s.Placement n) {p : Nat} (hp : p ∈ s.order) :
    (s.queues.get (s.queueOf p)).idxOf p = s.queueIndexOf p := by
  obtain ⟨hlt, heq⟩ := List.getElem?_eq_some_iff.mp (hs.getElem?_queues hp)
  have := (hs.nodup_queues (s.queueOf p)).idxOf_getElem _ hlt
  rwa [heq] at this

/-- **Along one queue, queue indices follow the order of the schedule.** -/
theorem queueIndexOf_lt_iff (hs : s.Placement n) {p c : Nat} (hp : p ∈ s.order)
    (hc : c ∈ s.order) (hq : s.queueOf p = s.queueOf c) :
    s.queueIndexOf p < s.queueIndexOf c ↔ [p, c].Sublist s.order := by
  have hpQ : p ∈ s.queues.get (s.queueOf c) := hs.mem_queues_iff.mpr ⟨hp, hq⟩
  have hcQ : c ∈ s.queues.get (s.queueOf c) := hs.mem_queues_iff.mpr ⟨hc, rfl⟩
  -- a pair of the order, both on the queue, is a pair of the queue list
  have hsub : ∀ {a b : Nat}, a ∈ s.queues.get (s.queueOf c) → b ∈ s.queues.get (s.queueOf c) →
      [a, b].Sublist s.order → [a, b].Sublist (s.queues.get (s.queueOf c)) := by
    intro a b ha hb h
    have ha := (hs.mem_queues_iff.mp ha).2
    have hb := (hs.mem_queues_iff.mp hb).2
    rw [hs.queues_eq]
    simpa [ha, hb] using h.filter (fun x => decide (s.queueOf x = s.queueOf c))
  have hidx := idxOf_queues hs hp
  rw [hq] at hidx
  have hidc := idxOf_queues hs hc
  constructor
  · intro hlt
    rcases pair_sublist_or hp hc (fun h => by subst h; omega) with h | h
    · exact h
    · have := idxOf_lt_of_pair_sublist (hs.nodup_queues _) (hsub hcQ hpQ h)
      omega
  · intro h
    have := idxOf_lt_of_pair_sublist (hs.nodup_queues _) (hsub hpQ hcQ h)
    omega

end Placement

end Schedule

end RenderGraph
