import RenderGraph.Proofs.Execution
import RenderGraph.Proofs.Order
/-!
# Executions of a bake

The graph a bake emits runs safely under every interleaving of its queues
(`emit_executes_safely`, with the laws in `ExecutionLaws`):

* no reachable state is stuck while a live pass has not finished (`progress`);
* no step lowers a timeline, and a queue without an entry keeps its timeline at zero;
* a live pass starts only after the producer of each of its dependencies has finished
  (`ordered`).

The emitted frames tile every queue (`emit_framed`), so the invariant of `Execution` holds in
every reachable state. Order follows from it: on one queue the producer runs first, and across
queues some pass at or before the consumer waits for the producer's queue at or after the
producer, so its frame started only once the producer had finished (`ordered_of_inv`). Progress
takes the first unfinished live pass of the schedule's order: every pass before it has finished,
so its queue has reached it, and each of its waits names an earlier pass, which has finished and
ends a frame, so the timeline it waits for has reached it (`progress_of_inv`).
-/

namespace RenderGraph.BakedGraph

open Logged Schedule SyncPlan ExecState

/-- What every execution of a baked graph satisfies, for the dependency graph and the schedule it
was baked from. -/
structure ExecutionLaws (g : Graph) (s : Schedule) (G : BakedGraph) : Prop where
  /-- A reachable state in which some live pass has not finished has a step. -/
  progress : ∀ σ, Reachable G σ →
    (∃ p, s.isLive p = true ∧ ¬σ.Finished G (s.queueOf p) (s.queueIndexOf p)) → ∃ σ', Step G σ σ'
  /-- No step lowers a timeline. -/
  timeline_le : ∀ σ σ', Reachable G σ → Step G σ σ' → ∀ q, σ.timeline.get q ≤ σ'.timeline.get q
  /-- A queue class without an entry keeps its timeline at zero. -/
  timeline_absent : ∀ σ, Reachable G σ → ∀ q, G.queue? q = none → σ.timeline.get q = 0
  /-- Once a live pass has started, the producer of each of its dependencies has finished. -/
  ordered : ∀ σ, Reachable G σ → ∀ e ∈ g.edges, s.isLive e.producer = true →
    s.isLive e.consumer = true → σ.Started G (s.queueOf e.consumer) (s.queueIndexOf e.consumer) →
    σ.Finished G (s.queueOf e.producer) (s.queueIndexOf e.producer)

section Laws

variable {r : Registry} {g : Graph} {s : Schedule} {j : Journal} {sync : SyncPlan} {m : MemoryPlan}
  {G : BakedGraph}

/-- The frames of an emitted graph tile its queues. -/
theorem emit_framed {n : Nat} (hs : s.Placement n) (hp : ((SyncPlan.build g s).run j).1 = sync)
    (he : emit r s sync m = .ok G) : G.Framed := by
  intro q
  rw [length_emit_passesOf he q]
  exact (emit_frameLaws hs hp he q).tiling

theorem waits_build (hp : ((SyncPlan.build g s).run j).1 = sync) (c : Nat) :
    sync.waits.getD c [] = (keptTable g s).getD c [] := by
  rw [← hp, build_yields g s j]

/-- A pass with kept waits opens a frame of its queue that waits for them. -/
theorem kept_opens_frame (hs : s.Placement g.passCount) (hp : ((SyncPlan.build g s).run j).1 = sync)
    (he : emit r s sync m = .ok G) {c : Nat} (hc : c ∈ s.order) {w : SyncEntry}
    (hw : w ∈ (keptTable g s).getD c []) :
    ∃ f ∈ G.framesFor (s.queueOf c), f.first = s.queueIndexOf c ∧ w ∈ f.waits := by
  rw [← waits_build hp] at hw
  have hlaws := emit_frameLaws hs hp he (s.queueOf c)
  obtain ⟨f, hf, hfirst⟩ := hlaws.opens _ c (hs.getElem?_queues hc) (List.ne_nil_of_mem hw)
  have hfw := hlaws.waits_eq f hf c (by rw [hfirst]; exact hs.getElem?_queues hc)
  exact ⟨f, hf, hfirst, hfw ▸ hw⟩

/-- Once the pass at queue index `i` of a queue has started, every wait kept for a pass at or
before it on that queue has finished: the frame that pass opens started. -/
theorem finished_of_kept (hs : s.Placement g.passCount) (hp : ((SyncPlan.build g s).run j).1 = sync)
    (he : emit r s sync m = .ok G) {σ : ExecState} (hinv : ExecInv G σ) {c : Nat} (hc : c ∈ s.order)
    {i : Nat} (hidx : s.queueIndexOf c ≤ i) (hstart : σ.Started G (s.queueOf c) i) {w : SyncEntry}
    (hw : w ∈ (keptTable g s).getD c []) : σ.Finished G w.queue w.index := by
  obtain ⟨f, hf, hfirst, hwf⟩ := kept_opens_frame hs hp he hc hw
  exact hinv.waits_done _ f hf (hfirst ▸ hstart.of_le hidx) w hwf

/-- In a reachable state, the producer of an edge into a started live pass has finished. -/
theorem ordered_of_inv {o : BakeOptions} (hg : Returns (Graph.build r) g)
    (hsch : Returns (Schedule.build r g o) s) (hs : s.Placement g.passCount)
    (hp : ((SyncPlan.build g s).run j).1 = sync) (he : emit r s sync m = .ok G) {σ : ExecState}
    (hinv : ExecInv G σ) {e : Edge} (hedge : e ∈ g.edges) (hlp : s.isLive e.producer = true)
    (hlc : s.isLive e.consumer = true)
    (hstart : σ.Started G (s.queueOf e.consumer) (s.queueIndexOf e.consumer)) :
    σ.Finished G (s.queueOf e.producer) (s.queueIndexOf e.producer) := by
  have hpc : e.producer ∈ g.preds e.consumer := Graph.mem_preds.mpr ⟨e, hedge, rfl, rfl⟩
  by_cases hq : s.queueOf e.producer = s.queueOf e.consumer
  · -- on one queue the producer comes first
    have hlt : s.queueIndexOf e.producer < s.queueIndexOf e.consumer :=
      (hs.queueIndexOf_lt_iff (hs.isLive_iff.mp hlp) (hs.isLive_iff.mp hlc) hq).mpr
        (build_pred_before hg hsch hpc hlc)
    rw [hq]
    exact hstart.finished_of_lt hlt
  · -- across queues, a pass at or before the consumer waits for the producer's queue at or after
    -- the producer
    obtain ⟨c', hc', hq', hidx, w, hw, hwq, hwi⟩ := keptTable_edge_covered hs hedge hlc hq
    have hdone := finished_of_kept hs hp he hinv hc' hidx (hq' ▸ hstart) hw
    unfold Finished at hdone ⊢
    rw [hwq] at hdone
    omega

/-- While a live pass has not finished, a first one in the order has not, and every pass before
it in the order has. -/
theorem exists_first_unfinished (hs : s.Placement g.passCount) {σ : ExecState}
    (hunf : ∃ p, s.isLive p = true ∧ ¬σ.Finished G (s.queueOf p) (s.queueIndexOf p)) :
    ∃ c ∈ s.order, ¬σ.Finished G (s.queueOf c) (s.queueIndexOf c) ∧
      ∀ p ∈ s.order, s.order.idxOf p < s.order.idxOf c →
        σ.Finished G (s.queueOf p) (s.queueIndexOf p) := by
  classical
  have hex : ∃ i : Nat, ∃ c, s.order[i]? = some c ∧ ¬σ.Finished G (s.queueOf c) (s.queueIndexOf c) := by
    obtain ⟨p, hl, hu⟩ := hunf
    obtain ⟨i, hi⟩ := List.mem_iff_getElem?.mp (hs.isLive_iff.mp hl)
    exact ⟨i, p, hi, hu⟩
  obtain ⟨c, hc, hcu⟩ := Nat.find_spec hex
  have hcidx : s.order.idxOf c = Nat.find hex := by
    obtain ⟨hlt, rfl⟩ := List.getElem?_eq_some_iff.mp hc
    exact hs.nodup.idxOf_getElem _ hlt
  refine ⟨c, List.mem_of_getElem? hc, hcu, fun p hp hlt => ?_⟩
  by_contra hpu
  rw [hcidx] at hlt
  exact Nat.find_min hex hlt ⟨p, List.getElem?_idxOf hp, hpu⟩

/-- Once every pass before `c` in the order has finished, so has the pass before `c` on its
queue: the queue has got at least to `c`. -/
theorem le_next_of_first_unfinished (hs : s.Placement g.passCount) {σ : ExecState} {c : Nat}
    (hcmem : c ∈ s.order)
    (hmin : ∀ p ∈ s.order, s.order.idxOf p < s.order.idxOf c →
      σ.Finished G (s.queueOf p) (s.queueIndexOf p)) :
    s.queueIndexOf c ≤ σ.next G (s.queueOf c) := by
  rcases Nat.eq_zero_or_pos (s.queueIndexOf c) with h0 | hpos
  · omega
  · have hlt : s.queueIndexOf c - 1 < (s.queues.get (s.queueOf c)).length := by
      have := hs.queueIndexOf_lt hcmem
      omega
    obtain ⟨c₀, hc₀⟩ : ∃ c₀, (s.queues.get (s.queueOf c))[s.queueIndexOf c - 1]? = some c₀ :=
      ⟨_, List.getElem?_eq_getElem hlt⟩
    obtain ⟨hc₀mem, hc₀q⟩ := hs.mem_queues_iff.mp (List.mem_of_getElem? hc₀)
    have hc₀i := hs.queueIndex_eq _ _ c₀ hc₀
    have hsub := (hs.queueIndexOf_lt_iff hc₀mem hcmem hc₀q).mp (by omega)
    have hfin := hmin c₀ hc₀mem (idxOf_lt_of_pair_sublist hs.nodup hsub)
    unfold Finished at hfin
    rw [hc₀q, hc₀i] at hfin
    omega

/-- In a reachable state, some step is possible while a live pass has not finished. -/
theorem progress_of_inv (hs : s.Placement g.passCount)
    (hpred : ∀ c ∈ s.order, ∀ p ∈ g.preds c, p ∈ s.order ∧ s.order.idxOf p < s.order.idxOf c)
    (hp : ((SyncPlan.build g s).run j).1 = sync) (he : emit r s sync m = .ok G) (hG : G.Framed)
    {σ : ExecState} (hinv : ExecInv G σ)
    (hunf : ∃ p, s.isLive p = true ∧ ¬σ.Finished G (s.queueOf p) (s.queueIndexOf p)) :
    ∃ σ', Step G σ σ' := by
  by_cases hbusy : ∃ q, (σ.cursor.get q).running = true
  · obtain ⟨q, hq⟩ := hbusy
    exact hinv.finish_enabled hq
  have hidle : ∀ q, (σ.cursor.get q).running = false := fun q => by
    simpa using fun h => hbusy ⟨q, h⟩
  -- the first unfinished live pass of the order, which its queue has reached
  obtain ⟨c, hcmem, hcu, hmin⟩ := exists_first_unfinished hs hunf
  have hle : σ.next G (s.queueOf c) ≤ s.queueIndexOf c := Nat.not_lt.mp hcu
  have hge := le_next_of_first_unfinished hs hcmem hmin
  refine hinv.start_enabled hG (hidle (s.queueOf c)) ?_ ?_
  · rw [length_emit_passesOf he]
    have := hs.queueIndexOf_lt hcmem
    omega
  · intro f hf hpos w hw
    -- the current frame starts at the pass, so it waits for what the pass waits for
    have hk := (List.getElem?_eq_some_iff.mp hf).1
    have hfirst : f.first = s.queueIndexOf c := by
      have hcons := (hG (s.queueOf c)).consecutive _ hk
      rw [(List.getElem?_eq_some_iff.mp hf).2] at hcons
      unfold next at hle hge
      omega
    have hwaits : f.waits = sync.waits.getD c [] :=
      (emit_frameLaws hs hp he _).waits_eq f (List.mem_of_getElem? hf) c
        (by rw [hfirst]; exact hs.getElem?_queues hcmem)
    rw [hwaits] at hw
    -- the waited pass comes earlier in the order, so it has finished, and its frame ends at it
    obtain ⟨p', hp', hq', hi', hlt'⟩ := waitsOf_from hs hpred j (hp ▸ hw)
    have hfin := hmin p' hp' hlt'
    unfold Finished at hfin
    rw [hq', hi'] at hfin
    have hwlt : w.index < (s.queues.get w.queue).length := by
      rw [← hq', ← hi']
      exact hs.queueIndexOf_lt hp'
    obtain ⟨f', hf', hend⟩ :=
      (emit_frameLaws hs hp he w.queue).closes w.index hwlt (mem_flatten_of_mem_getD hw)
    have := hinv.timeline_ge hG hf' (by omega)
    unfold SyncEntry.timelineValue
    omega

end Laws

/-- **Every interleaving of the queues of a baked graph runs its passes in dependency order
without getting stuck**: for every registry whose graph is scheduled, the graph emitted from the
schedule and its synchronization plan, with any memory plan, obeys `ExecutionLaws`. -/
theorem emit_executes_safely {r : Registry} {o : BakeOptions} {g : Graph} {s : Schedule}
    {j : Journal} {sync : SyncPlan} {m : MemoryPlan} {G : BakedGraph}
    (hg : Returns (Graph.build r) g) (hsch : Returns (Schedule.build r g o) s)
    (hp : ((SyncPlan.build g s).run j).1 = sync) (he : emit r s sync m = .ok G) :
    ExecutionLaws g s G := by
  obtain ⟨producers, -, hgeq⟩ := Graph.build_returns hg
  have hs : s.Placement g.passCount := by
    rw [hgeq]
    exact build_placement hsch
  have hG := emit_framed hs hp he
  refine ⟨fun σ hσ hunf => ?_, fun σ σ' hσ hstep q => (hσ.inv hG).timeline_le hG hstep q,
    fun σ hσ q hq => ?_, fun σ hσ e hedge hlp hlc hstart => ?_⟩
  · exact progress_of_inv hs (fun c hc p hpc => build_preds_earlier hg hsch hc hpc) hp he hG
      (hσ.inv hG) hunf
  · refine (hσ.inv hG).timeline_eq_zero ?_
    rw [framesFor, hq]
    rfl
  · exact ordered_of_inv hg hsch hs hp he (hσ.inv hG) hedge hlp hlc hstart

/-- A memory plan that puts both buffers of `computeFeedsGraphics` into bucket 0. -/
def computeFeedsGraphicsMemory : MemoryPlan := ⟨#[], [(.buffer 0, 0), (.buffer 1, 0)], [], []⟩

/-- The graph emitted for it: the graphics queue runs both graphics passes in one frame that
waits for the compute pass, and the compute queue runs the compute pass alone. -/
def computeFeedsGraphicsBaked : BakedGraph :=
  ⟨[], [], [
    ⟨.graphics, [⟨.graphics, 0, 2, [⟨.compute, 0⟩], 2⟩], [
      ⟨1, "draw", .graphics, 1, 0, 1, none, [⟨.buffer 1, none, 0, 0, .read, 0x8, 0x4, none⟩],
        [⟨.compute, 0⟩]⟩,
      ⟨2, "post", .graphics, 2, 1, 1, none, [⟨.buffer 1, none, 0, 0, .read, 0x80, 0x4, none⟩], []⟩]⟩,
    ⟨.compute, [⟨.compute, 0, 1, [], 1⟩], [
      ⟨0, "simulate", .compute, 0, 0, 0, none,
        [⟨.buffer 0, some (.buffer 1), 0, 0, .write, 0x800, 0x40, none⟩], []⟩]⟩]⟩

theorem computeFeedsGraphics_executionLaws :
    Returns (Graph.build computeFeedsGraphics) computeFeedsGraphicsGraph ∧
      Returns (Schedule.build computeFeedsGraphics computeFeedsGraphicsGraph {})
        computeFeedsGraphicsSchedule ∧
      ((SyncPlan.build computeFeedsGraphicsGraph computeFeedsGraphicsSchedule).run #[]).1 =
        computeFeedsGraphicsPlan ∧
      emit computeFeedsGraphics computeFeedsGraphicsSchedule computeFeedsGraphicsPlan
        computeFeedsGraphicsMemory = .ok computeFeedsGraphicsBaked ∧
      ExecutionLaws computeFeedsGraphicsGraph computeFeedsGraphicsSchedule computeFeedsGraphicsBaked := by
  have hg : Returns (Graph.build computeFeedsGraphics) computeFeedsGraphicsGraph := ⟨#[], by rfl⟩
  have hs : Returns (Schedule.build computeFeedsGraphics computeFeedsGraphicsGraph {})
      computeFeedsGraphicsSchedule := ⟨#[], by cbv⟩
  have hp : ((SyncPlan.build computeFeedsGraphicsGraph computeFeedsGraphicsSchedule).run #[]).1 =
      computeFeedsGraphicsPlan := by cbv
  have he : emit computeFeedsGraphics computeFeedsGraphicsSchedule computeFeedsGraphicsPlan
      computeFeedsGraphicsMemory = .ok computeFeedsGraphicsBaked := by rfl
  exact ⟨hg, hs, hp, he, emit_executes_safely hg hs hp he⟩

end RenderGraph.BakedGraph
