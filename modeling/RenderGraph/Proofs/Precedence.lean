import RenderGraph.Proofs.Interleaving
import RenderGraph.Proofs.Simulation
/-!
# What happens-before promises

`SyncPlan.happensBefore s a b` decides that pass `a` finishes before pass `b` starts: on one queue
by queue index, across queues when `b` reaches `a`'s queue at `a`'s index or later. That reach
entry is a raw wait of `b`; minimizing keeps it, or a wait at least as far on the same queue, for
`b` or a pass before it on `b`'s queue (`happensBefore_covered`). So the promise holds of the
graph a bake emits, both ways it can run (`emit_respects_happensBefore`, with the laws in
`PrecedenceLaws`):

* in every execution, once `b` has started, `a` has finished (`finished_of_happensBefore`): the
  frame that holds the kept wait started only once the waited pass, at or after `a`, had finished;
* the dry-run simulation succeeds, and `a` ends no later than `b` starts, `b`'s start being its
  end less its cost (`simulate_happensBefore`): the simulation starts that frame no earlier than
  the end of the waited pass.

The simulation applies because an emitted graph is `Runnable` (`emit_runnable`) and its executions
never get stuck (`emit_noDeadlock`, from `progress_of_inv`). Every dependency between live passes
is such a pair (`happensBefore_of_edge`).
-/

namespace RenderGraph.BakedGraph

open Logged Schedule SyncPlan ExecState Simulation

/-- What `happensBefore` promises of a graph baked from a schedule and its plan. -/
structure PrecedenceLaws (s : Schedule) (sync : SyncPlan) (G : BakedGraph) : Prop where
  /-- In every execution, a pass that happens before a started pass has finished. -/
  executed : ∀ σ, Reachable G σ → ∀ a b, sync.happensBefore s a b = true →
    σ.Started G (s.queueOf b) (s.queueIndexOf b) → σ.Finished G (s.queueOf a) (s.queueIndexOf a)
  /-- The simulation succeeds, and a pass that happens before another ends no later than the
  other starts: at least the other's cost before the other ends. -/
  simulated : Succeeds (simulate G) fun out => ∀ a b, sync.happensBefore s a b = true →
    ∃ ea eb p, endOf? out.1 (s.queueOf a) (s.queueIndexOf a) = some ea ∧
      endOf? out.1 (s.queueOf b) (s.queueIndexOf b) = some eb ∧
      (G.passesOf (s.queueOf b))[s.queueIndexOf b]? = some p ∧ ea + passCost p ≤ eb

section Laws

variable {r : Registry} {g : Graph} {s : Schedule} {j : Journal} {sync : SyncPlan} {m : MemoryPlan}
  {G : BakedGraph}

theorem reach_build (hp : ((SyncPlan.build g s).run j).1 = sync) : sync.reach = reachTable g s := by
  rw [← hp, build_yields g s j]

/-- A pass that happens before another is live and before it on its queue, or some pass at or
before the other on the other's queue keeps a wait for its queue at or after it. -/
theorem happensBefore_covered (hs : s.Placement g.passCount)
    (hp : ((SyncPlan.build g s).run j).1 = sync) {a b : Nat} (hab : sync.happensBefore s a b = true) :
    a ∈ s.order ∧ b ∈ s.order ∧
      ((s.queueOf a = s.queueOf b ∧ s.queueIndexOf a < s.queueIndexOf b) ∨
        ∃ c ∈ s.order, s.queueOf c = s.queueOf b ∧ s.queueIndexOf c ≤ s.queueIndexOf b ∧
          ∃ w ∈ (keptTable g s).getD c [], w.queue = s.queueOf a ∧ s.queueIndexOf a ≤ w.index) := by
  unfold happensBefore at hab
  split at hab
  · exact absurd hab Bool.false_ne_true
  rename_i hlive
  simp only [Bool.or_eq_true, decide_eq_true_eq, Bool.not_eq_true', not_or, Bool.not_eq_false]
    at hlive
  obtain ⟨⟨-, hla⟩, hlb⟩ := hlive
  refine ⟨hs.isLive_iff.mp hla, hs.isLive_iff.mp hlb, ?_⟩
  dsimp only at hab
  split at hab
  · exact .inl ⟨‹_›, of_decide_eq_true hab⟩
  · rename_i hq
    cases hi : sync.reachOf b (s.queueOf a) with
    | none => simp [hi] at hab
    | some i =>
      simp only [hi, decide_eq_true_eq] at hab
      -- the reach entry is a raw wait of `b`, covered by a kept wait
      have hraw : ⟨s.queueOf a, i⟩ ∈ (rawTable g s).getD b [] := by
        rw [getD_rawTable hs, mem_rawWaitsOf]
        exact ⟨hlb, hq, by rw [← reach_build hp]; exact hi⟩
      obtain ⟨c, hc, hcq, hidx, w, hw, hwq, hwi⟩ := rawWait_covered hs hraw
      exact .inr ⟨c, hc, hcq, hidx, w, hw, hwq, le_trans hab hwi⟩

/-- Each dependency between live passes is ordered by the plan: its producer happens before its
consumer. -/
theorem happensBefore_of_edge {o : BakeOptions} (hg : Returns (Graph.build r) g)
    (hsch : Returns (Schedule.build r g o) s) (hs : s.Placement g.passCount)
    (hp : ((SyncPlan.build g s).run j).1 = sync) {e : Edge} (hedge : e ∈ g.edges)
    (hlp : s.isLive e.producer = true) (hlc : s.isLive e.consumer = true) :
    sync.happensBefore s e.producer e.consumer = true := by
  have hpc : e.producer ∈ g.preds e.consumer := Graph.mem_preds.mpr ⟨e, hedge, rfl, rfl⟩
  have hsub := build_pred_before hg hsch hpc hlc
  have hne : e.producer ≠ e.consumer := by simpa using hsub.nodup hs.nodup
  unfold happensBefore
  simp only [hne, hlp, hlc, decide_false, Bool.not_true, Bool.or_false, Bool.false_eq_true,
    ↓reduceIte]
  split
  · rename_i hq
    exact decide_eq_true
      ((hs.queueIndexOf_lt_iff (hs.isLive_iff.mp hlp) (hs.isLive_iff.mp hlc) hq).mpr hsub)
  · obtain ⟨i, hi, hle⟩ := reachTable_ge hs (hs.isLive_iff.mp hlc) hpc
    rw [reachOf, reach_build hp, hi]
    exact decide_eq_true hle

/-- In a reachable state, a pass that happens before a started pass has finished. -/
theorem finished_of_happensBefore (hs : s.Placement g.passCount)
    (hp : ((SyncPlan.build g s).run j).1 = sync) (he : emit r s sync m = .ok G) {σ : ExecState}
    (hinv : ExecInv G σ) {a b : Nat} (hab : sync.happensBefore s a b = true)
    (hstart : σ.Started G (s.queueOf b) (s.queueIndexOf b)) :
    σ.Finished G (s.queueOf a) (s.queueIndexOf a) := by
  obtain ⟨-, -, ⟨hq, hlt⟩ | ⟨c, hc, hq, hidx, w, hw, hwq, hwi⟩⟩ := happensBefore_covered hs hp hab
  · rw [hq]
    exact hstart.finished_of_lt hlt
  · have hdone := finished_of_kept hs hp he hinv hc hidx (hq ▸ hstart) hw
    unfold Finished at hdone ⊢
    rw [hwq] at hdone
    omega

/-- An emitted graph is one the simulation runs. -/
theorem emit_runnable {n : Nat} (hs : s.Placement n) (hp : ((SyncPlan.build g s).run j).1 = sync)
    (he : emit r s sync m = .ok G) : Runnable G := by
  have hnd : (G.queues.map (·.queue)).Nodup := by
    rw [emit_classes he]
    exact (by decide : QueueClass.all.Nodup).filter _
  have hentry : ∀ Q ∈ G.queues, G.queue? Q.queue = some Q := fun Q hQ =>
    (find?_class_eq_some_iff hnd).mpr ⟨hQ, rfl⟩
  refine ⟨hnd, fun Q hQ => ?_, fun Q hQ i hi => ?_⟩
  · have htile := emit_framed hs hp he Q.queue
    simpa [framesFor, passesOf, hentry Q hQ] using htile
  · have hpasses : G.passesOf Q.queue = Q.passes := by simp [passesOf, hentry Q hQ]
    have hfa := emit_passesOf he Q.queue
    rw [hpasses] at hfa
    have hi' : i < (s.queues.get Q.queue).length := hfa.length_eq ▸ hi
    have hbake := (bakePass_ok (hfa.get hi' hi)).2.1
    simp only [List.get_eq_getElem] at hbake
    rw [hbake]
    exact hs.queueIndex_eq _ i _ (List.getElem?_eq_getElem hi')

/-- No execution of an emitted graph gets stuck with frames left. -/
theorem emit_noDeadlock {o : BakeOptions} (hg : Returns (Graph.build r) g)
    (hsch : Returns (Schedule.build r g o) s) (hs : s.Placement g.passCount)
    (hp : ((SyncPlan.build g s).run j).1 = sync) (he : emit r s sync m = .ok G) : NoDeadlock G := by
  intro σ hinv _ ⟨q, hq⟩
  have hG := emit_framed hs hp he
  refine progress_of_inv hs (fun c hc p hpc => build_preds_earlier hg hsch hc hpc) hp he hG hinv ?_
  -- the next pass of a queue inside a frame is live and has not finished
  have hlt := hinv.next_lt hG hq
  rw [length_emit_passesOf he] at hlt
  obtain ⟨c, hc⟩ : ∃ c, (s.queues.get q)[σ.next G q]? = some c := ⟨_, List.getElem?_eq_getElem hlt⟩
  obtain ⟨hcmem, hcq⟩ := hs.mem_queues_iff.mp (List.mem_of_getElem? hc)
  refine ⟨c, hs.isLive_iff.mpr hcmem, ?_⟩
  unfold Finished
  rw [hcq, hs.queueIndex_eq _ _ _ hc]
  exact Nat.lt_irrefl _

/-- In the simulation of an emitted graph, a pass that happens before another ends at least the
other's cost before the other ends. -/
theorem simulate_happensBefore {o : BakeOptions} (hg : Returns (Graph.build r) g)
    (hsch : Returns (Schedule.build r g o) s) (hs : s.Placement g.passCount)
    (hp : ((SyncPlan.build g s).run j).1 = sync) (he : emit r s sync m = .ok G) :
    Succeeds (simulate G) fun out => ∀ a b, sync.happensBefore s a b = true →
      ∃ ea eb p, endOf? out.1 (s.queueOf a) (s.queueIndexOf a) = some ea ∧
        endOf? out.1 (s.queueOf b) (s.queueIndexOf b) = some eb ∧
        (G.passesOf (s.queueOf b))[s.queueIndexOf b]? = some p ∧ ea + passCost p ≤ eb := by
  have hG := emit_runnable hs hp he
  refine (simulate_succeeds hG (emit_noDeadlock hg hsch hs hp he)).imp
    fun out ⟨h, hall⟩ a b hab => ?_
  have hend : ∀ c ∈ s.order, ∃ e, endOf? out.1 (s.queueOf c) (s.queueIndexOf c) = some e :=
    fun c hc => h.endOf?_of_allRun hG hall (by
      rw [length_emit_passesOf he]
      exact hs.queueIndexOf_lt hc)
  obtain ⟨ha, hb, hcases⟩ := happensBefore_covered hs hp hab
  obtain ⟨ea, hea⟩ := hend a ha
  obtain ⟨eb, heb⟩ := hend b hb
  rcases hcases with ⟨hq, hlt⟩ | ⟨c, hc, hq, hidx, w, hw, hwq, hwi⟩
  · rw [hq] at hea
    obtain ⟨p, hpb, hle⟩ := h.add_cost_le hlt hea heb
    exact ⟨ea, eb, p, hq ▸ hea, heb, hpb, hle⟩
  · -- the frame `c` opens waits for `w`, and the simulation started it after `w`'s pass ended
    obtain ⟨f, hf, hfirst, hwf⟩ := kept_opens_frame hs hp he hc hw
    obtain ⟨ec, hec⟩ := hend c hc
    rw [← hfirst] at hec
    obtain ⟨ew, pc, hew, hpc, hwc⟩ := h.waited _ f hf w hwf ec hec
    rw [hwq] at hew
    have haw : ea ≤ ew := h.le_of_le hwi hea hew
    rw [hfirst, hq] at hec
    rw [hfirst, hq] at hpc
    rcases Nat.lt_or_eq_of_le hidx with hlt | heq
    · obtain ⟨p, hpb, hcb⟩ := h.add_cost_le hlt hec heb
      refine ⟨ea, eb, p, hea, heb, hpb, ?_⟩
      calc ea + passCost p ≤ ec + passCost p :=
            Nat.add_le_add_right (le_trans haw (le_trans (Nat.le_add_right ew _) hwc)) _
        _ ≤ eb := hcb
    · rw [heq] at hec hpc
      have hce : ec = eb := Option.some.inj (hec.symm.trans heb)
      refine ⟨ea, eb, pc, hea, heb, hpc, ?_⟩
      calc ea + passCost pc ≤ ew + passCost pc := Nat.add_le_add_right haw _
        _ ≤ ec := hwc
        _ = eb := hce

end Laws

/-- **A pass that happens before another by the synchronization plan finishes before the other
starts**, in every execution of the graph emitted from the plan and in its simulation, which
succeeds: for every registry whose graph is scheduled, the emitted graph obeys
`PrecedenceLaws`. -/
theorem emit_respects_happensBefore {r : Registry} {o : BakeOptions} {g : Graph} {s : Schedule}
    {j : Journal} {sync : SyncPlan} {m : MemoryPlan} {G : BakedGraph}
    (hg : Returns (Graph.build r) g) (hsch : Returns (Schedule.build r g o) s)
    (hp : ((SyncPlan.build g s).run j).1 = sync) (he : emit r s sync m = .ok G) :
    PrecedenceLaws s sync G := by
  obtain ⟨producers, -, hgeq⟩ := Graph.build_returns hg
  have hs : s.Placement g.passCount := by
    rw [hgeq]
    exact build_placement hsch
  refine ⟨fun σ hσ a b hab hstart => ?_, simulate_happensBefore hg hsch hs hp he⟩
  exact finished_of_happensBefore hs hp he (hσ.inv (emit_framed hs hp he)) hab hstart

/-- In `computeFeedsGraphics` the compute pass happens before both graphics passes: every execution
and the simulation of the emitted graph finish it first. -/
theorem computeFeedsGraphics_precedenceLaws :
    Returns (Graph.build computeFeedsGraphics) computeFeedsGraphicsGraph ∧
      Returns (Schedule.build computeFeedsGraphics computeFeedsGraphicsGraph {})
        computeFeedsGraphicsSchedule ∧
      ((SyncPlan.build computeFeedsGraphicsGraph computeFeedsGraphicsSchedule).run #[]).1 =
        computeFeedsGraphicsPlan ∧
      emit computeFeedsGraphics computeFeedsGraphicsSchedule computeFeedsGraphicsPlan
        computeFeedsGraphicsMemory = .ok computeFeedsGraphicsBaked ∧
      PrecedenceLaws computeFeedsGraphicsSchedule computeFeedsGraphicsPlan computeFeedsGraphicsBaked := by
  have hg : Returns (Graph.build computeFeedsGraphics) computeFeedsGraphicsGraph := ⟨#[], by rfl⟩
  have hs : Returns (Schedule.build computeFeedsGraphics computeFeedsGraphicsGraph {})
      computeFeedsGraphicsSchedule := ⟨#[], by cbv⟩
  have hp : ((SyncPlan.build computeFeedsGraphicsGraph computeFeedsGraphicsSchedule).run #[]).1 =
      computeFeedsGraphicsPlan := by cbv
  have he : emit computeFeedsGraphics computeFeedsGraphicsSchedule computeFeedsGraphicsPlan
      computeFeedsGraphicsMemory = .ok computeFeedsGraphicsBaked := by rfl
  exact ⟨hg, hs, hp, he, emit_respects_happensBefore hg hs hp he⟩

example : computeFeedsGraphicsPlan.happensBefore computeFeedsGraphicsSchedule 0 2 = true := by decide

example : (((simulate computeFeedsGraphicsBaked).run.run #[]).1.map fun out =>
    (endOf? out.1 .compute 0, endOf? out.1 .graphics 0)) = .ok (some 6000, some 12000) := by cbv

end RenderGraph.BakedGraph
