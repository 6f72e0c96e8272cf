import RenderGraph.Proofs.Frames
import RenderGraph.Proofs.Dependencies
import RenderGraph.Bake
/-!
# What a bake hands to a backend

A successful `bake` ran each stage successfully on the results of the stages before it
(`bake_returns`). The graph that `BakedGraph.emit` assembles has, for each queue class the
schedule gives passes to, one queue entry with the plan's frames for the class and the class's
passes baked in queue order, and no entry for the other classes (`emit_queue?`). Read per class
(`framesFor`, `passesOf`):

* `emit_passesOf`: the passes of a class are the schedule's passes of the class, one for one,
  each at its own queue index (`bakePass_ok`);
* `emit_frameLaws`: the frames of every class obey the plan's `FrameLaws`, and in particular
  tile the class's passes.
-/

namespace RenderGraph

open Logged

/-- A successful bake ran every stage successfully on the stages before it, and holds what
they returned. -/
theorem bake_returns {bytes : Bytes} {o : BakeOptions} {b : Bake} (h : Returns (bake bytes o) b) :
    Returns (Registry.ingest bytes) b.registry ∧ Returns (Graph.build b.registry) b.graph ∧
      Returns (Schedule.build b.registry b.graph o) b.schedule ∧
      (∃ j, ((SyncPlan.build b.graph b.schedule).run j).1 = b.sync) ∧
      Returns (MemoryPlan.build b.registry b.schedule b.sync o) b.memory ∧
      BakedGraph.emit b.registry b.schedule b.sync b.memory = .ok b.baked := by
  unfold bake at h
  obtain ⟨r, hr, h⟩ := h.bind
  obtain ⟨g, hg, h⟩ := h.bind
  obtain ⟨s, hs, h⟩ := h.bind
  obtain ⟨sync, hsync, h⟩ := h.bind
  obtain ⟨m, hm, h⟩ := h.bind
  obtain ⟨baked, hbaked, h⟩ := h.bind
  -- what is left only logs the summary, and a warning when some resource is unused
  obtain ⟨_, -, h⟩ := h.bind
  have hb : b = ⟨r, g, s, sync, m, baked⟩ := by
    dsimp only at h
    split at h
    · obtain ⟨_, -, h⟩ := h.bind
      exact h.eq_of_yields (Yields.run_pure _)
    · exact h.eq_of_yields (Yields.run_pure _)
  subst hb
  exact ⟨hr, hg, hs, Returns.lift hsync, hm, BakeM.eq_of_returns_ofConfig hbaked⟩

namespace BakedGraph

/-- The frames of a queue class: those of its queue entry, none without one. -/
def framesFor (g : BakedGraph) (q : QueueClass) : List Frame :=
  ((g.queue? q).map (·.frames)).getD []

/-- The passes of a queue class in queue order: those of its queue entry, none without one. -/
def passesOf (g : BakedGraph) (q : QueueClass) : List BakedPass :=
  ((g.queue? q).map (·.passes)).getD []

/-- The entry the first queue entry of class `q` in a list built class by class, each entry of
its own class: that class's entry when the class was built, none otherwise. -/
theorem find?_of_mapM {ε : Type} {F : QueueClass → Except ε BakedQueue}
    (hF : ∀ q bq, F q = .ok bq → bq.queue = q) (q : QueueClass) :
    ∀ {L : List QueueClass} {Qs : List BakedQueue}, L.mapM F = .ok Qs →
      (q ∉ L → Qs.find? (·.queue == q) = none) ∧
        (q ∈ L → ∃ bq, Qs.find? (·.queue == q) = some bq ∧ F q = .ok bq)
  | [], Qs, h => by
    obtain rfl : [] = Qs := Except.ok.inj h
    simp
  | a :: L, Qs, h => by
    rw [List.mapM_cons] at h
    obtain ⟨b, hb, h⟩ := Except.exists_of_bind_eq_ok h
    obtain ⟨bs, hbs, h⟩ := Except.exists_of_bind_eq_ok h
    obtain rfl : b :: bs = Qs := Except.ok.inj h
    have ih := find?_of_mapM hF q hbs
    by_cases haq : a = q
    · -- the head entry is the one of class `q`
      subst haq
      refine ⟨fun hn => absurd List.mem_cons_self hn, fun _ => ⟨b, ?_, hb⟩⟩
      simp [hF a b hb]
    · have hne : (b.queue == q) = false := by simp [hF a b hb, haq]
      rw [List.find?_cons, hne, List.mem_cons]
      exact ⟨fun hn => ih.1 fun hL => hn (.inr hL),
        fun hq => ih.2 (hq.resolve_left fun e => haq e.symm)⟩

variable {r : Registry} {s : Schedule} {sync : SyncPlan} {m : MemoryPlan} {G : BakedGraph}

/-- A baked pass is on its queue at its queue index, with the pass's id and minimized waits. -/
theorem bakePass_ok {q : QueueClass} {p : Nat} {bp : BakedPass}
    (h : bakePass r s sync m q p = .ok bp) :
    bp.queue = q ∧ bp.queueIndex = s.queueIndexOf p ∧ bp.id = (r.passes.getD p default).id ∧
      bp.waits = sync.waitsOf p := by
  unfold bakePass at h
  obtain ⟨_, -, h⟩ := Except.exists_of_bind_eq_ok h
  obtain rfl := Except.ok.inj h
  exact ⟨rfl, rfl, rfl, rfl⟩

/-- An entry baked for class `q` is of class `q`. -/
theorem bakeQueue_queue {q : QueueClass} {bq : BakedQueue}
    (h : ((s.queues.get q).mapM (bakePass r s sync m q) >>= fun passes =>
      pure (BakedQueue.mk q (sync.frames.get q) passes) : Except ConfigError BakedQueue) = .ok bq) :
    bq.queue = q := by
  obtain ⟨_, -, h⟩ := Except.exists_of_bind_eq_ok h
  obtain rfl := Except.ok.inj h
  rfl

/-- An emitted graph has one entry for each class the schedule gives passes, in class order. -/
theorem emit_classes (h : emit r s sync m = .ok G) :
    G.queues.map (·.queue) = QueueClass.all.filter fun q => !(s.queues.get q).isEmpty := by
  unfold emit at h
  obtain ⟨Qs, hQs, h⟩ := Except.exists_of_bind_eq_ok h
  obtain rfl := Except.ok.inj h
  have hfa := (Except.forall₂_of_mapM hQs).imp fun _ _ hq => (bakeQueue_queue hq).symm
  exact (List.forall₂_eq_eq_eq ▸ List.forall₂_map_right_iff.mpr hfa).symm

/-- In an emitted graph, a class the schedule gives passes has the entry with the plan's frames
for it and its passes baked in queue order; another class has none. -/
theorem emit_queue? (h : emit r s sync m = .ok G) (q : QueueClass) :
    ((s.queues.get q).isEmpty = true → G.queue? q = none) ∧
      ((s.queues.get q).isEmpty = false → ∃ passes,
        (s.queues.get q).mapM (bakePass r s sync m q) = .ok passes ∧
          G.queue? q = some ⟨q, sync.frames.get q, passes⟩) := by
  unfold emit at h
  obtain ⟨Qs, hQs, h⟩ := Except.exists_of_bind_eq_ok h
  obtain rfl := Except.ok.inj h
  obtain ⟨habsent, hpresent⟩ := find?_of_mapM (fun _ _ hq => bakeQueue_queue hq) q hQs
  have hall : q ∈ QueueClass.all := by cases q <;> decide
  refine ⟨fun he => habsent ?_, fun he => ?_⟩
  · simp [he]
  · obtain ⟨bq, hfind, hbq⟩ := hpresent (List.mem_filter.mpr ⟨hall, by simp [he]⟩)
    obtain ⟨passes, hpasses, hbq⟩ := Except.exists_of_bind_eq_ok hbq
    obtain rfl := Except.ok.inj hbq
    exact ⟨passes, hpasses, hfind⟩

/-- The passes of every class in an emitted graph are the schedule's passes of the class, baked
one for one in queue order. -/
theorem emit_passesOf (h : emit r s sync m = .ok G) (q : QueueClass) :
    List.Forall₂ (fun p bp => bakePass r s sync m q p = .ok bp) (s.queues.get q) (G.passesOf q) := by
  obtain ⟨habsent, hpresent⟩ := emit_queue? h q
  cases he : (s.queues.get q).isEmpty
  · obtain ⟨passes, hpasses, hq⟩ := hpresent he
    rw [passesOf, hq]
    exact Except.forall₂_of_mapM hpasses
  · rw [passesOf, habsent he, List.isEmpty_iff.mp he]
    exact .nil

theorem emit_framesFor (h : emit r s sync m = .ok G) (q : QueueClass) :
    G.framesFor q = if (s.queues.get q).isEmpty then [] else sync.frames.get q := by
  obtain ⟨habsent, hpresent⟩ := emit_queue? h q
  cases he : (s.queues.get q).isEmpty
  · obtain ⟨passes, -, hq⟩ := hpresent he
    rw [framesFor, hq]
    rfl
  · rw [framesFor, habsent he]
    rfl

theorem length_emit_passesOf (h : emit r s sync m = .ok G) (q : QueueClass) :
    (G.passesOf q).length = (s.queues.get q).length :=
  (emit_passesOf h q).length_eq.symm

/-- The frames of every class of a graph emitted from a plan obey the plan's `FrameLaws`. -/
theorem emit_frameLaws {g : Graph} {n : Nat} (hs : s.Placement n) {j : Journal}
    (hp : ((SyncPlan.build g s).run j).1 = sync) (h : emit r s sync m = .ok G) (q : QueueClass) :
    SyncPlan.FrameLaws s sync.waits sync.waits.toList.flatten q (G.framesFor q) := by
  rw [emit_framesFor h q]
  split
  · -- a class without passes has no frame
    rename_i he
    exact SyncPlan.frameLaws_nil (List.isEmpty_iff.mp he)
  · subst hp
    exact SyncPlan.build_frameLaws g hs j q

end BakedGraph

end RenderGraph
