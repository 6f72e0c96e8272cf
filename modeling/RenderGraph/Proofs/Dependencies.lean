import RenderGraph.Proofs.Logged
import RenderGraph.Graph
/-!
# Dependency graphs

What a successful `Graph.build` returns, and how its edges are read: the graph counts the
registry's passes, its edges are those `collectEdges` finds from the versions every pass mints,
and the predecessors of a pass are the producers of the edges into it.
-/

namespace RenderGraph

open Logged

/-- A checked step returns only what its check returned. -/
theorem BakeM.eq_of_returns_ofConfig {α : Type} {e : Except ConfigError α} {a : α}
    (h : Returns (BakeM.ofConfig e) a) : e = .ok a := by
  cases e with
  | ok a' => exact congrArg Except.ok (h.eq_of_yields (Yields.run_pure a')).symm
  | error err => exact absurd h Returns.not_throw

namespace Graph

/-- Once the writes check out, `Graph.build` returns the graph of their edges from every journal:
after the check it only logs the edges and the totals. -/
theorem build_yields {r : Registry} {producers : List (Res × Nat)}
    (hp : collectProducers r.passes = .ok producers) :
    Yields (Graph.build r).run (.ok ⟨r.passes.size, collectEdges r.passes producers, producers⟩) := by
  unfold Graph.build
  rw [hp]
  exact Yields.run_bind (Yields.run_pure _) (Yields.run_bind (Yields.run_forIn fun _ _ =>
      Yields.run_bind (Yields.run_lift (Yields.log _ _ _)) (Yields.run_pure _))
    (Yields.run_bind (Yields.run_lift (Yields.log _ _ _)) (Yields.run_pure _)))

/-- A successful `Graph.build` checked the writes of every pass and found the edges. -/
theorem build_returns {r : Registry} {g : Graph} (h : Returns (Graph.build r) g) :
    ∃ producers, collectProducers r.passes = .ok producers ∧
      g = ⟨r.passes.size, collectEdges r.passes producers, producers⟩ := by
  have h' := h
  unfold Graph.build at h'
  obtain ⟨producers, hp, -⟩ := h'.bind
  have hp := BakeM.eq_of_returns_ofConfig hp
  exact ⟨producers, hp, h.eq_of_yields (build_yields hp)⟩

theorem mem_preds {g : Graph} {x c : Nat} :
    x ∈ g.preds c ↔ ∃ e ∈ g.edges, e.producer = x ∧ e.consumer = c := by
  simp only [preds, List.mem_map, List.mem_filter, beq_iff_eq]
  constructor
  · rintro ⟨e, ⟨he, hc⟩, hx⟩
    exact ⟨e, he, hx, hc⟩
  · rintro ⟨e, he, hx, hc⟩
    exact ⟨e, ⟨he, hc⟩, hx⟩

/-! ### Edges join passes of the registry -/

theorem mem_of_lookup {table : List (Res × Nat)} {v : Res} {p : Nat} (h : lookup table v = some p) :
    ∃ x ∈ table, x.2 = p := by
  unfold lookup at h
  obtain ⟨x, hx, rfl⟩ := Option.map_eq_some_iff.mp h
  exact ⟨x, List.mem_of_find?_eq_some hx, rfl⟩

/-- `recordWrites` records versions minted by the pass it checks and nothing else. -/
theorem recordWrites_minted {passes : Array PassInfo} {idx : Nat} {pass : PassInfo} :
    ∀ {ws : List Interaction} {tables tables' : List (Res × Nat) × List (Res × Nat)},
      recordWrites passes idx pass ws tables = .ok tables' → ∀ x ∈ tables'.1, x ∈ tables.1 ∨ x.2 = idx
  | [], tables, tables', h, x, hx => by
    cases h
    exact .inl hx
  | w :: rest, (minted, overwritten), tables', h, x, hx => by
    -- the output must exist, and neither table may know it already
    have hrest : ∃ output, recordWrites passes idx pass rest
        (minted ++ [(output, idx)], overwritten ++ [(w.resource, idx)]) = .ok tables' := by
      unfold recordWrites at h
      rcases hout : w.output with _ | output
      · simp only [hout] at h
        obtain ⟨_, hthrow, -⟩ := Except.exists_of_bind_eq_ok h
        cases hthrow
      simp only [hout] at h
      obtain ⟨_, ho, h⟩ := Except.exists_of_bind_eq_ok h
      cases ho
      rcases hm : lookup minted output with _ | first
      · rcases hw : lookup overwritten w.resource with _ | first'
        · simp only [hm, hw] at h
          exact ⟨output, h⟩
        · simp only [hm, hw] at h
          obtain ⟨_, hthrow, -⟩ := Except.exists_of_bind_eq_ok h
          cases hthrow
      · simp only [hm] at h
        obtain ⟨_, hthrow, -⟩ := Except.exists_of_bind_eq_ok h
        cases hthrow
    obtain ⟨output, h⟩ := hrest
    rcases recordWrites_minted h x hx with hx | hx
    · rcases List.mem_append.mp hx with hx | hx
      · exact .inl hx
      · rw [List.mem_singleton.mp hx]
        exact .inr rfl
    · exact .inr hx

/-- Every version is minted by a pass of the registry. -/
theorem collectProducers_lt {passes : Array PassInfo} {producers : List (Res × Nat)}
    (h : collectProducers passes = .ok producers) : ∀ x ∈ producers, x.2 < passes.size := by
  unfold collectProducers at h
  obtain ⟨tables, htables, h⟩ := Except.exists_of_bind_eq_ok h
  cases h
  refine Except.foldlM_inv (I := fun t : List (Res × Nat) × List (Res × Nat) => ∀ x ∈ t.1, x.2 < passes.size)
    htables (by simp) fun acc idx b hidx hacc hb => ?_
  split at hb
  · intro x hx
    rcases recordWrites_minted hb x hx with hx | hx
    · exact hacc x hx
    · rw [hx]
      exact List.mem_range.mp hidx
  · cases hb
    exact hacc

/-- With producers among the passes, every edge found joins two passes of the registry. -/
theorem collectEdges_lt {passes : Array PassInfo} {producers : List (Res × Nat)}
    (hprod : ∀ x ∈ producers, x.2 < passes.size) :
    ∀ e ∈ collectEdges passes producers, e.producer < passes.size ∧ e.consumer < passes.size := by
  unfold collectEdges
  refine List.foldlRecOn (motive := fun edges : List Edge =>
    ∀ e ∈ edges, e.producer < passes.size ∧ e.consumer < passes.size) _ _ (by simp) ?_
  intro edges hedges idx hidx
  have hidx := List.mem_range.mp hidx
  split
  · rename_i p _
    refine List.foldlRecOn (motive := fun edges : List Edge =>
      ∀ e ∈ edges, e.producer < passes.size ∧ e.consumer < passes.size) _ _ hedges ?_
    intro edges hedges e he x hx
    unfold addEdge at hx
    split at hx
    · exact hedges x hx
    rcases List.mem_append.mp hx with hx | hx
    · exact hedges x hx
    rw [List.mem_singleton.mp hx]
    -- an edge into the pass comes from a producer or from a reader
    unfold edgesInto at he
    rcases List.mem_append.mp he with he | he
    · obtain ⟨v, -, hv⟩ := List.mem_filterMap.mp he
      obtain ⟨prod, hprod', rfl⟩ := Option.map_eq_some_iff.mp hv
      obtain ⟨y, hy, rfl⟩ := mem_of_lookup hprod'
      exact ⟨hprod y hy, hidx⟩
    · obtain ⟨w, -, hw⟩ := List.mem_flatMap.mp he
      obtain ⟨r, hr, rfl⟩ := List.mem_map.mp hw
      have hr := (List.mem_filter.mp (List.mem_filter.mp hr).1).1
      exact ⟨List.mem_range.mp hr, hidx⟩
  · exact hedges

/-- Every edge of a built graph joins two of its passes. -/
theorem build_edges_lt {r : Registry} {g : Graph} (h : Returns (Graph.build r) g) :
    ∀ e ∈ g.edges, e.producer < g.passCount ∧ e.consumer < g.passCount := by
  obtain ⟨producers, hprod, rfl⟩ := build_returns h
  exact collectEdges_lt (collectProducers_lt hprod)

end Graph

end RenderGraph
