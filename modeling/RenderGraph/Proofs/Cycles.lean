import RenderGraph.Proofs.Paths
import RenderGraph.Proofs.Logged
/-!
# Cycles

`levels` fails exactly on a dependency cycle (`levels_ok_iff`). This module says what the failure
reports, and that the walk is never cut short by the bound on its steps.

* A step of the walk from an open pass either stops at a predecessor that is still open, or moves
  to a state that keeps `Inv` and `Chained` and has less weight (`explore_step`).
* The open passes form a path down the stack, so a predecessor that is still open is reached from
  the top pass: the reported pair is an edge on a cycle (`levels_error_edge`).
* Since each step that goes on takes one unit of weight, more fuel than the weight changes nothing
  (`explore_fuel_stable`); the walk from every root, given its bound, is the walk without bound
  (`walkFrom_fuel_stable`).
* `Schedule.build` fails with a cycle exactly when `levels` does, naming the two passes of the
  reported edge (`build_fails_cyclic_iff`).
-/

namespace RenderGraph.Schedule

open Logged

/-- The walk `levels` starts from: nothing visited, every level 0. -/
def Walk.start (n : Nat) : Walk := ⟨Array.replicate n .unvisited, Array.replicate n 0⟩

variable {g : Graph}

/-! ### One step of the walk -/

/-- One step of the walk from a nonempty stack: it stops at an open predecessor of the top pass,
reached from that pass, or it goes on from a state that keeps the invariant with less weight. -/
theorem explore_step {v k : Nat} {rest : List (Nat × Nat)} {w : Walk}
    (h : Inv g ((v, k) :: rest) w) (hc : Chained g ((v, k) :: rest)) :
    (∃ pred, pred ∈ g.preds v ∧ Relation.ReflTransGen g.Dep v pred ∧
      ∀ fuel, explore g (fuel + 1) ((v, k) :: rest) w = .error (pred, v)) ∨
    ∃ stack w', Inv g stack w' ∧ Chained g stack ∧ weight g stack w' < weight g ((v, k) :: rest) w ∧
      ∀ fuel, explore g (fuel + 1) ((v, k) :: rest) w = explore g fuel stack w' := by
  cases hp : (g.preds v)[k]? with
  | some pred =>
    have hpred : pred ∈ g.preds v := List.mem_of_getElem? hp
    have hk : k < (g.preds v).length := (List.getElem?_eq_some_iff.mp hp).1
    cases hm : w.marks.getD pred .visited with
    | unvisited =>
      have hw := unvisitedWeight_set_unvisited h.size_marks hm (m := .visiting) (by decide)
      refine .inr ⟨_, _, h.push hp hm, ⟨hpred, hc.advance⟩, ?_, fun fuel => ?_⟩
      · simp only [weight, stackWeight_cons] at hw ⊢
        omega
      · simp only [explore, hp, hm]
    | visiting =>
      refine .inl ⟨pred, hpred, hc.reaches pred (h.visiting_mem pred hm), fun fuel => ?_⟩
      simp only [explore, hp, hm]
    | visited =>
      refine .inr ⟨_, _, h.skip hp hm, hc.advance, ?_, fun fuel => ?_⟩
      · simp only [weight, stackWeight_cons]
        omega
      · simp only [explore, hp, hm]
  | none =>
    have hv : w.marks.getD v .visited ≠ .unvisited := by rw [h.open_.1]; decide
    have hw := unvisitedWeight_set_of_ne (g := g) hv (m := .visited) (by decide)
    refine .inr ⟨rest, _, h.finish hp, hc.tail, ?_, fun fuel => ?_⟩
    · simp only [weight, stackWeight_cons, hw]
      omega
    · simp only [explore, hp]

/-! ### The walk from one root -/

/-- A failed walk from a chained stack stopped at an edge into an open pass from a pass it
reaches. -/
theorem explore_error {fuel : Nat} {stack : List (Nat × Nat)} {w : Walk} {pred pass : Nat}
    (h : Inv g stack w) (hc : Chained g stack) (herr : explore g fuel stack w = .error (pred, pass)) :
    pred ∈ g.preds pass ∧ Relation.ReflTransGen g.Dep pass pred := by
  induction fuel generalizing stack w with
  | zero => simp only [explore, reduceCtorEq] at herr
  | succ fuel ih =>
    match stack, h, hc, herr with
    | [], _, _, herr => simp only [explore, reduceCtorEq] at herr
    | (v, k) :: rest, h, hc, herr =>
      rcases explore_step h hc with ⟨p, hp, hreach, hstep⟩ | ⟨stack', w', h', hc', -, hstep⟩
      · rw [hstep, Except.error.injEq, Prod.mk.injEq] at herr
        obtain ⟨rfl, rfl⟩ := herr
        exact ⟨hp, hreach⟩
      · rw [hstep] at herr
        exact ih h' hc' herr

/-- **More fuel than the weight changes nothing**: the walk ends, or stops at a cycle, before its
fuel runs out. -/
theorem explore_fuel_stable {fuel fuel' : Nat} {stack : List (Nat × Nat)} {w : Walk}
    (h : Inv g stack w) (hc : Chained g stack) (hfuel : weight g stack w < fuel)
    (hle : fuel ≤ fuel') : explore g fuel' stack w = explore g fuel stack w := by
  induction fuel generalizing fuel' stack w with
  | zero => omega
  | succ fuel ih =>
    obtain ⟨fuel', rfl⟩ : ∃ f, fuel' = f + 1 := ⟨fuel' - 1, by omega⟩
    match stack, h, hc, hfuel with
    | [], _, _, _ => simp only [explore]
    | (v, k) :: rest, h, hc, hfuel =>
      rcases explore_step h hc with ⟨_, -, -, hstep⟩ | ⟨stack', w', h', hc', hlt, hstep⟩
      · rw [hstep, hstep]
      · rw [hstep, hstep]
        exact ih h' hc' (by omega) (by omega)

/-! ### The walk from every root -/

/-- A failed walk from a list of roots stopped at an edge on a cycle. -/
theorem walkFrom_error {roots : List Nat} {w : Walk} {pred pass : Nat} (h : Inv g [] w)
    (herr : walkFrom g (g.edges.length + g.passCount + 1) roots w = .error (pred, pass)) :
    pred ∈ g.preds pass ∧ Relation.ReflTransGen g.Dep pass pred := by
  induction roots generalizing w with
  | nil => simp only [walkFrom, reduceCtorEq] at herr
  | cons root rest ih =>
    unfold walkFrom at herr
    split at herr
    · exact ih h herr
    · rename_i hun
      have hm : w.marks.getD root .visited = .unvisited := by simpa using hun
      rcases hres : explore g (g.edges.length + g.passCount + 1) [(root, 0)]
          { w with marks := w.marks.set! root .visiting } with e | w'
      · rw [hres] at herr
        cases herr
        exact explore_error (h.start hm) trivial hres
      · rw [hres] at herr
        exact ih (explore_ok (h.start hm) (weight_start_lt h hm) hres).1 herr

/-- **The walk from every root needs no more than its bound**: any larger bound gives the same
walk. -/
theorem walkFrom_fuel_stable {roots : List Nat} {w : Walk} (h : Inv g [] w) {fuel : Nat}
    (hle : g.edges.length + g.passCount + 1 ≤ fuel) :
    walkFrom g fuel roots w = walkFrom g (g.edges.length + g.passCount + 1) roots w := by
  induction roots generalizing w with
  | nil => rfl
  | cons root rest ih =>
    by_cases hun : w.marks.getD root .visited ≠ .unvisited
    · simp only [walkFrom, if_pos hun]
      exact ih h
    · have hm : w.marks.getD root .visited = .unvisited := by simpa using hun
      simp only [walkFrom, if_neg hun]
      rw [explore_fuel_stable (h.start hm) trivial (weight_start_lt h hm) hle]
      rcases hres : explore g (g.edges.length + g.passCount + 1) [(root, 0)]
          { w with marks := w.marks.set! root .visiting } with e | w'
      · rfl
      · exact ih (explore_ok (h.start hm) (weight_start_lt h hm) hres).1

/-! ### Levels -/

theorem inv_start (g : Graph) : Inv g [] (Walk.start g.passCount) := inv_initial g

theorem levels_eq_walkFrom (g : Graph) :
    levels g = Walk.level <$> walkFrom g (g.edges.length + g.passCount + 1) (List.range g.passCount)
      (Walk.start g.passCount) := by
  unfold levels Walk.start
  dsimp only
  cases walkFrom g (g.edges.length + g.passCount + 1) (List.range g.passCount)
    ⟨Array.replicate g.passCount .unvisited, Array.replicate g.passCount 0⟩ <;> rfl

/-- **The edge `levels` reports lies on a cycle**: it runs from `pred` into `pass`, and `pass`
reaches `pred`. -/
theorem levels_error_edge {pred pass : Nat} (h : levels g = .error (pred, pass)) :
    pred ∈ g.preds pass ∧ Relation.ReflTransGen g.Dep pass pred := by
  rw [levels_eq_walkFrom] at h
  rcases hw : walkFrom g (g.edges.length + g.passCount + 1) (List.range g.passCount)
    (Walk.start g.passCount) with e | w
  · rw [hw] at h
    cases h
    exact walkFrom_error (inv_start g) hw
  · rw [hw] at h
    cases h

/-! ### The schedule's report -/

section Report

variable {r : Registry} {o : BakeOptions}

/-- When `levels` reports an edge, the build fails with a cycle through its two passes, and with
no other. -/
theorem build_fails_of_levels_error {pred pass : Nat} (hl : levels g = .error (pred, pass))
    {e : BakeError} :
    Fails (Schedule.build r g o) e ↔ e = .graph (.cyclicDependency
      ((r.passes[pred]?.map PassInfo.ref).getD default) ((r.passes[pass]?.map PassInfo.ref).getD default)) := by
  constructor
  · intro h
    unfold Schedule.build at h
    simp only [hl] at h
    rcases Fails.bind h with h | ⟨_, -, h⟩
    · exact absurd h (Succeeds.lift (P := fun _ => True) fun _ => trivial).not_fails
    · rcases Fails.bind h with h | ⟨_, h, -⟩
      · exact Fails.throw h
      · exact absurd h Returns.not_throw
  · rintro rfl
    refine ⟨#[], ?_⟩
    unfold Schedule.build
    simp only [hl]
    rfl

/-- When `levels` succeeds, the build never fails with a cycle: after the levels only the check of
the order may fail, with another error. -/
theorem build_not_fails_cyclic {level : Array Nat} (hl : levels g = .ok level) {a b : PassRef} :
    ¬Fails (Schedule.build r g o) (.graph (.cyclicDependency a b)) := by
  intro h
  unfold Schedule.build at h
  simp only [hl] at h
  rcases Fails.bind h with h | ⟨_, -, h⟩
  · exact absurd h Fails.not_pure
  rcases Fails.bind h with h | ⟨_, -, h⟩
  · exact absurd h (Succeeds.forIn_all (P := fun _ _ => True) fun _ _ _ =>
      Succeeds.log_bind (Succeeds.pure ⟨_, rfl, trivial, fun _ _ => trivial⟩)).not_fails
  rcases Fails.bind h with h | ⟨_, -, h⟩
  · exact absurd h (Succeeds.lift (P := fun _ => True) fun _ => trivial).not_fails
  split at h
  · cases Fails.throw h
  · exact absurd h Fails.not_pure

/-- `Schedule.build` fails with a cycle exactly when `levels` does, and names the passes of the
reported edge. -/
theorem build_fails_cyclic_iff {a b : PassRef} :
    Fails (Schedule.build r g o) (.graph (.cyclicDependency a b)) ↔
      ∃ pred pass, levels g = .error (pred, pass) ∧
        a = (r.passes[pred]?.map PassInfo.ref).getD default ∧
        b = (r.passes[pass]?.map PassInfo.ref).getD default := by
  rcases hl : levels g with ⟨pred, pass⟩ | level
  · rw [build_fails_of_levels_error hl]
    constructor
    · intro h
      obtain ⟨rfl, rfl⟩ := GraphError.cyclicDependency.inj (BakeError.graph.inj h)
      exact ⟨pred, pass, rfl, rfl, rfl⟩
    · rintro ⟨pred', pass', hl', rfl, rfl⟩
      obtain ⟨rfl, rfl⟩ := Prod.mk.inj (Except.error.inj hl')
      rfl
  · refine ⟨fun h => absurd h (build_not_fails_cyclic hl), ?_⟩
    rintro ⟨_, _, hl', -⟩
    cases hl'

end Report

/-! ### What a walk reports -/

/-- What `levels` and `Schedule.build` promise about the cycles of a graph. -/
structure CycleLaws (g : Graph) : Prop where
  /-- `levels` fails exactly when the graph has a cycle. -/
  fails_iff : (∃ e, levels g = .error e) ↔ ¬g.Acyclic
  /-- The reported pair is an edge from `pred` into `pass`, and `pass` reaches `pred`. -/
  edge_on_cycle : ∀ pred pass, levels g = .error (pred, pass) →
    pred ∈ g.preds pass ∧ Relation.ReflTransGen g.Dep pass pred
  /-- `Schedule.build` fails with a cycle exactly when `levels` does, naming the two passes of the
  reported edge. -/
  build_fails_iff : ∀ (r : Registry) (o : BakeOptions) (a b : PassRef),
    Fails (Schedule.build r g o) (.graph (.cyclicDependency a b)) ↔
      ∃ pred pass, levels g = .error (pred, pass) ∧
        a = (r.passes[pred]?.map PassInfo.ref).getD default ∧
        b = (r.passes[pass]?.map PassInfo.ref).getD default
  /-- The walk needs no more steps than its bound: any larger bound gives the same levels. -/
  fuel_stable : ∀ fuel, g.edges.length + g.passCount + 1 ≤ fuel →
    Walk.level <$> walkFrom g fuel (List.range g.passCount) (Walk.start g.passCount) = levels g

/-- **`levels` reports a cycle exactly when the graph has one, and the edge it reports lies on
it**: on every graph whose edges join its passes, self-loops included, and `Schedule.build`
reports the same. The walk is never cut short by its bound. -/
theorem levels_reports_cycles
    (hedges : ∀ e ∈ g.edges, e.producer < g.passCount ∧ e.consumer < g.passCount) :
    CycleLaws g where
  fails_iff := by
    rw [← levels_ok_iff hedges]
    constructor
    · rintro ⟨e, he⟩ ⟨level, hl⟩
      rw [hl] at he
      cases he
    · intro hnot
      rcases hl : levels g with e | level
      · exact ⟨e, rfl⟩
      · exact absurd ⟨level, hl⟩ hnot
  edge_on_cycle _ _ := levels_error_edge
  build_fails_iff _ _ _ _ := build_fails_cyclic_iff
  fuel_stable _ hle := by rw [walkFrom_fuel_stable (inv_start g) hle, levels_eq_walkFrom]

/-- Two passes, each reading what the other writes. -/
def twoPassCycle : Graph :=
  ⟨2, [⟨0, 1, .buffer 2, .readAfterWrite⟩, ⟨1, 0, .buffer 3, .readAfterWrite⟩],
    [(.buffer 2, 0), (.buffer 3, 1)]⟩

/-- The walk from the first pass opens the second, whose predecessor is still open. -/
theorem twoPassCycle_cycleLaws :
    (∀ e ∈ twoPassCycle.edges, e.producer < twoPassCycle.passCount ∧
      e.consumer < twoPassCycle.passCount) ∧
    levels twoPassCycle = .error (0, 1) ∧ CycleLaws twoPassCycle :=
  ⟨by decide, rfl, levels_reports_cycles (by decide)⟩

end RenderGraph.Schedule
