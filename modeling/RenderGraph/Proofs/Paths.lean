import RenderGraph.Proofs.Levels
import RenderGraph.Proofs.Dependencies
/-!
# Levels are longest paths

`levels` fails exactly on a dependency cycle, and when it succeeds the level of every pass is the
length of the longest dependency path that ends at it (`levels_isGreatest`).

Beyond `Inv`, the walk keeps two facts:

* every open pass is a predecessor of the open pass below it (`Chained`), so a predecessor that
  is still open closes a cycle through the stack;
* every visited pass has one more than the largest level of its predecessors, or 0 without them
  (`Leveled`).

Each step keeps both, so a walk either ends with its visited passes leveled or stops at a cycle
(`explore_sound`, `walkFrom_sound`). A finished walk has visited every pass, so the level
equation holds everywhere; strong induction on the level then follows the predecessor that gives
the maximum down to a path of that length, and induction on paths bounds every path by it.
-/

namespace RenderGraph

namespace Graph

/-- `u` is a predecessor of `v`: an edge runs from `u` into `v`. -/
def Dep (g : Graph) (u v : Nat) : Prop := u ∈ g.preds v

/-- A dependency path of `k` edges ends at a pass. -/
inductive PathTo (g : Graph) : Nat → Nat → Prop
  | nil (p : Nat) : PathTo g 0 p
  | cons {k p c : Nat} : PathTo g k p → p ∈ g.preds c → PathTo g (k + 1) c

/-- No pass depends on itself through a chain of edges. -/
def Acyclic (g : Graph) : Prop := ∀ p, ¬Relation.TransGen g.Dep p p

/-- The level a pass takes from the levels of its predecessors: one more than the largest, or 0
without predecessors. -/
def levelFrom (g : Graph) (level : Array Nat) (v : Nat) : Nat :=
  ((g.preds v).map fun p => level.getD p 0 + 1).max?.getD 0

end Graph

namespace Schedule

variable {g : Graph}

/-- Each open pass is a predecessor of the open pass below it. -/
def Chained (g : Graph) : List (Nat × Nat) → Prop
  | e :: e' :: rest => e.1 ∈ g.preds e'.1 ∧ Chained g (e' :: rest)
  | _ => True

/-- Every visited pass below the pass count has the level its predecessors give it. -/
def Leveled (g : Graph) (w : Walk) : Prop :=
  ∀ v < g.passCount, w.marks.getD v .visited = .visited → w.level.getD v 0 = g.levelFrom w.level v

/-- What a walk's outcome tells: a finished walk has its visited passes leveled, a failed one met
a cycle. -/
def Sound (g : Graph) : Except (Nat × Nat) Walk → Prop
  | .ok w => Leveled g w
  | .error _ => ¬g.Acyclic

/-- Levels that agree on the predecessors of a pass give it the same level. -/
theorem levelFrom_congr {L L' : Array Nat} {u : Nat} (h : ∀ p ∈ g.preds u, L.getD p 0 = L'.getD p 0) :
    g.levelFrom L u = g.levelFrom L' u := by
  unfold Graph.levelFrom
  rw [List.map_congr_left fun p hp => by rw [h p hp]]

/-! ### The stack is a path -/

theorem Chained.tail {e : Nat × Nat} {rest : List (Nat × Nat)} (h : Chained g (e :: rest)) :
    Chained g rest := by
  match rest, h with
  | [], _ => trivial
  | _ :: _, h => exact h.2

/-- Only the passes of a stack matter, not how far each has looked. -/
theorem Chained.advance {v k k' : Nat} {rest : List (Nat × Nat)} (h : Chained g ((v, k) :: rest)) :
    Chained g ((v, k') :: rest) := by
  match rest, h with
  | [], _ => trivial
  | _ :: _, h => exact h

/-- Every open pass can be reached from the top of a chained stack. -/
theorem Chained.reaches {v k : Nat} {rest : List (Nat × Nat)} (h : Chained g ((v, k) :: rest)) :
    ∀ u ∈ ((v, k) :: rest).map Prod.fst, Relation.ReflTransGen g.Dep v u := by
  induction rest generalizing v k with
  | nil =>
    intro u hu
    rw [List.mem_singleton.mp hu]
  | cons e rest ih =>
    obtain ⟨v', k'⟩ := e
    intro u hu
    rcases List.mem_cons.mp hu with rfl | hu
    · exact .refl
    · exact .head h.1 (ih h.2 u hu)

/-- A predecessor of the top pass that is still open closes a cycle. -/
theorem Chained.not_acyclic {v k pred : Nat} {rest : List (Nat × Nat)} {w : Walk}
    (h : Chained g ((v, k) :: rest)) (hinv : Inv g ((v, k) :: rest) w) (hp : pred ∈ g.preds v)
    (hm : w.marks.getD pred .visited = .visiting) : ¬g.Acyclic := fun hacyc =>
  hacyc pred (.head' hp (h.reaches pred (hinv.visiting_mem pred hm)))

/-! ### Levels along the walk -/

/-- Marking a pass that is not visited as open keeps the visited passes leveled. -/
theorem Leveled.set_visiting {w : Walk} (h : Leveled g w) {x : Nat}
    (hx : w.marks.getD x .visited ≠ .visited) : Leveled g { w with marks := w.marks.set! x .visiting } := by
  intro u hu hvu
  have hxlt : x < w.marks.size := lt_of_getD_ne hx
  rw [getD_set!_mark w.marks hxlt] at hvu
  split at hvu
  · cases hvu
  · exact h u hu hvu

/-- Finishing the top pass keeps the visited passes leveled: it takes the level its visited
predecessors give it, and no visited pass has it as a predecessor, since it was open. -/
theorem Leveled.finish {v k : Nat} {rest : List (Nat × Nat)} {w : Walk} (h : Leveled g w)
    (hinv : Inv g ((v, k) :: rest) w) (hp : (g.preds v)[k]? = none) :
    Leveled g ⟨w.marks.set! v .visited, w.level.set! v (g.levelFrom w.level v)⟩ := by
  have hall := hinv.preds_visited hp
  have hv := hinv.open_.1
  have hvlt : v < w.marks.size := lt_of_getD_ne (by rw [hv]; decide)
  have hget := getD_set!_mark w.marks hvlt .visited
  have hlget := Array.getD_set! w.level (by rw [hinv.size_level, ← hinv.size_marks]; exact hvlt)
    (g.levelFrom w.level v)
  have hne : ∀ u, w.marks.getD u .visited = .visited → u ≠ v := by
    rintro u hu rfl
    rw [hv] at hu
    cases hu
  -- the level of `v` changes, and it is a predecessor of no visited pass
  have hfrom : ∀ u, (∀ p ∈ g.preds u, p ≠ v) →
      g.levelFrom (w.level.set! v (g.levelFrom w.level v)) u = g.levelFrom w.level u :=
    fun u hu => levelFrom_congr fun p hp => by rw [hlget, if_neg (hu p hp)]
  intro u hu hvu
  by_cases huv : u = v
  · subst huv
    rw [hfrom u fun p hp => hne p (hall p hp), hlget, if_pos rfl]
  · rw [hget, if_neg huv] at hvu
    rw [hfrom u fun p hp => hne p (hinv.closed u hu hvu p hp).1, hlget, if_neg huv]
    exact h u hu hvu

/-- A walk from a chained stack, with its visited passes leveled, ends soundly. -/
theorem explore_sound {fuel : Nat} {stack : List (Nat × Nat)} {w : Walk} (h : Inv g stack w)
    (hc : Chained g stack) (hl : Leveled g w) : Sound g (explore g fuel stack w) := by
  induction fuel generalizing stack w with
  | zero => exact hl
  | succ fuel ih =>
    cases stack with
    | nil => exact hl
    | cons e rest =>
      obtain ⟨v, k⟩ := e
      unfold explore
      cases hp : (g.preds v)[k]? with
      | some pred =>
        have hpred : pred ∈ g.preds v := List.mem_of_getElem? hp
        simp only [hp]
        cases hm : w.marks.getD pred .visited with
        | unvisited =>
          -- open the predecessor on top of the stack
          exact ih (h.push hp hm) ⟨hpred, hc.advance⟩ (hl.set_visiting (by rw [hm]; decide))
        | visiting => exact hc.not_acyclic h hpred hm
        | visited => exact ih (h.skip hp hm) hc.advance hl
      | none =>
        simp only [hp]
        exact ih (h.finish hp) hc.tail (hl.finish h hp)

/-- Walking from a list of roots, with the visited passes leveled, ends soundly. -/
theorem walkFrom_sound (roots : List Nat) {w : Walk} (h : Inv g [] w) (hl : Leveled g w) :
    Sound g (walkFrom g (g.edges.length + g.passCount + 1) roots w) := by
  induction roots generalizing w with
  | nil => exact hl
  | cons root rest ih =>
    unfold walkFrom
    split
    · exact ih h hl
    · rename_i hun
      have hm : w.marks.getD root .visited = .unvisited := by simpa using hun
      have hstart := h.start hm
      have hexp : Sound g (explore g (g.edges.length + g.passCount + 1) [(root, 0)]
          { w with marks := w.marks.set! root .visiting }) :=
        explore_sound hstart trivial (hl.set_visiting (by rw [hm]; decide))
      -- a failed walk from the root fails the whole walk; a finished one goes on to the rest
      rcases hres : explore g (g.edges.length + g.passCount + 1) [(root, 0)]
          { w with marks := w.marks.set! root .visiting } with e | w'
      · rw [hres] at hexp
        exact hexp
      · rw [hres] at hexp
        exact ih (explore_ok hstart (weight_start_lt h hm) hres).1 hexp

/-! ### The levels -/

theorem leveled_initial (g : Graph) :
    Leveled g ⟨Array.replicate g.passCount .unvisited, Array.replicate g.passCount 0⟩ := by
  intro v hv hvis
  simp [Array.getD_eq_getD_getElem?, hv] at hvis

/-- **`levels` fails only on a cycle.** -/
theorem levels_ok_of_acyclic (hacyc : g.Acyclic) : ∃ level, levels g = .ok level := by
  have hwalk := walkFrom_sound (List.range g.passCount) (inv_initial g) (leveled_initial g)
  rcases hres : walkFrom g (g.edges.length + g.passCount + 1) (List.range g.passCount)
      ⟨Array.replicate g.passCount .unvisited, Array.replicate g.passCount 0⟩ with e | w
  · rw [hres] at hwalk
    exact absurd hacyc hwalk
  · refine ⟨w.level, ?_⟩
    unfold levels
    simp only [hres]
    rfl

/-- When `levels` succeeds, every pass has the level its predecessors give it. -/
theorem levels_eq_levelFrom {level : Array Nat} (h : levels g = .ok level) {v : Nat}
    (hv : v < g.passCount) : level.getD v 0 = g.levelFrom level v := by
  unfold levels at h
  obtain ⟨w, hw, hlevel⟩ := Except.exists_of_bind_eq_ok h
  cases hlevel
  have hwalk := walkFrom_sound (List.range g.passCount) (inv_initial g) (leveled_initial g)
  rw [hw] at hwalk
  -- every pass is visited at the end, so the level equation holds for all of them
  obtain ⟨-, -, hroots⟩ := walkFrom_ok (inv_initial g) hw
  exact hwalk v hv (hroots v (List.mem_range.mpr hv) hv)

/-- A pass above level 0 has a predecessor one level below it. -/
theorem exists_pred_of_levelFrom_pos {L : Array Nat} {v : Nat} (h : 0 < g.levelFrom L v) :
    ∃ p ∈ g.preds v, L.getD p 0 + 1 = g.levelFrom L v := by
  unfold Graph.levelFrom at h ⊢
  rcases hm : ((g.preds v).map fun p => L.getD p 0 + 1).max? with _ | m
  · rw [hm] at h
    cases h
  · obtain ⟨p, hp, hpm⟩ := List.mem_map.mp (List.max?_mem hm)
    exact ⟨p, hp, hpm⟩

section Paths

variable (hedges : ∀ e ∈ g.edges, e.producer < g.passCount ∧ e.consumer < g.passCount)
include hedges

theorem lt_passCount_of_mem_preds {p c : Nat} (hp : p ∈ g.preds c) : p < g.passCount ∧ c < g.passCount := by
  obtain ⟨e, he, rfl, rfl⟩ := Graph.mem_preds.mp hp
  exact hedges e he

/-- Levels grow along every chain of edges. -/
theorem levels_lt_of_transGen {level : Array Nat} (h : levels g = .ok level) {u v : Nat}
    (huv : Relation.TransGen g.Dep u v) : level.getD u 0 < level.getD v 0 := by
  induction huv with
  | single hp => exact levels_lt h (lt_passCount_of_mem_preds hedges hp).2 hp
  | tail _ hp ih => exact ih.trans (levels_lt h (lt_passCount_of_mem_preds hedges hp).2 hp)

/-- **`levels` succeeds exactly when the graph has no cycle.** -/
theorem levels_ok_iff : (∃ level, levels g = .ok level) ↔ g.Acyclic := by
  constructor
  · rintro ⟨level, h⟩ p hp
    exact Nat.lt_irrefl _ (levels_lt_of_transGen hedges h hp)
  · exact levels_ok_of_acyclic

/-- A path of the level's length ends at every pass: follow, from the pass down, a predecessor
that gives the maximum. -/
theorem levels_pathTo {level : Array Nat} (h : levels g = .ok level) {v : Nat}
    (hv : v < g.passCount) : g.PathTo (level.getD v 0) v := by
  induction hn : level.getD v 0 using Nat.strong_induction_on generalizing v with
  | _ n ih =>
    rcases Nat.eq_zero_or_pos n with rfl | hpos
    · exact .nil v
    · rw [← hn, levels_eq_levelFrom h hv] at hpos
      obtain ⟨p, hp, hpl⟩ := exists_pred_of_levelFrom_pos hpos
      rw [← levels_eq_levelFrom h hv, hn] at hpl
      have hpath := ih (level.getD p 0) (by omega) (lt_passCount_of_mem_preds hedges hp).1 rfl
      rw [← hpl]
      exact .cons hpath hp

/-- No path ending at a pass is longer than its level. -/
theorem le_levels_of_pathTo {level : Array Nat} (h : levels g = .ok level) {k v : Nat}
    (hk : g.PathTo k v) : k ≤ level.getD v 0 := by
  induction hk with
  | nil => exact Nat.zero_le _
  | cons _ hp ih => exact Nat.succ_le_of_lt (Nat.lt_of_le_of_lt ih
      (levels_lt h (lt_passCount_of_mem_preds hedges hp).2 hp))

/-- **The level of a pass is the length of the longest dependency path that ends at it.** -/
theorem levels_isGreatest {level : Array Nat} (h : levels g = .ok level) {v : Nat}
    (hv : v < g.passCount) : IsGreatest {k | g.PathTo k v} (level.getD v 0) :=
  ⟨levels_pathTo hedges h hv, fun _ hk => le_levels_of_pathTo hedges h hk⟩

end Paths

end Schedule

end RenderGraph
