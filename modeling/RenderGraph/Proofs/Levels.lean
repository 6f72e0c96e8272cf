import RenderGraph.Proofs.Logged
import RenderGraph.Proofs.Tables
import RenderGraph.Schedule
/-!
# Levels

`levels` walks the graph depth first from every pass in declaration order, with an explicit stack
of open passes, each paired with the index of its next predecessor to look at. A pass is finished
when all its predecessors are visited, and its level is then one more than the largest of theirs.

The walk keeps an invariant, `Inv`: visited passes have visited predecessors of smaller levels
(`Closed`), and the open passes form the stack (`Open`). Each step keeps it (`Inv.push`,
`Inv.skip`, `Inv.finish`). Each step also takes one unit of a weight, the predecessors left to
look at plus one per pass left to finish (`stackWeight`, `unvisitedWeight`), which starts at most
at the edges plus the passes; so the fuel the walk is given never runs out (`explore_ok`). Hence,
when `levels` succeeds, every pass lies above each of its predecessors (`levels_lt`).
-/

namespace RenderGraph.Schedule

variable (g : Graph)

/-- Every visited pass below the pass count has visited predecessors, each of a smaller level. -/
def Closed (w : Walk) : Prop :=
  ∀ v < g.passCount, w.marks.getD v .visited = .visited →
    ∀ p ∈ g.preds v, w.marks.getD p .visited = .visited ∧ w.level.getD p 0 < w.level.getD v 0

/-- The open passes of a walk, top first: each marked visiting and open once, with every
predecessor before its next index visited, except the pass directly above it, still open. -/
def Open (w : Walk) : Option Nat → List (Nat × Nat) → Prop
  | _, [] => True
  | above, (v, k) :: rest =>
    w.marks.getD v .visited = .visiting ∧ v ∉ rest.map Prod.fst ∧
      (∀ i < k, ∀ p, (g.preds v)[i]? = some p → w.marks.getD p .visited = .visited ∨ some p = above) ∧
      Open w (some v) rest

/-- What the walk keeps between steps. -/
structure Inv (stack : List (Nat × Nat)) (w : Walk) : Prop where
  size_marks : w.marks.size = g.passCount
  size_level : w.level.size = g.passCount
  closed : Closed g w
  open_ : Open g w none stack
  visiting_mem : ∀ v, w.marks.getD v .visited = .visiting → v ∈ stack.map Prod.fst

/-- The steps left to the passes not yet reached: one per predecessor and one to finish. -/
def unvisitedWeight (marks : Array Mark) : Nat :=
  ∑ u ∈ (Finset.range g.passCount).filter (fun u => marks.getD u .visited = .unvisited),
    ((g.preds u).length + 1)

/-- The steps left to the open passes: one per predecessor not yet looked at and one to
finish. -/
def stackWeight (stack : List (Nat × Nat)) : Nat :=
  (stack.map fun e => (g.preds e.1).length - e.2 + 1).sum

/-- The steps a walk has left: one per predecessor not yet looked at and one per pass not yet
finished. -/
def weight (g : Graph) (stack : List (Nat × Nat)) (w : Walk) : Nat :=
  stackWeight g stack + unvisitedWeight g w.marks

variable {g}

theorem lt_of_getD_ne {marks : Array Mark} {v : Nat} (h : marks.getD v .visited ≠ .visited) :
    v < marks.size := by
  by_contra hv
  rw [Array.getD_eq_getD_getElem?, Array.getElem?_eq_none (by omega)] at h
  exact h rfl

theorem Open.mono {w w' : Walk} {above : Option Nat} {stack : List (Nat × Nat)}
    (h : Open g w above stack)
    (hvis : ∀ u, w.marks.getD u .visited = .visited → w'.marks.getD u .visited = .visited)
    (hopen : ∀ u ∈ stack.map Prod.fst, w'.marks.getD u .visited = .visiting) :
    Open g w' above stack := by
  induction stack generalizing above with
  | nil => trivial
  | cons e rest ih =>
    obtain ⟨v, k⟩ := e
    obtain ⟨-, hnot, hpreds, hrest⟩ := h
    refine ⟨hopen v (by simp), hnot, fun i hi p hp => ?_, ih hrest fun u hu => hopen u (by simp [hu])⟩
    rcases hpreds i hi p hp with h | h
    · exact .inl (hvis p h)
    · exact .inr h

/-- A pass directly below a finished pass has only visited predecessors before its index. -/
theorem Open.of_above {w : Walk} {v : Nat} {stack : List (Nat × Nat)} (h : Open g w (some v) stack)
    (hv : w.marks.getD v .visited = .visited) : Open g w none stack := by
  cases stack with
  | nil => trivial
  | cons e rest =>
    obtain ⟨u, k⟩ := e
    obtain ⟨hu, hnot, hpreds, hrest⟩ := h
    refine ⟨hu, hnot, fun i hi p hp => ?_, hrest⟩
    rcases hpreds i hi p hp with h | h
    · exact .inl h
    · cases h
      exact .inl hv

theorem Open.visiting {w : Walk} {above : Option Nat} {stack : List (Nat × Nat)}
    (h : Open g w above stack) : ∀ u ∈ stack.map Prod.fst, w.marks.getD u .visited = .visiting := by
  induction stack generalizing above with
  | nil => simp
  | cons e rest ih =>
    obtain ⟨v, k⟩ := e
    intro u hu
    rcases List.mem_cons.mp hu with rfl | hu
    · exact h.1
    · exact ih h.2.2.2 u hu

/-! ### Weights -/

theorem getD_set!_mark (marks : Array Mark) {x : Nat} (hx : x < marks.size) (m : Mark) (u : Nat) :
    (marks.set! x m).getD u .visited = if u = x then m else marks.getD u .visited :=
  Array.getD_set! marks hx m u .visited

/-- Marking an unvisited pass takes its weight off. -/
theorem unvisitedWeight_set_unvisited {marks : Array Mark} (hsize : marks.size = g.passCount)
    {x : Nat} (hx : marks.getD x .visited = .unvisited) {m : Mark} (hm : m ≠ .unvisited) :
    unvisitedWeight g (marks.set! x m) + ((g.preds x).length + 1) = unvisitedWeight g marks :=
  Array.sum_filter_set! marks hsize (hsize ▸ lt_of_getD_ne (by rw [hx]; decide)) m .visited
    (· = .unvisited) _ hx hm

/-- Remarking a pass that is not unvisited keeps the weight. -/
theorem unvisitedWeight_set_of_ne {marks : Array Mark} {x : Nat}
    (hx : marks.getD x .visited ≠ .unvisited) {m : Mark} (hm : m ≠ .unvisited) :
    unvisitedWeight g (marks.set! x m) = unvisitedWeight g marks := by
  unfold unvisitedWeight
  congr 1
  ext u
  simp only [Finset.mem_filter, Finset.mem_range]
  by_cases hlt : x < marks.size
  · rw [getD_set!_mark marks hlt]
    by_cases hu : u = x
    · subst hu
      rw [if_pos rfl]
      exact ⟨fun h => absurd h.2 hm, fun h => absurd h.2 hx⟩
    · rw [if_neg hu]
  · rw [Array.set!_eq_setIfInBounds, Array.setIfInBounds_eq_of_size_le (by omega)]

/-! ### One step of the walk -/

variable {rest : List (Nat × Nat)} {w : Walk} {v k pred : Nat}

/-- Opening an unvisited predecessor of the top pass keeps the invariant. -/
theorem Inv.push (h : Inv g ((v, k) :: rest) w) (hp : (g.preds v)[k]? = some pred)
    (hm : w.marks.getD pred .visited = .unvisited) :
    Inv g ((pred, 0) :: (v, k + 1) :: rest) { w with marks := w.marks.set! pred .visiting } := by
  have hlt : pred < w.marks.size := lt_of_getD_ne (by rw [hm]; decide)
  have hget := getD_set!_mark w.marks hlt .visiting
  -- only the marks of `pred` change, from unvisited to visiting
  have hvis : ∀ u, w.marks.getD u .visited = .visited →
      (w.marks.set! pred .visiting).getD u .visited = .visited := by
    intro u hu
    rw [hget, if_neg (by rintro rfl; rw [hm] at hu; cases hu)]
    exact hu
  have hold := h.open_.visiting
  obtain ⟨hv, hnot, hpreds, hrest⟩ := h.open_
  refine ⟨by simp [h.size_marks], h.size_level, fun u hu hvu p hp' => ?_, ?_, fun u hu => ?_⟩
  · have hu' : w.marks.getD u .visited = .visited := by
      rw [hget] at hvu
      split at hvu
      · cases hvu
      · exact hvu
    obtain ⟨hpv, hlevel⟩ := h.closed u hu hu' p hp'
    exact ⟨hvis p hpv, hlevel⟩
  · have hne : ∀ u ∈ (v, k) :: rest |>.map Prod.fst, u ≠ pred := by
      rintro u hu rfl
      rw [hold u hu] at hm
      cases hm
    refine ⟨by rw [hget, if_pos rfl], fun hmem => hne pred hmem rfl, by simp, ?_⟩
    refine ⟨by rw [hget, if_neg (hne v (by simp))]; exact hv, hnot, fun i hi p hp' => ?_, ?_⟩
    · rcases Nat.lt_succ_iff_lt_or_eq.mp hi with hi | rfl
      · rcases hpreds i hi p hp' with hpv | hpv
        · exact .inl (hvis p hpv)
        · cases hpv
      · rw [hp] at hp'
        exact .inr hp'.symm
    · refine hrest.mono hvis fun u hu => ?_
      rw [hget, if_neg (hne u (by simp [hu]))]
      exact hold u (by simp [hu])
  · rw [hget] at hu
    split at hu
    · rename_i hup
      simp [hup]
    · exact List.mem_cons_of_mem _ (h.visiting_mem u hu)

/-- Passing over a visited predecessor keeps the invariant. -/
theorem Inv.skip (h : Inv g ((v, k) :: rest) w) (hp : (g.preds v)[k]? = some pred)
    (hm : w.marks.getD pred .visited = .visited) : Inv g ((v, k + 1) :: rest) w := by
  obtain ⟨hv, hnot, hpreds, hrest⟩ := h.open_
  refine ⟨h.size_marks, h.size_level, h.closed, ⟨hv, hnot, fun i hi p hp' => ?_, hrest⟩,
    h.visiting_mem⟩
  rcases Nat.lt_succ_iff_lt_or_eq.mp hi with hi | rfl
  · exact hpreds i hi p hp'
  · rw [hp] at hp'
    cases hp'
    exact .inl hm

/-- When the top pass has no predecessor left to look at, all its predecessors are visited. -/
theorem Inv.preds_visited (h : Inv g ((v, k) :: rest) w) (hp : (g.preds v)[k]? = none) :
    ∀ p ∈ g.preds v, w.marks.getD p .visited = .visited := by
  obtain ⟨-, -, hpreds, -⟩ := h.open_
  intro p hp'
  -- the predecessors before the next index are all of them
  obtain ⟨i, hi⟩ := List.mem_iff_getElem?.mp hp'
  have hik : i < k := by
    have := List.getElem?_eq_none_iff.mp hp
    have := (List.getElem?_eq_some_iff.mp hi).1
    omega
  rcases hpreds i hik p hi with h | h
  · exact h
  · cases h

/-- Finishing the top pass, all of whose predecessors are looked at, keeps the invariant: its
level is above that of each predecessor. -/
theorem Inv.finish (h : Inv g ((v, k) :: rest) w) (hp : (g.preds v)[k]? = none) :
    Inv g rest ⟨w.marks.set! v .visited,
      w.level.set! v (((g.preds v).map fun p => w.level.getD p 0 + 1).max?.getD 0)⟩ := by
  have hall := h.preds_visited hp
  obtain ⟨hv, hnot, -, hrest⟩ := h.open_
  have hvlt : v < w.marks.size := lt_of_getD_ne (by rw [hv]; decide)
  have hget := getD_set!_mark w.marks hvlt .visited
  have hlget := Array.getD_set! w.level (by rw [h.size_level, ← h.size_marks]; exact hvlt)
    (((g.preds v).map fun p => w.level.getD p 0 + 1).max?.getD 0)
  have hne : ∀ u, w.marks.getD u .visited = .visited → u ≠ v := by
    rintro u hu rfl
    rw [hv] at hu
    cases hu
  have hvis : ∀ u, w.marks.getD u .visited = .visited →
      (w.marks.set! v .visited).getD u .visited = .visited := by
    intro u hu
    rw [hget, if_neg (hne u hu)]
    exact hu
  refine ⟨by simp [h.size_marks], by simp [h.size_level], fun u hu hvu p hp' => ?_, ?_,
    fun u hu => ?_⟩
  · by_cases huv : u = v
    · subst huv
      refine ⟨hvis p (hall p hp'), ?_⟩
      simp only [hlget, if_neg (hne p (hall p hp'))]
      exact List.le_max?_getD_of_mem (List.mem_map_of_mem hp')
    · rw [hget, if_neg huv] at hvu
      obtain ⟨hpv, hlevel⟩ := h.closed u hu hvu p hp'
      refine ⟨hvis p hpv, ?_⟩
      simp only [hlget, if_neg (hne p hpv), if_neg huv]
      exact hlevel
  · refine (hrest.mono hvis fun u hu => ?_).of_above (by rw [hget, if_pos rfl])
    rw [hget, if_neg (fun e : u = v => hnot (e ▸ hu))]
    exact hrest.visiting u hu
  · rw [hget] at hu
    split at hu
    · cases hu
    · rename_i huv
      rcases List.mem_cons.mp (h.visiting_mem u hu) with e | hmem
      · exact absurd e huv
      · exact hmem

/-! ### The walk from one root -/

theorem stackWeight_cons (v k : Nat) (rest : List (Nat × Nat)) :
    stackWeight g ((v, k) :: rest) = (g.preds v).length - k + 1 + stackWeight g rest := by
  simp [stackWeight]

/-- A walk with more fuel than weight runs to its end: it closes every open pass, keeps every
visited pass visited and leaves nothing open. Each step takes one unit of weight, so the fuel
never runs out first. -/
theorem explore_ok {fuel : Nat} {stack : List (Nat × Nat)} {w w' : Walk} (h : Inv g stack w)
    (hfuel : stackWeight g stack + unvisitedWeight g w.marks < fuel)
    (hok : explore g fuel stack w = .ok w') :
    Inv g [] w' ∧ (∀ u, w.marks.getD u .visited = .visited → w'.marks.getD u .visited = .visited) ∧
      ∀ u ∈ stack.map Prod.fst, w'.marks.getD u .visited = .visited := by
  induction fuel generalizing stack w with
  | zero => omega
  | succ fuel ih =>
    cases stack with
    | nil =>
      cases hok
      exact ⟨h, fun _ hu => hu, by simp⟩
    | cons e rest =>
      obtain ⟨v, k⟩ := e
      have hlen : ∀ pred, (g.preds v)[k]? = some pred → k < (g.preds v).length := fun pred hp =>
        (List.getElem?_eq_some_iff.mp hp).1
      rw [stackWeight_cons] at hfuel
      unfold explore at hok
      cases hp : (g.preds v)[k]? with
      | some pred =>
        simp only [hp] at hok
        cases hm : w.marks.getD pred .visited with
        | unvisited =>
          rw [hm] at hok
          have hw := unvisitedWeight_set_unvisited h.size_marks hm (m := .visiting) (by decide)
          obtain ⟨hinv, hmono, hmem⟩ := ih (h.push hp hm)
            (by rw [stackWeight_cons, stackWeight_cons]; dsimp only; have := hlen pred hp; omega) hok
          have hold := h.open_.visiting
          refine ⟨hinv, fun u hu => hmono u ?_, fun u hu => hmem u (by simp_all)⟩
          rw [getD_set!_mark w.marks (lt_of_getD_ne (by rw [hm]; decide)), if_neg]
          · exact hu
          · rintro rfl
            rw [hm] at hu
            cases hu
        | visiting =>
          rw [hm] at hok
          cases hok
        | visited =>
          rw [hm] at hok
          obtain ⟨hinv, hmono, hmem⟩ := ih (h.skip hp hm)
            (by rw [stackWeight_cons]; have := hlen pred hp; omega) hok
          exact ⟨hinv, hmono, fun u hu => hmem u (by simpa using hu)⟩
      | none =>
        simp only [hp] at hok
        have hv := h.open_.1
        have hw := unvisitedWeight_set_of_ne (g := g) (by rw [hv]; decide) (m := .visited) (by decide)
        obtain ⟨hinv, hmono, hmem⟩ := ih (h.finish hp) (by dsimp only; rw [hw]; omega) hok
        have hvlt : v < w.marks.size := lt_of_getD_ne (by rw [hv]; decide)
        refine ⟨hinv, fun u hu => hmono u ?_, fun u hu => ?_⟩
        · rw [getD_set!_mark w.marks hvlt, if_neg]
          · exact hu
          · rintro rfl
            rw [hv] at hu
            cases hu
        · rcases List.mem_cons.mp hu with rfl | hu
          · exact hmono _ (by rw [getD_set!_mark w.marks hvlt, if_pos rfl])
          · exact hmem u hu

/-! ### The walk from every root -/

/-- Every edge counts for one predecessor of its consumer. -/
theorem sum_length_preds_le (s : Finset Nat) : ∑ u ∈ s, (g.preds u).length ≤ g.edges.length := by
  unfold Graph.preds
  simp only [List.length_map]
  generalize g.edges = E
  induction E with
  | nil => simp
  | cons e E ih =>
    have hcons : ∀ u, ((e :: E).filter (·.consumer == u)).length =
        (if e.consumer = u then 1 else 0) + (E.filter (·.consumer == u)).length := by
      intro u
      by_cases hu : e.consumer = u <;> simp [hu, Nat.add_comm]
    simp only [hcons, Finset.sum_add_distrib, Finset.sum_ite_eq, List.length_cons]
    have : (if e.consumer ∈ s then 1 else 0) ≤ 1 := by split <;> omega
    omega

/-- The weight of the passes not yet reached is at most one per edge and one per pass. -/
theorem unvisitedWeight_le (marks : Array Mark) :
    unvisitedWeight g marks ≤ g.edges.length + g.passCount := by
  calc unvisitedWeight g marks
      ≤ ∑ u ∈ Finset.range g.passCount, ((g.preds u).length + 1) :=
        Finset.sum_le_sum_of_subset (Finset.filter_subset _ _)
    _ = ∑ u ∈ Finset.range g.passCount, (g.preds u).length + g.passCount := by
        rw [Finset.sum_add_distrib, Finset.sum_const, Finset.card_range, smul_eq_mul, mul_one]
    _ ≤ g.edges.length + g.passCount := by
        have := sum_length_preds_le (g := g) (Finset.range g.passCount)
        omega

/-- Opening an unvisited root, with nothing open, starts a walk that keeps the invariant. -/
theorem Inv.start {w : Walk} {root : Nat} (h : Inv g [] w)
    (hm : w.marks.getD root .visited = .unvisited) :
    Inv g [(root, 0)] { w with marks := w.marks.set! root .visiting } := by
  have hget := getD_set!_mark w.marks (lt_of_getD_ne (by rw [hm]; decide)) .visiting
  refine ⟨by simp [h.size_marks], h.size_level, fun u hu hvu p hp => ?_,
    ⟨by rw [hget, if_pos rfl], by simp, by simp, trivial⟩, fun u hu => ?_⟩
  · have hu' : w.marks.getD u .visited = .visited := by
      rw [hget] at hvu
      split at hvu
      · cases hvu
      · exact hvu
    obtain ⟨hpv, hlevel⟩ := h.closed u hu hu' p hp
    refine ⟨?_, hlevel⟩
    rw [hget, if_neg]
    · exact hpv
    · rintro rfl
      rw [hm] at hpv
      cases hpv
  · rw [hget] at hu
    split at hu
    · rename_i hu'
      simp [hu']
    · exact absurd (h.visiting_mem u hu) (by simp)

/-- A walk from a new root starts below the bound `levels` gives every root. -/
theorem weight_start_lt {w : Walk} {root : Nat} (h : Inv g [] w)
    (hm : w.marks.getD root .visited = .unvisited) :
    weight g [(root, 0)] { w with marks := w.marks.set! root .visiting } <
      g.edges.length + g.passCount + 1 := by
  have hw := unvisitedWeight_set_unvisited h.size_marks hm (m := .visiting) (by decide)
  have hle := unvisitedWeight_le (g := g) w.marks
  rw [weight, stackWeight_cons]
  simp only [stackWeight, List.map_nil, List.sum_nil]
  omega

/-- Walking from a list of roots keeps the invariant, keeps visited passes visited, and leaves
every root below the pass count visited. -/
theorem walkFrom_ok {roots : List Nat} {w w' : Walk} (h : Inv g [] w)
    (hok : walkFrom g (g.edges.length + g.passCount + 1) roots w = .ok w') :
    Inv g [] w' ∧ (∀ u, w.marks.getD u .visited = .visited → w'.marks.getD u .visited = .visited) ∧
      ∀ u ∈ roots, u < g.passCount → w'.marks.getD u .visited = .visited := by
  induction roots generalizing w with
  | nil =>
    cases hok
    exact ⟨h, fun _ hu => hu, by simp⟩
  | cons root rest ih =>
    unfold walkFrom at hok
    split at hok
    · -- the root is reached already, so it is visited
      rename_i hne
      obtain ⟨hinv, hmono, hroots⟩ := ih h hok
      refine ⟨hinv, hmono, fun u hu hlt => ?_⟩
      rcases List.mem_cons.mp hu with rfl | hu
      · apply hmono
        cases hm : w.marks.getD u .visited with
        | unvisited => exact absurd hm hne
        | visiting => exact absurd (h.visiting_mem u hm) (by simp)
        | visited => rfl
      · exact hroots u hu hlt
    · rename_i hun
      have hm : w.marks.getD root .visited = .unvisited := by simpa using hun
      obtain ⟨w1, hw1, hrest⟩ := Except.exists_of_bind_eq_ok hok
      obtain ⟨hinv1, hmono1, hmem1⟩ := explore_ok (h.start hm) (weight_start_lt h hm) hw1
      obtain ⟨hinv, hmono, hroots⟩ := ih hinv1 hrest
      refine ⟨hinv, fun u hu => hmono u (hmono1 u ?_), fun u hu hlt => ?_⟩
      · rw [getD_set!_mark w.marks (lt_of_getD_ne (by rw [hm]; decide)), if_neg]
        · exact hu
        · rintro rfl
          rw [hm] at hu
          cases hu
      · rcases List.mem_cons.mp hu with rfl | hu
        · exact hmono u (hmem1 u (by simp))
        · exact hroots u hu hlt

/-- The walk `levels` starts from: nothing visited, every level 0. -/
theorem inv_initial (g : Graph) :
    Inv g [] ⟨Array.replicate g.passCount .unvisited, Array.replicate g.passCount 0⟩ := by
  refine ⟨Array.size_replicate, Array.size_replicate, fun v hv hvis => ?_, trivial,
    fun v hvis => ?_⟩
  · simp [Array.getD_eq_getD_getElem?, hv] at hvis
  · simp only [Array.getD_eq_getD_getElem?, Array.getElem?_replicate] at hvis
    split at hvis <;> cases hvis

/-- **Levels order the graph**: when `levels` succeeds, every pass lies on a higher level than
each of its predecessors. -/
theorem levels_lt {level : Array Nat} (h : levels g = .ok level) {c : Nat} (hc : c < g.passCount)
    {p : Nat} (hp : p ∈ g.preds c) : level.getD p 0 < level.getD c 0 := by
  unfold levels at h
  obtain ⟨w, hw, hlevel⟩ := Except.exists_of_bind_eq_ok h
  cases hlevel
  obtain ⟨hinv, -, hroots⟩ := walkFrom_ok (inv_initial g) hw
  exact (hinv.closed c hc (hroots c (List.mem_range.mpr hc) hc) p hp).2

end RenderGraph.Schedule
