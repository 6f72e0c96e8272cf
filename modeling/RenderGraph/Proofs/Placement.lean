import RenderGraph.Proofs.Logged
import RenderGraph.Proofs.Tables
import RenderGraph.Schedule
/-!
# The shape of a schedule

`Schedule.build` places the ordered live passes one after the other: each pass gets its position
in the order, joins the end of its queue's list and takes that list's length as its queue index.
This module says what that leaves behind, for every registry and every order of distinct passes:

* `place_placed`: the queue lists are the order filtered by queue class, positions name exactly
  the passes of the order, and the pass at index `i` of a queue list has queue index `i`;
* `build_returns`: a successful `Schedule.build` has succeeded in computing levels, orders the live
  passes and places them;
* `Schedule.Placement`, with `build_placement`: the facts the later stages rely on, stated on the
  schedule alone.
-/

namespace RenderGraph

/-- The queue class a registry gives a declaration index; indices past the passes read as
graphics. -/
def Registry.queueOf (r : Registry) (p : Nat) : QueueClass := (r.passes[p]?.map (·.queue)).getD .graphics

namespace Schedule

open Logged

/-! ### Placing passes one by one -/

/-- What placing the passes `L` in order leaves behind. -/
structure Placed (r : Registry) (L : List Nat) (position : Array (Option Nat))
    (queueIndex : Array Nat) (queues : PerQueue (List Nat)) : Prop where
  size_position : position.size = r.passes.size
  size_queueIndex : queueIndex.size = r.passes.size
  /-- Each queue lists the placed passes of its class, in order. -/
  queues_eq : ∀ q, queues.get q = L.filter (r.queueOf · = q)
  /-- A pass has a position exactly when it was placed, and it is its index in `L`. -/
  position_eq : ∀ p i, position.getD p none = some i ↔ L[i]? = some p
  /-- The pass at index `i` of a queue list has queue index `i`. -/
  queueIndex_eq : ∀ q i p, (queues.get q)[i]? = some p → queueIndex.getD p 0 = i

theorem place_append (r : Registry) (L : List Nat) (x : Nat) :
    place r (L ++ [x]) =
      let (position, queueIndex, queues) := place r L
      let q := r.queueOf x
      (position.set! x (some L.length), queueIndex.set! x (queues.get q).length,
        queues.set q (queues.get q ++ [x])) := by
  simp only [place, List.zipIdx_append, List.foldl_append, Nat.zero_add, List.zipIdx_cons,
    List.zipIdx_nil, List.foldl_cons, List.foldl_nil]
  rfl

theorem placed_nil (r : Registry) :
    Placed r [] (Array.replicate r.passes.size none) (Array.replicate r.passes.size 0)
      (PerQueue.const []) where
  size_position := Array.size_replicate
  size_queueIndex := Array.size_replicate
  queues_eq q := by cases q <;> rfl
  position_eq p i := by
    simp only [Array.getD_eq_getD_getElem?, Array.getElem?_replicate]
    split <;> simp
  queueIndex_eq q i p h := by cases q <;> simp [PerQueue.const, PerQueue.ofFn, PerQueue.get] at h

/-- Placing one more pass, not placed before, keeps every fact and adds its own. -/
theorem Placed.snoc {r : Registry} {L : List Nat} {x : Nat} {position : Array (Option Nat)}
    {queueIndex : Array Nat} {queues : PerQueue (List Nat)}
    (h : Placed r L position queueIndex queues) (hx : x ∉ L) (hlt : x < r.passes.size) :
    Placed r (L ++ [x]) (position.set! x (some L.length))
      (queueIndex.set! x (queues.get (r.queueOf x)).length)
      (queues.set (r.queueOf x) (queues.get (r.queueOf x) ++ [x])) where
  size_position := by simp [h.size_position]
  size_queueIndex := by simp [h.size_queueIndex]
  queues_eq q := by
    rw [PerQueue.get_set, List.filter_append]
    by_cases hq : q = r.queueOf x
    · subst hq
      simp [h.queues_eq]
    · simp [hq, Ne.symm hq, h.queues_eq]
  position_eq p i := by
    rw [Array.getD_set! position (h.size_position ▸ hlt), getElem?_concat_eq_some]
    by_cases hp : p = x
    · subst hp
      rw [if_pos rfl, Option.some.injEq]
      constructor
      · exact fun e => .inr ⟨e.symm, rfl⟩
      · rintro (hL | ⟨e, -⟩)
        · exact absurd (List.mem_of_getElem? hL) hx
        · exact e.symm
    · rw [if_neg hp, h.position_eq]
      simp [Ne.symm hp]
  queueIndex_eq q i p hi := by
    -- a pass placed before is not `x`, so its queue index stays
    have old : ∀ q', (queues.get q')[i]? = some p →
        (queueIndex.set! x (queues.get (r.queueOf x)).length).getD p 0 = i := by
      intro q' h'
      have hp : p ∈ L := by
        have := List.mem_of_getElem? h'
        rw [h.queues_eq] at this
        exact List.mem_of_mem_filter this
      have hne : p ≠ x := fun e => hx (e ▸ hp)
      rw [Array.getD_set! queueIndex (h.size_queueIndex ▸ hlt), if_neg hne]
      exact h.queueIndex_eq q' i p h'
    rw [PerQueue.get_set] at hi
    split at hi
    · subst q
      rcases getElem?_concat_eq_some.mp hi with hi | ⟨rfl, rfl⟩
      · exact old _ hi
      · rw [Array.getD_set! queueIndex (h.size_queueIndex ▸ hlt), if_pos rfl]
    · exact old q hi

/-- Placing distinct passes of the registry leaves queue lists, positions and queue indices that
agree with the order. -/
theorem place_placed (r : Registry) {L : List Nat} (hL : L.Nodup)
    (hlt : ∀ p ∈ L, p < r.passes.size) :
    Placed r L (place r L).1 (place r L).2.1 (place r L).2.2 := by
  induction L using List.reverseRecOn with
  | nil => exact placed_nil r
  | append_singleton L x ih =>
    rw [List.nodup_append] at hL
    have hx : x ∉ L := fun hm => hL.2.2 x hm x (List.mem_singleton_self x) rfl
    rw [place_append]
    exact (ih hL.1 fun p hp => hlt p (List.mem_append_left _ hp)).snoc hx (hlt x (by simp))

/-! ### Successful schedules -/

/-- A successful `Schedule.build` found the levels, planned its schedule from them and found the
order respecting every edge. -/
theorem build_eq_plan {r : Registry} {g : Graph} {o : BakeOptions} {s : Schedule}
    (h : Returns (Schedule.build r g o) s) :
    levels g = .ok s.level ∧ s = plan r g o s.level ∧ orderViolation? g s = none := by
  unfold Schedule.build at h
  dsimp only at h
  rcases hl : levels g with ⟨pred, pass⟩ | level
  · -- a cycle: the build throws after logging it
    rw [hl] at h
    obtain ⟨_, -, h⟩ := h.bind
    obtain ⟨_, h, -⟩ := h.bind
    exact absurd h Returns.not_throw
  · rw [hl] at h
    obtain ⟨l, hl', hrest⟩ := h.bind
    obtain rfl := hl'.eq_of_yields (Yields.run_pure _)
    -- the traces of culled passes and the summary, then the check of the order
    obtain ⟨_, -, hrest⟩ := hrest.bind
    obtain ⟨_, -, hrest⟩ := hrest.bind
    split at hrest
    · exact absurd hrest Returns.not_throw
    · rename_i hnone
      obtain rfl := hrest.eq_of_yields (Yields.run_pure _)
      exact ⟨rfl, rfl, hnone⟩

/-- A successful `Schedule.build` computed the levels, ordered the live passes by level and
placed them. -/
theorem build_returns {r : Registry} {g : Graph} {o : BakeOptions} {s : Schedule}
    (h : Returns (Schedule.build r g o) s) :
    let live := if o.cullPasses then livePasses r g else Array.replicate r.passes.size true
    levels g = .ok s.level ∧
      s.order = ((List.range r.passes.size).filter (live.getD · false)).mergeSort
        (fun a b => s.level.getD a 0 ≤ s.level.getD b 0) ∧
      s.queue = r.passes.map (·.queue) ∧
      place r s.order = (s.position, s.queueIndex, s.queues) ∧
      s.culled = (List.range r.passes.size).filter (fun i => !live.getD i false) := by
  intro live
  obtain ⟨hl, hs, -⟩ := build_eq_plan h
  refine ⟨hl, ?_⟩
  rw [hs]
  exact ⟨rfl, rfl, rfl, rfl⟩

/-- The shape of a schedule of `n` passes: its order lists distinct passes below `n`, each queue
lists the passes of the order on it, positions are indices in the order and queue indices are
indices in the queue lists. -/
structure Placement (s : Schedule) (n : Nat) : Prop where
  nodup : s.order.Nodup
  lt_of_mem : ∀ p ∈ s.order, p < n
  queues_eq : ∀ q, s.queues.get q = s.order.filter (s.queueOf · = q)
  position_eq : ∀ p i, s.positionOf? p = some i ↔ s.order[i]? = some p
  queueIndex_eq : ∀ q i p, (s.queues.get q)[i]? = some p → s.queueIndexOf p = i

/-- Every schedule planned from levels has the shape of a placement of the registry's passes. -/
theorem plan_placement (r : Registry) (g : Graph) (o : BakeOptions) (level : Array Nat) :
    (plan r g o level).Placement r.passes.size := by
  set s := plan r g o level with hs
  have hnodup : s.order.Nodup :=
    (List.mergeSort_perm _ _).nodup_iff.mpr (List.nodup_range.filter _)
  have hlt : ∀ p ∈ s.order, p < r.passes.size := by
    intro p hp
    rw [hs, plan, List.mem_mergeSort, List.mem_filter, List.mem_range] at hp
    exact hp.1
  have hqueueOf : ∀ p, s.queueOf p = r.queueOf p := by
    intro p
    simp [hs, plan, Schedule.queueOf, Registry.queueOf, Array.getD_eq_getD_getElem?]
  have hp := place_placed r hnodup hlt
  have hplace : place r s.order = (s.position, s.queueIndex, s.queues) := rfl
  rw [hplace] at hp
  refine ⟨hnodup, hlt, fun q => ?_, hp.position_eq, hp.queueIndex_eq⟩
  simp only [hp.queues_eq, hqueueOf]

/-- Every schedule that `Schedule.build` returns has the shape of a placement of the registry's
passes. -/
theorem build_placement {r : Registry} {g : Graph} {o : BakeOptions} {s : Schedule}
    (h : Returns (Schedule.build r g o) s) : s.Placement r.passes.size := by
  obtain ⟨-, hs, -⟩ := build_eq_plan h
  rw [hs]
  exact plan_placement r g o s.level

namespace Placement

variable {s : Schedule} {n : Nat}

theorem isLive_iff (hs : s.Placement n) {p : Nat} : s.isLive p = true ↔ p ∈ s.order := by
  rw [isLive, Option.isSome_iff_exists]
  constructor
  · rintro ⟨i, hi⟩
    exact List.mem_of_getElem? ((hs.position_eq p i).mp hi)
  · intro hp
    obtain ⟨i, hi⟩ := List.mem_iff_getElem?.mp hp
    exact ⟨i, (hs.position_eq p i).mpr hi⟩

theorem mem_queues_iff (hs : s.Placement n) {p : Nat} {q : QueueClass} :
    p ∈ s.queues.get q ↔ p ∈ s.order ∧ s.queueOf p = q := by
  simp [hs.queues_eq]

theorem nodup_queues (hs : s.Placement n) (q : QueueClass) : (s.queues.get q).Nodup := by
  rw [hs.queues_eq]
  exact hs.nodup.filter _

/-- A live pass stands at its queue index in its queue's list. -/
theorem getElem?_queues (hs : s.Placement n) {p : Nat} (hp : p ∈ s.order) :
    (s.queues.get (s.queueOf p))[s.queueIndexOf p]? = some p := by
  have hmem : p ∈ s.queues.get (s.queueOf p) := hs.mem_queues_iff.mpr ⟨hp, rfl⟩
  obtain ⟨i, hi⟩ := List.mem_iff_getElem?.mp hmem
  rw [hs.queueIndex_eq _ i p hi]
  exact hi

theorem queueIndexOf_lt (hs : s.Placement n) {p : Nat} (hp : p ∈ s.order) :
    s.queueIndexOf p < (s.queues.get (s.queueOf p)).length :=
  (List.getElem?_eq_some_iff.mp (hs.getElem?_queues hp)).1

end Placement

end Schedule

end RenderGraph
