import RenderGraph.Proofs.Sharing
/-!
# What the live passes touch, position by position

`Usage.collect` walks the schedule once. For every resource it keeps the range of positions at
which live passes touch it, and for every chain base the state of the first access to its chain.
This module says what both tables hold, for every registry and schedule:

* the range of a resource runs from the first to the last position that touches it, and a
  resource that no live pass touches has none (`find?_liveness_collect`); the present image's
  range ends at the last position and starts at 0 when nothing touches it
  (`find?_liveness_collect_present`);
* the state recorded for a base is that of the first access, in schedule order, to a resource
  of its chain (`find?_initial_collect`), where a pass makes its explicit reads first, then its
  writes, then its bindless reads (`passStates`).

Both are fold invariants over the part of the schedule walked so far, each carried by a lemma
about one recorded pass (`find?_liveness_record`, `find?_initial_record`).
-/

namespace RenderGraph

namespace MemoryPlan

variable {r : Registry}

/-! ### Association lists -/

section Lists

variable {α β : Type}

theorem find?_append (t t' : List (Res × α)) (k : Res) :
    find? (t ++ t') k = (find? t k).or (find? t' k) := by
  simp only [find?, List.find?_append, Option.map_or]

theorem isSome_find? (t : List (Res × α)) (k : Res) :
    (find? t k).isSome = t.any (·.1 == k) := by
  rw [Bool.eq_iff_iff]
  simp [find?, List.find?_isSome, List.any_eq_true]

/-- Inserting each element's key unless it is present already keeps, for every key, the value
of the first element with that key. -/
theorem find?_foldl_firstState (key : β → Res) (val : β → α) (L : List β) (t : List (Res × α))
    (k : Res) :
    find? (L.foldl (fun t x => if t.any (·.1 == key x) then t else t ++ [(key x, val x)]) t) k =
      (find? t k).or ((L.find? fun x => key x == k).map val) := by
  induction L generalizing t with
  | nil => simp
  | cons x rest ih =>
    rw [List.foldl_cons, ih]
    by_cases hk : key x = k
    · -- the key of `x` is `k`: its value is the one found before, or that of `x`
      subst hk
      rw [List.find?_cons_of_pos (p := fun y => key y == key x) (beq_self_eq_true _)]
      split
      · rename_i hany
        obtain ⟨v, hv⟩ := Option.isSome_iff_exists.mp ((isSome_find? t (key x)).trans hany)
        simp [hv]
      · rename_i hany
        have hnone : t.find? (·.1 == key x) = none :=
          List.find?_eq_none.mpr fun a ha hka => hany (List.any_eq_true.mpr ⟨a, ha, hka⟩)
        simp [find?, hnone]
    · rw [List.find?_cons_of_neg (p := fun y => key y == k) (by simpa using hk)]
      split
      · rfl
      · rw [find?_append]
        simp [find?, hk]

end Lists

/-! ### Positions -/

/-- The resources a pass touches; none for a pass that is not registered. -/
def touchedBy (r : Registry) (pass : Nat) : List Res := ((r.passes[pass]?).map touched).getD []

/-- The pass at position `pos` of `order` touches `res`. -/
def TouchedAt (r : Registry) (order : List Nat) (res : Res) (pos : Nat) : Prop :=
  ∃ pass, order[pos]? = some pass ∧ res ∈ touchedBy r pass

/-- `k` is the first position where `P` holds. -/
def IsFirst (P : Nat → Prop) (k : Nat) : Prop := P k ∧ ∀ pos, P pos → k ≤ pos

/-- `k` is the last position where `P` holds. -/
def IsLast (P : Nat → Prop) (k : Nat) : Prop := P k ∧ ∀ pos, P pos → pos ≤ k

theorem mem_touchedBy {pass : Nat} {res : Res} :
    res ∈ touchedBy r pass ↔ ∃ info, r.passes[pass]? = some info ∧ res ∈ touched info := by
  unfold touchedBy
  cases r.passes[pass]? <;> simp

theorem TouchedAt.lt_length {order : List Nat} {res : Res} {pos : Nat}
    (h : TouchedAt r order res pos) : pos < order.length := by
  obtain ⟨pass, hpass, -⟩ := h
  exact (List.getElem?_eq_some_iff.mp hpass).1

theorem touchedAt_append_singleton {L : List Nat} {p : Nat} {res : Res} {pos : Nat} :
    TouchedAt r (L ++ [p]) res pos ↔
      TouchedAt r L res pos ∨ (pos = L.length ∧ res ∈ touchedBy r p) := by
  unfold TouchedAt
  by_cases hlt : pos < L.length
  · rw [List.getElem?_append_left hlt]
    constructor
    · exact .inl
    · rintro (h | ⟨rfl, -⟩)
      · exact h
      · exact absurd hlt (Nat.lt_irrefl _)
  · rw [List.getElem?_append_right (Nat.le_of_not_lt hlt)]
    have hnot : ¬∃ pass, L[pos]? = some pass ∧ res ∈ touchedBy r pass := by
      rintro ⟨pass, hpass, -⟩
      exact hlt (List.getElem?_eq_some_iff.mp hpass).1
    by_cases hpos : pos = L.length
    · subst hpos
      simp
    · have hne : pos - L.length ≠ 0 := by omega
      simp only [List.getElem?_singleton, hne, if_false, reduceCtorEq, false_and, exists_false,
        false_or, hnot, hpos]

/-! ### Ranges -/

/-- Recording a pass at `pos` extends the range of every resource it touches to `pos`, or
starts one there, and leaves every other range alone. -/
theorem find?_liveness_record (u : Usage) (pos pass : Nat) (res : Res) :
    find? (u.record r pos pass).liveness res =
      if res ∈ touchedBy r pass then
        some (((find? u.liveness res).map (·.extend pos)).getD ⟨pos, pos⟩)
      else find? u.liveness res := by
  unfold Usage.record
  cases hinfo : r.passes[pass]? with
  | none => simp [touchedBy, hinfo]
  | some info =>
    simp only [touchedBy, hinfo, Option.map_some, Option.getD_some]
    -- a resource touched twice at one position gets the same range as one touched once
    generalize touched info = L
    induction L generalizing u with
    | nil => simp
    | cons x rest ih =>
      rw [List.foldl_cons, ih]
      dsimp only
      rw [find?_upsert]
      by_cases hx : res = x
      · subst hx
        cases find? u.liveness res <;> simp [Liveness.extend]
      · by_cases hrest : res ∈ rest <;> simp [hx, hrest]

/-- What a range table says after the passes of `L` are recorded at their positions: a resource
has a range exactly when some pass touches it, from the first to the last such position. -/
def LivenessSpec (r : Registry) (L : List Nat) (t : List (Res × Liveness)) : Prop :=
  ∀ res, (find? t res = none ↔ ∀ pos, ¬TouchedAt r L res pos) ∧
    ∀ l, find? t res = some l → IsFirst (TouchedAt r L res) l.first ∧ IsLast (TouchedAt r L res) l.last

theorem livenessSpec_nil : LivenessSpec r [] [] := by
  intro res
  refine ⟨⟨fun _ pos h => ?_, fun _ => rfl⟩, fun l hl => by cases hl⟩
  exact absurd h.lt_length (Nat.not_lt_zero _)

/-- Recording one more pass, at the next position, keeps the ranges as `LivenessSpec` says. -/
theorem LivenessSpec.record {L : List Nat} {u : Usage} (h : LivenessSpec r L u.liveness) (p : Nat) :
    LivenessSpec r (L ++ [p]) (u.record r L.length p).liveness := by
  intro res
  obtain ⟨hnone, hsome⟩ := h res
  rw [find?_liveness_record]
  split
  · -- the new pass touches `res`: its range now ends at the new position
    rename_i hnew
    have hlast : TouchedAt r (L ++ [p]) res L.length :=
      touchedAt_append_singleton.mpr (.inr ⟨rfl, hnew⟩)
    have hle : ∀ pos, TouchedAt r (L ++ [p]) res pos → pos ≤ L.length := by
      intro pos hpos
      have hlt := hpos.lt_length
      rw [List.length_append, List.length_singleton] at hlt
      omega
    refine ⟨⟨fun h => absurd h (Option.some_ne_none _), fun h => absurd hlast (h L.length)⟩,
      fun l hl => ?_⟩
    cases hold : find? u.liveness res with
    | none =>
      rw [hold] at hl
      cases hl
      -- before this pass nothing touched `res`
      have honly : ∀ pos, TouchedAt r (L ++ [p]) res pos → pos = L.length := by
        intro pos hpos
        rcases touchedAt_append_singleton.mp hpos with hpos | ⟨rfl, -⟩
        · exact absurd hpos (hnone.mp hold pos)
        · rfl
      exact ⟨⟨hlast, fun pos hpos => (honly pos hpos).ge⟩, ⟨hlast, hle⟩⟩
    | some l0 =>
      rw [hold] at hl
      cases hl
      obtain ⟨⟨hf, hfmin⟩, ⟨hl0, -⟩⟩ := hsome l0 hold
      have hlt : l0.first < L.length := hf.lt_length
      simp only [Option.map_some, Option.getD_some, Liveness.extend, Nat.min_eq_left hlt.le,
        Nat.max_eq_right (Nat.le_of_lt hl0.lt_length)]
      refine ⟨⟨touchedAt_append_singleton.mpr (.inl hf), fun pos hpos => ?_⟩, ⟨hlast, hle⟩⟩
      rcases touchedAt_append_singleton.mp hpos with hpos | ⟨rfl, -⟩
      · exact hfmin pos hpos
      · exact hlt.le
  · -- the new pass does not touch `res`: nothing changes
    rename_i hnew
    have hsame : TouchedAt r (L ++ [p]) res = TouchedAt r L res :=
      funext fun pos => propext (touchedAt_append_singleton.trans (or_iff_left fun h => hnew h.2))
    rw [hsame]
    exact ⟨hnone, hsome⟩

/-- The ranges of a walk over a schedule prefix are as `LivenessSpec` says. -/
theorem livenessSpec_foldl (L : List Nat) (F : Usage → Nat × Nat → Usage)
    (hF : ∀ u x, F u x = u.record r x.2 x.1) : LivenessSpec r L (L.zipIdx.foldl F {}).liveness := by
  induction L using List.reverseRecOn with
  | nil => exact livenessSpec_nil
  | append_singleton L p ih =>
    rw [List.zipIdx_append, List.foldl_append, List.zipIdx_singleton, List.foldl_cons,
      List.foldl_nil, hF, Nat.zero_add]
    exact ih.record p

/-- **The range of every resource but the present image runs from the first to the last
position at which a live pass touches it**, and a resource no live pass touches has none. -/
theorem find?_liveness_collect {s : Schedule} {res : Res}
    (hres : ∀ i, r.presentImage = some i → s.order ≠ [] → res ≠ .image i) :
    (find? (Usage.collect r s).liveness res = none ↔ ∀ pos, ¬TouchedAt r s.order res pos) ∧
      ∀ l, find? (Usage.collect r s).liveness res = some l →
        IsFirst (TouchedAt r s.order res) l.first ∧ IsLast (TouchedAt r s.order res) l.last := by
  dsimp only [Usage.collect]
  generalize hu : List.foldl _ _ s.order.zipIdx = u
  have hspec : LivenessSpec r s.order u.liveness := by
    rw [← hu]
    exact livenessSpec_foldl _ _ (by intros; rfl)
  split
  · rename_i i n hi hn
    dsimp only
    rw [find?_upsert, if_neg (hres i hi (List.ne_nil_of_length_eq_add_one hn))]
    exact hspec res
  · exact hspec res

/-- **The present image's range ends at the last position**; it starts where a live pass first
touches the image, or at 0 when none does. -/
theorem find?_liveness_collect_present {s : Schedule} {i n : Nat} (hi : r.presentImage = some i)
    (hn : s.order.length = n + 1) :
    ∃ l, find? (Usage.collect r s).liveness (.image i) = some l ∧ l.last = n ∧
      (IsFirst (TouchedAt r s.order (.image i)) l.first ∨
        (l.first = 0 ∧ ∀ pos, ¬TouchedAt r s.order (.image i) pos)) := by
  dsimp only [Usage.collect]
  generalize hu : List.foldl _ _ s.order.zipIdx = u
  have hspec : LivenessSpec r s.order u.liveness := by
    rw [← hu]
    exact livenessSpec_foldl _ _ (by intros; rfl)
  simp only [hi, hn]
  rw [find?_upsert, if_pos rfl]
  obtain ⟨hnone, hsome⟩ := hspec (.image i)
  cases hold : find? u.liveness (.image i) with
  | none => exact ⟨_, rfl, rfl, .inr ⟨rfl, hnone.mp hold⟩⟩
  | some l => exact ⟨_, rfl, rfl, .inl (hsome l hold).1⟩

/-! ### First states -/

/-- The state each access of a pass leaves a resource in, in the order the pass makes them: its
explicit reads, then its writes, then its bindless reads. -/
def passStates (p : PassInfo) : List (Res × InitialState) :=
  p.interactions.map (fun i => (i.resource, interactionState i)) ++
    p.bindlessReads.map fun res => (res, bindlessState p.queue res.kind)

/-- The states the accesses of the passes of `order` leave resources in, in that order. -/
def scheduleStates (r : Registry) (order : List Nat) : List (Res × InitialState) :=
  order.flatMap fun pass => ((r.passes[pass]?).map passStates).getD []

theorem foldl_initial {L : List Res} (F : Usage → Res → Usage) (hF : ∀ u x, (F u x).initial = u.initial)
    (u : Usage) : (L.foldl F u).initial = u.initial := by
  induction L generalizing u with
  | nil => rfl
  | cons x rest ih => rw [List.foldl_cons, ih, hF]

/-- Recording a pass keeps every recorded first state, and records for each base the state of
the first access of the pass to its chain. -/
theorem find?_initial_record (u : Usage) (pos pass : Nat) (base : Res) :
    find? (u.record r pos pass).initial base =
      (find? u.initial base).or
        (((((r.passes[pass]?).map passStates).getD []).find? fun a => r.baseOf a.1 == base).map (·.2)) := by
  unfold Usage.record
  cases hinfo : r.passes[pass]? with
  | none => simp
  | some info =>
    simp only [Option.map_some, Option.getD_some]
    rw [find?_foldl_firstState, find?_foldl_firstState, foldl_initial, Option.or_assoc]
    · simp [passStates, List.find?_append, List.find?_map, Option.map_or, Function.comp_def]
    · -- the fold over the touched resources changes ranges and users only
      intro u x
      rfl

/-- The first states of a walk over a schedule prefix are those of the first accesses. -/
theorem find?_initial_foldl (L : List Nat) (F : Usage → Nat × Nat → Usage)
    (hF : ∀ u x, F u x = u.record r x.2 x.1) (base : Res) :
    find? (L.zipIdx.foldl F {}).initial base =
      ((scheduleStates r L).find? fun a => r.baseOf a.1 == base).map (·.2) := by
  induction L using List.reverseRecOn with
  | nil => rfl
  | append_singleton L p ih =>
    rw [List.zipIdx_append, List.foldl_append, List.zipIdx_singleton, List.foldl_cons,
      List.foldl_nil, hF, find?_initial_record, ih]
    simp [scheduleStates, List.flatMap_append, List.find?_append, Option.map_or]

/-- **The state recorded for a base is that of the first access, in schedule order, to a
resource of its chain.** -/
theorem find?_initial_collect (s : Schedule) (base : Res) :
    find? (Usage.collect r s).initial base =
      ((scheduleStates r s.order).find? fun a => r.baseOf a.1 == base).map (·.2) := by
  dsimp only [Usage.collect]
  generalize hu : List.foldl _ _ s.order.zipIdx = u
  have hspec : find? u.initial base =
      ((scheduleStates r s.order).find? fun a => r.baseOf a.1 == base).map (·.2) := by
    rw [← hu]
    exact find?_initial_foldl _ _ (by intros; rfl) base
  -- keeping the present image live changes ranges only
  split <;> exact hspec

end MemoryPlan

end RenderGraph
