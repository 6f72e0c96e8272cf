import RenderGraph.Proofs.Placement
import RenderGraph.Proofs.Dependencies
import RenderGraph.Sync
/-!
# Minimized waits

A pass that depends on another queue's work waits for that queue's timeline. Its raw waits are its
reach on every other queue; along each queue the plan then keeps a wait only when no earlier kept
wait of the queue, on the same queue, lies at or after it. The loop of `minimizeQueue` does this
with a vector `satisfied` that holds, for every queue, the last index kept.

## The model

`keep` and `keepAll` state that loop on lists: the kept waits of one pass, and of the consecutive
passes of one queue, with the vector carried from pass to pass. `foldl_passStep` shows that the
loop over a queue's passes writes exactly these lists into the table of waits, and
`getD_keptTable` that after all four queues each live pass holds the waits `keepAll` keeps for it
at its queue index (`keptOf`).

## What is proved

For every registry and every options whose schedule succeeds, the plan satisfies `WaitLaws`
(`build_waits_cover_minimally`): every dependency between live passes of different queues is
covered by a kept wait at or before its consumer on the consumer's queue, and so is every raw
wait; a pass keeps a sublist of its raw waits; along a queue the kept indices on any one queue
strictly increase, and a raw wait is dropped exactly when an earlier pass of the queue keeps a wait
on the same queue at or after it; and there are no more waits than raw waits.

The argument is the loop invariant of the vector: it only grows (`covered_keep_of_covered`), after
a pass it covers all of that pass's raw waits (`covered_keep_of_mem`), and what it covers is
covered by the starting vector or by a kept wait (`covered_keep_iff`).
-/

namespace RenderGraph.SyncPlan

/-- Kept waits of one pass: in order, each wait the vector does not cover, with the vector raised
to every kept wait. Returns the kept waits and the raised vector. -/
def keep (sat : Reach) : List SyncEntry → List SyncEntry × Reach
  | [] => ([], sat)
  | w :: ws =>
    if covered sat w then keep sat ws
    else
      let rest := keep (sat.set w.queue (some w.index)) ws
      (w :: rest.1, rest.2)

/-- The kept waits of consecutive passes of one queue, the vector carried from pass to pass. -/
def keepAll (sat : Reach) : List (List SyncEntry) → List (List SyncEntry)
  | [] => []
  | ws :: rest => (keep sat ws).1 :: keepAll (keep sat ws).2 rest

theorem covered_iff {sat : Reach} {w : SyncEntry} :
    covered sat w = true ↔ ∃ i, sat.get w.queue = some i ∧ w.index ≤ i := by
  unfold covered
  split <;> simp_all

/-- Raising the vector to a wait it does not cover keeps every wait it covered covered. -/
theorem covered_set {sat : Reach} {w v : SyncEntry} (hw : covered sat w = false)
    (hv : covered sat v = true) : covered (sat.set w.queue (some w.index)) v = true := by
  obtain ⟨i, hi, hle⟩ := covered_iff.mp hv
  rw [covered_iff, PerQueue.get_set]
  by_cases hq : v.queue = w.queue
  · -- `w` was not covered, so it lies above what covered `v`
    have : ¬ w.index ≤ i := by
      intro h
      rw [hq] at hi
      rw [covered_iff.mpr ⟨i, hi, h⟩] at hw
      cases hw
    exact ⟨w.index, by simp [hq], by omega⟩
  · exact ⟨i, by simp [hq, hi], hle⟩

/-- Raising another queue's entry changes nothing for a wait. -/
theorem covered_set_of_ne {sat : Reach} {q : QueueClass} {x : Option Nat} {v : SyncEntry}
    (hq : v.queue ≠ q) : covered (sat.set q x) v = covered sat v := by
  simp [covered, PerQueue.get_set, hq]

/-- A vector raised to a wait covers it. -/
theorem covered_set_self (sat : Reach) (w : SyncEntry) : covered (sat.set w.queue (some w.index)) w = true :=
  covered_iff.mpr ⟨w.index, by simp, Nat.le_refl _⟩

theorem keep_sublist (sat : Reach) (ws : List SyncEntry) : (keep sat ws).1.Sublist ws := by
  induction ws generalizing sat with
  | nil => exact List.Sublist.slnil
  | cons w ws ih =>
    unfold keep
    split
    · exact (ih sat).cons w
    · exact (ih _).cons_cons w

/-- The raised vector covers every wait the vector covered. -/
theorem covered_keep_of_covered {sat : Reach} {v : SyncEntry} (ws : List SyncEntry)
    (hv : covered sat v = true) : covered (keep sat ws).2 v = true := by
  induction ws generalizing sat with
  | nil => exact hv
  | cons w ws ih =>
    unfold keep
    split
    · exact ih hv
    · rename_i hw
      exact ih (covered_set (Bool.eq_false_iff.mpr hw) hv)

/-- The raised vector covers every wait of the pass, kept or dropped. -/
theorem covered_keep_of_mem (sat : Reach) {ws : List SyncEntry} {v : SyncEntry} (hv : v ∈ ws) :
    covered (keep sat ws).2 v = true := by
  induction ws generalizing sat with
  | nil => cases hv
  | cons w ws ih =>
    unfold keep
    rcases List.mem_cons.mp hv with rfl | hv
    · split
      · rename_i hw
        exact covered_keep_of_covered ws hw
      · exact covered_keep_of_covered ws (covered_set_self sat v)
    · split
      · exact ih sat hv
      · exact ih _ hv

/-- A kept wait was not covered by the vector the pass started with. -/
theorem not_covered_of_mem_keep {sat : Reach} {ws : List SyncEntry} {v : SyncEntry}
    (hv : v ∈ (keep sat ws).1) : covered sat v = false := by
  induction ws generalizing sat with
  | nil => cases hv
  | cons w ws ih =>
    unfold keep at hv
    split at hv
    · exact ih hv
    · rename_i hw
      rcases List.mem_cons.mp hv with rfl | hv
      · exact Bool.eq_false_iff.mpr hw
      · -- what the raised vector does not cover, the vector did not cover either
        have hraised := ih hv
        cases hc : covered sat v
        · rfl
        · rw [covered_set (Bool.eq_false_iff.mpr hw) hc] at hraised
          cases hraised

/-- The raised vector covers a wait exactly when the vector did or a kept wait of the same queue
lies at or after it. -/
theorem covered_keep_iff {sat : Reach} {ws : List SyncEntry} {v : SyncEntry} :
    covered (keep sat ws).2 v = true ↔
      covered sat v = true ∨ ∃ w ∈ (keep sat ws).1, w.queue = v.queue ∧ v.index ≤ w.index := by
  constructor
  · intro hv
    induction ws generalizing sat with
    | nil => exact .inl hv
    | cons w ws ih =>
      unfold keep at hv ⊢
      by_cases hw : covered sat w = true
      · rw [if_pos hw] at hv ⊢
        exact ih hv
      · rw [if_neg hw] at hv ⊢
        rcases ih hv with hv | ⟨u, hu, hq, hle⟩
        · by_cases hq : v.queue = w.queue
          · obtain ⟨i, hi, hle⟩ := covered_iff.mp hv
            rw [hq, PerQueue.get_set, if_pos rfl, Option.some.injEq] at hi
            exact .inr ⟨w, List.mem_cons_self, hq.symm, by omega⟩
          · exact .inl (by rwa [covered_set_of_ne hq] at hv)
        · exact .inr ⟨u, List.mem_cons_of_mem w hu, hq, hle⟩
  · rintro (hv | ⟨w, hw, hq, hle⟩)
    · exact covered_keep_of_covered ws hv
    · obtain ⟨i, hi, hwi⟩ :=
        covered_iff.mp (covered_keep_of_mem sat ((keep_sublist sat ws).subset hw))
      exact covered_iff.mpr ⟨i, hq ▸ hi, Nat.le_trans hle hwi⟩

/-- Along the kept waits of a pass, the indices on one queue strictly increase. -/
theorem keep_pairwise (sat : Reach) (ws : List SyncEntry) :
    (keep sat ws).1.Pairwise (fun a b => a.queue = b.queue → a.index < b.index) := by
  induction ws generalizing sat with
  | nil => exact List.Pairwise.nil
  | cons w ws ih =>
    unfold keep
    split
    · exact ih sat
    · refine List.Pairwise.cons (fun b hb hq => ?_) (ih _)
      -- `b` was kept after `w`, so the vector raised to `w` did not cover it
      have hb := not_covered_of_mem_keep hb
      by_contra hle
      rw [covered_iff.mpr ⟨w.index, by simp [hq], by omega⟩] at hb
      cases hb

/-- Within a pass whose waits name distinct queues, a wait is kept exactly when the vector the
pass starts with does not cover it. -/
theorem mem_keep_iff (sat : Reach) {ws : List SyncEntry} {v : SyncEntry}
    (hd : (ws.map (·.queue)).Nodup) (hv : v ∈ ws) : v ∈ (keep sat ws).1 ↔ covered sat v = false := by
  induction ws generalizing sat with
  | nil => cases hv
  | cons w ws ih =>
    rw [List.map_cons, List.nodup_cons] at hd
    unfold keep
    rcases List.mem_cons.mp hv with rfl | hv
    · -- the later waits name other queues, so none of them is `v`
      have hnot : v ∉ ws := fun h => hd.1 (List.mem_map_of_mem h)
      split
      · rename_i hc
        simp only [hc, Bool.true_eq_false, iff_false]
        exact fun h => hnot ((keep_sublist sat ws).subset h)
      · rename_i hc
        simp [Bool.eq_false_iff.mpr hc]
    · have hq : v.queue ≠ w.queue := fun h => hd.1 (h ▸ List.mem_map_of_mem hv)
      have hne : v ≠ w := fun h => hq (h ▸ rfl)
      split
      · exact ih sat hd.2 hv
      · rw [List.mem_cons, ih _ hd.2 hv, covered_set_of_ne hq]
        simp [hne]

/-! ### Waits of a whole queue -/

@[simp] theorem length_keepAll (sat : Reach) (L : List (List SyncEntry)) :
    (keepAll sat L).length = L.length := by
  induction L generalizing sat with
  | nil => rfl
  | cons ws rest ih => simp [keepAll, ih]

theorem keepAll_sublist (sat : Reach) (L : List (List SyncEntry)) (i : Nat) :
    ((keepAll sat L)[i]?.getD []).Sublist (L[i]?.getD []) := by
  induction L generalizing sat i with
  | nil => exact List.Sublist.slnil
  | cons ws rest ih =>
    cases i with
    | zero => exact keep_sublist sat ws
    | succ i => exact ih _ i

/-- Every wait of a queue's passes is covered by the starting vector or by a kept wait of the same
or an earlier pass. -/
theorem covered_or_kept (sat : Reach) (L : List (List SyncEntry)) {i : Nat} {v : SyncEntry}
    (hv : v ∈ L[i]?.getD []) :
    covered sat v = true ∨
      ∃ i' ≤ i, ∃ w ∈ (keepAll sat L)[i']?.getD [], w.queue = v.queue ∧ v.index ≤ w.index := by
  induction L generalizing sat i with
  | nil => cases hv
  | cons ws rest ih =>
    cases i with
    | zero =>
      rcases covered_keep_iff.mp (covered_keep_of_mem sat hv) with h | ⟨w, hw, hq, hle⟩
      · exact .inl h
      · exact .inr ⟨0, Nat.le_refl 0, w, hw, hq, hle⟩
    | succ i =>
      rcases ih (keep sat ws).2 hv with h | ⟨i', hi', w, hw, hq, hle⟩
      · rcases covered_keep_iff.mp h with h | ⟨w, hw, hq, hle⟩
        · exact .inl h
        · exact .inr ⟨0, Nat.zero_le _, w, hw, hq, hle⟩
      · exact .inr ⟨i' + 1, by omega, w, hw, hq, hle⟩

/-- No kept wait of a queue is covered by the vector the queue starts with. -/
theorem not_covered_of_mem_keepAll {sat : Reach} {L : List (List SyncEntry)} {v : SyncEntry}
    (hv : v ∈ (keepAll sat L).flatten) : covered sat v = false := by
  induction L generalizing sat with
  | nil => cases hv
  | cons ws rest ih =>
    rw [keepAll, List.flatten_cons, List.mem_append] at hv
    rcases hv with hv | hv
    · exact not_covered_of_mem_keep hv
    · have hraised := ih hv
      cases hc : covered sat v
      · rfl
      · rw [covered_keep_of_covered ws hc] at hraised
        cases hraised

/-- Along a queue, the indices of the kept waits on any one queue strictly increase. -/
theorem keepAll_pairwise (sat : Reach) (L : List (List SyncEntry)) :
    (keepAll sat L).flatten.Pairwise (fun a b => a.queue = b.queue → a.index < b.index) := by
  induction L generalizing sat with
  | nil => exact List.Pairwise.nil
  | cons ws rest ih =>
    rw [keepAll, List.flatten_cons, List.pairwise_append]
    refine ⟨keep_pairwise sat ws, ih _, fun a ha b hb hq => ?_⟩
    -- `a` is covered by the vector the rest starts with, `b` is not
    obtain ⟨i, hi, hai⟩ := covered_iff.mp (covered_keep_of_mem sat
      ((keep_sublist sat ws).subset ha))
    have hb := not_covered_of_mem_keepAll hb
    by_contra hle
    rw [covered_iff.mpr ⟨i, hq ▸ hi, by omega⟩] at hb
    cases hb

/-- When the waits of each pass name distinct queues, a wait is dropped exactly when the starting
vector or a kept wait of an earlier pass covers it. -/
theorem not_mem_keepAll_iff (sat : Reach) {L : List (List SyncEntry)}
    (hd : ∀ ws ∈ L, (ws.map (·.queue)).Nodup) {i : Nat} {v : SyncEntry} (hv : v ∈ L[i]?.getD []) :
    v ∉ (keepAll sat L)[i]?.getD [] ↔
      covered sat v = true ∨
        ∃ i' < i, ∃ w ∈ (keepAll sat L)[i']?.getD [], w.queue = v.queue ∧ v.index ≤ w.index := by
  induction L generalizing sat i with
  | nil => cases hv
  | cons ws rest ih =>
    cases i with
    | zero =>
      have := mem_keep_iff sat (hd ws List.mem_cons_self) hv
      simp only [keepAll, List.getElem?_cons_zero, Option.getD_some, this, Bool.not_eq_false]
      simp
    | succ i =>
      have hrest := ih (keep sat ws).2 (fun ws h => hd ws (List.mem_cons_of_mem _ h)) hv
      simp only [keepAll, List.getElem?_cons_succ] at hrest ⊢
      rw [hrest, covered_keep_iff]
      constructor
      · rintro ((h | ⟨w, hw, hq, hle⟩) | ⟨i', hi', w, hw, hq, hle⟩)
        · exact .inl h
        · exact .inr ⟨0, Nat.zero_lt_succ _, w, by simpa using hw, hq, hle⟩
        · exact .inr ⟨i' + 1, by omega, w, by simpa using hw, hq, hle⟩
      · rintro (h | ⟨i', hi', w, hw, hq, hle⟩)
        · exact .inl (.inl h)
        · cases i' with
          | zero => exact .inl (.inr ⟨w, by simpa using hw, hq, hle⟩)
          | succ i' => exact .inr ⟨i', by omega, w, by simpa using hw, hq, hle⟩

/-! ### The loop of the minimization -/

open Logged

/-- One wait of `pass` in the loop of `minimizeQueue`: dropped when covered, else appended to the
pass's waits with the vector raised to it. -/
def dropStep (pass : Nat) (acc : Reach × Array (List SyncEntry)) (w : SyncEntry) :
    Reach × Array (List SyncEntry) :=
  if covered acc.1 w then acc
  else (acc.1.set w.queue (some w.index), acc.2.set! pass (acc.2.getD pass [] ++ [w]))

/-- One pass in the loop of `minimizeQueue`. -/
def passStep (raw : Array (List SyncEntry)) (acc : Reach × Array (List SyncEntry)) (pass : Nat) :
    Reach × Array (List SyncEntry) :=
  (raw.getD pass []).foldl (dropStep pass) acc

theorem minimizeQueue_yields (raw : Array (List SyncEntry)) (passes : List Nat)
    (waits : Array (List SyncEntry)) :
    Yields (minimizeQueue raw passes waits) (passes.foldl (passStep raw) (.const none, waits)).2 := by
  refine Yields.bind (Yields.forIn fun pass acc => ?_) (Yields.pure _)
  refine Yields.bind (Yields.forIn fun w acc => ?_) (Yields.pure _)
  by_cases h : covered acc.1 w = true
  · simp only [dropStep, h, if_true]
    exact Yields.bind (Yields.log _ _ _) (Yields.pure _)
  · simp only [dropStep, h, if_false, Bool.false_eq_true]
    exact Yields.pure _

/-- The loop over one pass's waits appends the kept waits to the pass's entry. -/
theorem foldl_dropStep (pass : Nat) (ws : List SyncEntry) (sat : Reach) (W : Array (List SyncEntry))
    (hp : pass < W.size) :
    (ws.foldl (dropStep pass) (sat, W)).1 = (keep sat ws).2 ∧
      (ws.foldl (dropStep pass) (sat, W)).2.size = W.size ∧
      ∀ x, (ws.foldl (dropStep pass) (sat, W)).2.getD x [] =
        if x = pass then W.getD pass [] ++ (keep sat ws).1 else W.getD x [] := by
  induction ws generalizing sat W with
  | nil =>
    refine ⟨rfl, rfl, fun x => ?_⟩
    by_cases hx : x = pass
    · rw [if_pos hx, hx]
      exact (List.append_nil _).symm
    · rw [if_neg hx]
      rfl
  | cons w ws ih =>
    rw [List.foldl_cons]
    unfold keep
    by_cases hc : covered sat w = true
    · simp only [dropStep, hc, if_true]
      exact ih sat W hp
    · simp only [dropStep, hc, if_false, Bool.false_eq_true]
      have hp' : pass < (W.set! pass (W.getD pass [] ++ [w])).size := by simpa using hp
      obtain ⟨h1, h2, h3⟩ := ih (sat.set w.queue (some w.index)) _ hp'
      refine ⟨h1, by simpa using h2, fun x => ?_⟩
      rw [h3, Array.getD_set! W hp, Array.getD_set! W hp, if_pos rfl]
      split <;> simp

/-- The loop over a queue's distinct passes appends to each pass's entry the waits `keepAll` keeps
for it, and leaves every other entry alone. -/
theorem foldl_passStep (raw : Array (List SyncEntry)) {ℓ : List Nat} (hℓ : ℓ.Nodup) (sat : Reach)
    (W : Array (List SyncEntry)) (hlt : ∀ p ∈ ℓ, p < W.size) :
    (ℓ.foldl (passStep raw) (sat, W)).2.size = W.size ∧
      (∀ x, x ∉ ℓ → (ℓ.foldl (passStep raw) (sat, W)).2.getD x [] = W.getD x []) ∧
      ∀ (i x : Nat), ℓ[i]? = some x → (ℓ.foldl (passStep raw) (sat, W)).2.getD x [] =
        W.getD x [] ++ ((keepAll sat (ℓ.map (raw.getD · [])))[i]?.getD []) := by
  induction ℓ generalizing sat W with
  | nil => exact ⟨rfl, fun _ _ => rfl, fun i x h => by simp at h⟩
  | cons p rest ih =>
    rw [List.nodup_cons] at hℓ
    have hp : p < W.size := hlt p List.mem_cons_self
    obtain ⟨h1, h2, h3⟩ := foldl_dropStep p (raw.getD p []) sat W hp
    rw [List.foldl_cons, passStep]
    generalize List.foldl (dropStep p) (sat, W) (raw.getD p []) = r at h1 h2 h3 ⊢
    obtain ⟨sat1, W1⟩ := r
    subst h1
    obtain ⟨i1, i2, i3⟩ := ih hℓ.2 (keep sat (raw.getD p [])).2 _
      (fun x hx => h2 ▸ hlt x (List.mem_cons_of_mem p hx))
    refine ⟨i1.trans h2, fun x hx => ?_, fun i x hx => ?_⟩
    · rw [List.mem_cons, not_or] at hx
      rw [i2 x hx.2, h3, if_neg hx.1]
    · cases i with
      | zero =>
        obtain rfl : p = x := by simpa using hx
        rw [i2 p hℓ.1, h3, if_pos rfl]
        simp [keepAll]
      | succ i =>
        rw [List.getElem?_cons_succ] at hx
        have hne : x ≠ p := fun e => hℓ.1 (e ▸ List.mem_of_getElem? hx)
        rw [i3 i x hx, h3, if_neg hne]
        simp [keepAll]

/-! ### The plan's tables -/

/-- The raw waits of every pass, as `build` tabulates them. -/
def rawTable (g : Graph) (s : Schedule) : Array (List SyncEntry) :=
  (Array.range g.passCount).map (rawWaitsOf s (reachTable g s))

/-- The minimized waits of every pass, as `build` leaves them: each queue's passes in turn, from no
wait at all. -/
def keptTable (g : Graph) (s : Schedule) : Array (List SyncEntry) :=
  QueueClass.all.foldl (fun W q => ((s.queues.get q).foldl (passStep (rawTable g s)) (.const none, W)).2)
    (Array.replicate g.passCount [])

theorem build_yields (g : Graph) (s : Schedule) :
    Yields (build g s) ⟨reachTable g s, rawTable g s, keptTable g s,
      .ofFn (framesOf s (keptTable g s) (keptTable g s).toList.flatten)⟩ :=
  Yields.bind (Yields.forIn fun _ _ => Yields.bind (minimizeQueue_yields _ _ _) (Yields.pure _))
    (Yields.bind (Yields.log _ _ _) (Yields.pure _))

/-- The waits `keepAll` keeps for a live pass along its queue, from no wait at all. -/
def keptOf (s : Schedule) (raw : Array (List SyncEntry)) (c : Nat) : List SyncEntry :=
  (keepAll (.const none) ((s.queues.get (s.queueOf c)).map (raw.getD · [])))[s.queueIndexOf c]?.getD []

/-- Minimizing queue after queue gives each live pass of a minimized queue its kept waits. -/
theorem getD_foldl_minimize {s : Schedule} {n : Nat} (hs : s.Placement n) (raw : Array (List SyncEntry))
    {Qs : List QueueClass} (hQ : Qs.Nodup) :
    (Qs.foldl (fun W q => ((s.queues.get q).foldl (passStep raw) (.const none, W)).2)
        (Array.replicate n [])).size = n ∧
      ∀ c, (Qs.foldl (fun W q => ((s.queues.get q).foldl (passStep raw) (.const none, W)).2)
        (Array.replicate n [])).getD c [] =
          if c ∈ s.order ∧ s.queueOf c ∈ Qs then keptOf s raw c else [] := by
  induction Qs using List.reverseRecOn with
  | nil =>
    refine ⟨Array.size_replicate, fun c => ?_⟩
    simp [Array.getD_eq_getD_getElem?, Array.getElem?_replicate]
    split <;> rfl
  | append_singleton Qs q ih =>
    rw [List.nodup_append] at hQ
    have hq : q ∉ Qs := fun hm => hQ.2.2 q hm q (List.mem_singleton_self q) rfl
    obtain ⟨hsize, hget⟩ := ih hQ.1
    rw [List.foldl_append, List.foldl_cons, List.foldl_nil]
    obtain ⟨h1, h2, h3⟩ := foldl_passStep raw (hs.nodup_queues q) (.const none) _
      (fun p hp => hsize ▸ hs.lt_of_mem p (hs.mem_queues_iff.mp hp).1)
    refine ⟨h1.trans hsize, fun c => ?_⟩
    by_cases hc : c ∈ s.queues.get q
    · obtain ⟨hco, rfl⟩ := hs.mem_queues_iff.mp hc
      rw [h3 _ c (hs.getElem?_queues hco), hget, if_neg (fun h => hq h.2)]
      simp [hco, keptOf]
    · rw [h2 c hc, hget]
      -- a live pass of queue `q` would be in `q`'s list
      have : c ∈ s.order → s.queueOf c ≠ q := fun hco e => hc (hs.mem_queues_iff.mpr ⟨hco, e⟩)
      by_cases hco : c ∈ s.order
      · simp [hco, this hco]
      · simp [hco]

/-- The minimized waits of a live pass are those `keepAll` keeps for it along its queue; other
passes have none. -/
theorem getD_keptTable {g : Graph} {s : Schedule} (hs : s.Placement g.passCount) (c : Nat) :
    (keptTable g s).getD c [] = if c ∈ s.order then keptOf s (rawTable g s) c else [] := by
  have h := (getD_foldl_minimize hs (rawTable g s) (by decide : QueueClass.all.Nodup)).2 c
  have hall : s.queueOf c ∈ QueueClass.all := by cases s.queueOf c <;> decide
  simpa [keptTable, hall] using h

/-! ### Raw waits and the reach table -/

theorem mem_rawWaitsOf {s : Schedule} {reach : Array Reach} {c : Nat} {w : SyncEntry} :
    w ∈ rawWaitsOf s reach c ↔
      s.isLive c = true ∧ w.queue ≠ s.queueOf c ∧
        (reach.getD c (.const none)).get w.queue = some w.index := by
  unfold rawWaitsOf
  by_cases hc : s.isLive c = true
  · simp only [hc, Bool.not_true, Bool.false_eq_true, if_false, List.mem_filterMap, List.mem_filter,
      Option.map_eq_some_iff, true_and]
    constructor
    · rintro ⟨q, ⟨-, hq⟩, i, hi, rfl⟩
      exact ⟨by simpa using hq, hi⟩
    · rintro ⟨hq, hi⟩
      exact ⟨w.queue, ⟨by cases w.queue <;> decide, by simpa using hq⟩, w.index, hi, rfl⟩
  · simp [hc]

/-- The raw waits of a pass name distinct queues. -/
theorem nodup_rawWaitsOf (s : Schedule) (reach : Array Reach) (c : Nat) :
    ((rawWaitsOf s reach c).map (·.queue)).Nodup := by
  unfold rawWaitsOf
  split
  · exact List.nodup_nil
  · rw [List.nodup_iff_pairwise_ne, List.pairwise_map]
    refine List.Pairwise.filterMap _ ?_ ((List.nodup_iff_pairwise_ne.mp (by decide)).filter _)
    intro a b hab w hw w' hw'
    simp only [Option.map_eq_some_iff] at hw hw'
    obtain ⟨_, -, rfl⟩ := hw
    obtain ⟨_, -, rfl⟩ := hw'
    exact hab

theorem getD_rawTable {g : Graph} {s : Schedule} (hs : s.Placement g.passCount) (c : Nat) :
    (rawTable g s).getD c [] = rawWaitsOf s (reachTable g s) c := by
  by_cases hc : c < g.passCount
  · simp [rawTable, Array.getD_eq_getD_getElem?, hc]
  · -- a pass past the table is not live, so it has no raw waits
    have hlive : s.isLive c = false := by
      rw [← Bool.not_eq_true, hs.isLive_iff]
      exact fun h => hc (hs.lt_of_mem c h)
    simp [rawTable, Array.getD_eq_getD_getElem?, hc, rawWaitsOf, hlive]

theorem maxOpt_some_right (a : Option Nat) (b : Nat) : ∃ i, maxOpt a (some b) = some i ∧ b ≤ i := by
  cases a with
  | none => exact ⟨b, rfl, Nat.le_refl b⟩
  | some a => exact ⟨max a b, rfl, Nat.le_max_right a b⟩

theorem maxOpt_of_left {a : Option Nat} {k : Nat} (b : Option Nat) (h : ∃ i, a = some i ∧ k ≤ i) :
    ∃ i, maxOpt a b = some i ∧ k ≤ i := by
  obtain ⟨i, rfl, hk⟩ := h
  cases b with
  | none => exact ⟨i, rfl, hk⟩
  | some b => exact ⟨max i b, rfl, Nat.le_trans hk (Nat.le_max_left i b)⟩

/-- One predecessor's contribution to a row of the reach table: its own row, and itself on its
queue. -/
def predStep (s : Schedule) (reach : Array Reach) (row : Reach) (pred : Nat) : Reach :=
  let row := PerQueue.zipWith maxOpt row (reach.getD pred (.const none))
  let q := s.queueOf pred
  row.set q (maxOpt (row.get q) (some (s.queueIndexOf pred)))

/-- The reach table is a fold over the schedule's order that writes each pass's row from the
contributions of its predecessors. -/
theorem reachTable_eq_foldl (g : Graph) (s : Schedule) : reachTable g s = s.order.foldl
    (fun a x => a.set! x ((g.preds x).foldl (predStep s a) (.const none)))
    (Array.replicate g.passCount (.const none)) := rfl

/-- A contribution never lowers an entry of the row. -/
theorem predStep_mono {s : Schedule} {reach : Array Reach} {row : Reach} {q : QueueClass} {k : Nat}
    (pred : Nat) (h : ∃ i, row.get q = some i ∧ k ≤ i) :
    ∃ i, (predStep s reach row pred).get q = some i ∧ k ≤ i := by
  have hzip : ∃ i, (PerQueue.zipWith maxOpt row (reach.getD pred (.const none))).get q = some i ∧ k ≤ i := by
    simpa [PerQueue.zipWith] using maxOpt_of_left _ h
  unfold predStep
  rw [PerQueue.get_set]
  split
  · rename_i he
    exact maxOpt_of_left _ (he ▸ hzip)
  · exact hzip

theorem predStep_self (s : Schedule) (reach : Array Reach) (row : Reach) (pred : Nat) :
    ∃ i, (predStep s reach row pred).get (s.queueOf pred) = some i ∧ s.queueIndexOf pred ≤ i := by
  unfold predStep
  rw [PerQueue.get_set, if_pos rfl]
  exact maxOpt_some_right _ _

/-- Later contributions never lower an entry. -/
theorem foldl_predStep_mono {s : Schedule} {reach : Array Reach} {q : QueueClass} {k : Nat}
    (l : List Nat) {row : Reach} (h : ∃ i, row.get q = some i ∧ k ≤ i) :
    ∃ i, (l.foldl (predStep s reach) row).get q = some i ∧ k ≤ i := by
  induction l generalizing row with
  | nil => exact h
  | cons y rest ih => exact ih (predStep_mono y h)

/-- After the contributions of a list of predecessors, the row reaches, on the queue of each of
them, at least its queue index. -/
theorem foldl_predStep_ge (s : Schedule) (reach : Array Reach) {l : List Nat} {x : Nat} (hx : x ∈ l)
    (row : Reach) :
    ∃ i, (l.foldl (predStep s reach) row).get (s.queueOf x) = some i ∧ s.queueIndexOf x ≤ i := by
  induction l generalizing row with
  | nil => cases hx
  | cons y rest ih =>
    rw [List.foldl_cons]
    rcases List.mem_cons.mp hx with rfl | hx
    · -- `x` raised its own queue; the later contributions keep it raised
      exact foldl_predStep_mono rest (predStep_self s reach row x)
    · exact ih hx _

/-- The table reaches, for every live pass and every predecessor, at least the predecessor's
queue index on the predecessor's queue. -/
theorem reachTable_ge {g : Graph} {s : Schedule} (hs : s.Placement g.passCount) {c x : Nat}
    (hc : c ∈ s.order) (hx : x ∈ g.preds c) :
    ∃ i, ((reachTable g s).getD c (.const none)).get (s.queueOf x) = some i ∧ s.queueIndexOf x ≤ i := by
  obtain ⟨A, hA⟩ := Array.exists_getD_foldl_set! (fun reach pass => (g.preds pass).foldl (predStep s reach) (.const none))
    hs.nodup (Array.replicate g.passCount (.const none))
    (fun p hp => by simpa using hs.lt_of_mem p hp) hc (.const none)
  rw [reachTable_eq_foldl, hA]
  exact foldl_predStep_ge s A hx _

/-! ### The laws, pass by pass -/

section Laws

variable {g : Graph} {s : Schedule}

theorem covered_const_none (w : SyncEntry) : covered (.const none) w = false := by
  cases h : w.queue <;> simp [covered, h, PerQueue.const, PerQueue.ofFn, PerQueue.get]

/-- The passes of a queue as `keepAll` sees them: each one's kept waits are its minimized waits. -/
theorem exists_pass_of_index (hs : s.Placement g.passCount) {q : QueueClass} {i : Nat}
    (hi : i < (s.queues.get q).length) :
    ∃ c, c ∈ s.order ∧ s.queueOf c = q ∧ s.queueIndexOf c = i ∧
      (keptTable g s).getD c [] =
        (keepAll (.const none) ((s.queues.get q).map ((rawTable g s).getD · [])))[i]?.getD [] := by
  obtain ⟨c, hc⟩ : ∃ c, (s.queues.get q)[i]? = some c := ⟨_, List.getElem?_eq_getElem hi⟩
  obtain ⟨hco, rfl⟩ := hs.mem_queues_iff.mp (List.mem_of_getElem? hc)
  have hidx := hs.queueIndex_eq _ i c hc
  refine ⟨c, hco, rfl, hidx, ?_⟩
  rw [getD_keptTable hs, if_pos hco, keptOf, hidx]

/-- The raw waits of a live pass, read at its index of its queue. -/
theorem getD_rawTable_eq_index (hs : s.Placement g.passCount) {c : Nat} (hc : c ∈ s.order) :
    (rawTable g s).getD c [] =
      ((s.queues.get (s.queueOf c)).map ((rawTable g s).getD · []))[s.queueIndexOf c]?.getD [] := by
  rw [List.getElem?_map, hs.getElem?_queues hc]
  rfl

theorem keptTable_sublist (hs : s.Placement g.passCount) (c : Nat) :
    ((keptTable g s).getD c []).Sublist ((rawTable g s).getD c []) := by
  rw [getD_keptTable hs]
  split
  · rename_i hc
    rw [getD_rawTable_eq_index hs hc]
    exact keepAll_sublist _ _ _
  · exact List.nil_sublist _

/-- Every raw wait of a pass is covered by a minimized wait of the same queue at or after it, kept
by the pass or by an earlier pass of its queue. -/
theorem rawWait_covered (hs : s.Placement g.passCount) {c : Nat} {w : SyncEntry}
    (hw : w ∈ (rawTable g s).getD c []) :
    ∃ c', c' ∈ s.order ∧ s.queueOf c' = s.queueOf c ∧ s.queueIndexOf c' ≤ s.queueIndexOf c ∧
      ∃ w' ∈ (keptTable g s).getD c' [], w'.queue = w.queue ∧ w.index ≤ w'.index := by
  have hc : c ∈ s.order := by
    rw [getD_rawTable hs, mem_rawWaitsOf, hs.isLive_iff] at hw
    exact hw.1
  rw [getD_rawTable_eq_index hs hc] at hw
  rcases covered_or_kept _ _ hw with h | ⟨i', hi', w', hw', hq, hle⟩
  · rw [covered_const_none] at h
    cases h
  · have hlen : i' < (s.queues.get (s.queueOf c)).length := by
      have := hs.queueIndexOf_lt hc
      omega
    obtain ⟨c', hc', hq', hidx, hkept⟩ := exists_pass_of_index hs hlen
    exact ⟨c', hc', hq', hidx ▸ hi', w', hkept ▸ hw', hq, hle⟩

/-- A raw wait is dropped exactly when an earlier pass of its queue keeps a wait on the same queue
at or after it. -/
theorem rawWait_dropped_iff (hs : s.Placement g.passCount) {c : Nat} {w : SyncEntry}
    (hw : w ∈ (rawTable g s).getD c []) :
    w ∉ (keptTable g s).getD c [] ↔
      ∃ c', c' ∈ s.order ∧ s.queueOf c' = s.queueOf c ∧ s.queueIndexOf c' < s.queueIndexOf c ∧
        ∃ w' ∈ (keptTable g s).getD c' [], w'.queue = w.queue ∧ w.index ≤ w'.index := by
  have hc : c ∈ s.order := by
    rw [getD_rawTable hs, mem_rawWaitsOf, hs.isLive_iff] at hw
    exact hw.1
  have hd : ∀ ws ∈ (s.queues.get (s.queueOf c)).map ((rawTable g s).getD · []),
      (ws.map (·.queue)).Nodup := by
    intro ws hws
    obtain ⟨p, -, rfl⟩ := List.mem_map.mp hws
    rw [getD_rawTable hs]
    exact nodup_rawWaitsOf _ _ _
  rw [getD_rawTable_eq_index hs hc] at hw
  rw [getD_keptTable hs, if_pos hc, keptOf, not_mem_keepAll_iff _ hd hw, covered_const_none]
  simp only [Bool.false_eq_true, false_or]
  constructor
  · rintro ⟨i', hi', w', hw', hq, hle⟩
    have hlen : i' < (s.queues.get (s.queueOf c)).length := by
      have := hs.queueIndexOf_lt hc
      omega
    obtain ⟨c', hc', hq', hidx, hkept⟩ := exists_pass_of_index hs hlen
    exact ⟨c', hc', hq', hidx ▸ hi', w', hkept ▸ hw', hq, hle⟩
  · rintro ⟨c', hc', hq', hi', w', hw', hq, hle⟩
    rw [getD_keptTable hs, if_pos hc', keptOf, hq'] at hw'
    exact ⟨s.queueIndexOf c', hi', w', hw', hq, hle⟩

/-- The minimized waits of a queue's passes, in queue order, are what `keepAll` keeps along it. -/
theorem map_keptTable_queues (hs : s.Placement g.passCount) (q : QueueClass) :
    (s.queues.get q).map ((keptTable g s).getD · []) =
      keepAll (.const none) ((s.queues.get q).map ((rawTable g s).getD · [])) := by
  apply List.ext_getElem?
  intro i
  rw [List.getElem?_map]
  by_cases hi : i < (s.queues.get q).length
  · obtain ⟨c, hc⟩ : ∃ c, (s.queues.get q)[i]? = some c := ⟨_, List.getElem?_eq_getElem hi⟩
    obtain ⟨hco, rfl⟩ := hs.mem_queues_iff.mp (List.mem_of_getElem? hc)
    have hk : i < (keepAll (.const none)
        ((s.queues.get (s.queueOf c)).map ((rawTable g s).getD · []))).length := by simpa using hi
    rw [hc, Option.map_some, getD_keptTable hs, if_pos hco, keptOf, hs.queueIndex_eq _ i c hc,
      List.getElem?_eq_getElem hk, Option.getD_some]
  · rw [List.getElem?_eq_none (by omega), List.getElem?_eq_none (by simp; omega)]
    rfl

/-- Along a queue, the minimized waits on any one queue have strictly increasing indices. -/
theorem keptTable_increasing (hs : s.Placement g.passCount) (q q' : QueueClass) :
    ((((s.queues.get q).flatMap ((keptTable g s).getD · [])).filter (·.queue = q')).map
      (·.index)).Pairwise (· < ·) := by
  rw [List.flatMap_def, map_keptTable_queues hs, List.pairwise_map]
  refine ((keepAll_pairwise _ _).filter _).imp_of_mem fun {a b} ha hb hab => hab ?_
  rw [List.mem_filter, decide_eq_true_eq] at ha hb
  exact ha.2.trans hb.2.symm

/-- There are no more minimized waits than raw waits. -/
theorem keptTable_count_le (hs : s.Placement g.passCount) :
    total ((keptTable g s).toList.map List.length) ≤ total ((rawTable g s).toList.map List.length) := by
  refine total_length_le ?_ fun c => (keptTable_sublist hs c).length_le
  rw [keptTable, (getD_foldl_minimize hs _ (by decide : QueueClass.all.Nodup)).1]
  simp [rawTable]

/-- Every edge into a live pass from a pass of another queue is waited for, at the producer's
index or later, by a pass at or before the consumer on the consumer's queue. -/
theorem keptTable_edge_covered (hs : s.Placement g.passCount) {e : Edge} (he : e ∈ g.edges)
    (hlc : s.isLive e.consumer = true) (hq : s.queueOf e.producer ≠ s.queueOf e.consumer) :
    ∃ c', c' ∈ s.order ∧ s.queueOf c' = s.queueOf e.consumer ∧
      s.queueIndexOf c' ≤ s.queueIndexOf e.consumer ∧
      ∃ w ∈ (keptTable g s).getD c' [], w.queue = s.queueOf e.producer ∧
        s.queueIndexOf e.producer ≤ w.index := by
  -- the consumer reaches the producer's queue, so it has a raw wait there
  obtain ⟨i, hi, hle⟩ := reachTable_ge hs (hs.isLive_iff.mp hlc)
    (Graph.mem_preds.mpr ⟨e, he, rfl, rfl⟩)
  have hw : ⟨s.queueOf e.producer, i⟩ ∈ (rawTable g s).getD e.consumer [] := by
    rw [getD_rawTable hs, mem_rawWaitsOf]
    exact ⟨hlc, hq, hi⟩
  obtain ⟨c', hc', hq', hidx, w', hw', hwq, hwi⟩ := rawWait_covered hs hw
  exact ⟨c', hc', hq', hidx, w', hw', hwq, Nat.le_trans hle hwi⟩

end Laws

/-! ### The synchronization plan of a bake -/

/-- The laws the waits of a synchronization plan obey for a schedule of a graph. -/
structure WaitLaws (g : Graph) (s : Schedule) (p : SyncPlan) : Prop where
  /-- Every edge between live passes of different queues is waited for, at the producer's index
  or later, by a pass at or before the consumer on the consumer's queue. -/
  edge_covered : ∀ e ∈ g.edges, s.isLive e.producer → s.isLive e.consumer →
    s.queueOf e.producer ≠ s.queueOf e.consumer →
    ∃ c', s.isLive c' ∧ s.queueOf c' = s.queueOf e.consumer ∧
      s.queueIndexOf c' ≤ s.queueIndexOf e.consumer ∧
      ∃ w ∈ p.waitsOf c', w.queue = s.queueOf e.producer ∧ s.queueIndexOf e.producer ≤ w.index
  /-- Every raw wait is covered in the same way. -/
  rawWait_covered : ∀ c, ∀ w ∈ p.rawWaitsOfPass c, ∃ c', s.isLive c' ∧
    s.queueOf c' = s.queueOf c ∧ s.queueIndexOf c' ≤ s.queueIndexOf c ∧
    ∃ w' ∈ p.waitsOf c', w'.queue = w.queue ∧ w.index ≤ w'.index
  /-- A pass keeps some of its raw waits, in their order. -/
  sublist : ∀ c, (p.waitsOf c).Sublist (p.rawWaitsOfPass c)
  /-- Along a queue, the indices waited for on any one queue strictly increase. -/
  increasing : ∀ q q', ((((s.queues.get q).flatMap p.waitsOf).filter (·.queue = q')).map
    (·.index)).Pairwise (· < ·)
  /-- A raw wait is dropped exactly when an earlier pass of its queue waits for the same queue at
  or after it. -/
  dropped_iff : ∀ c, ∀ w ∈ p.rawWaitsOfPass c, w ∉ p.waitsOf c ↔
    ∃ c', s.isLive c' ∧ s.queueOf c' = s.queueOf c ∧ s.queueIndexOf c' < s.queueIndexOf c ∧
      ∃ w' ∈ p.waitsOf c', w'.queue = w.queue ∧ w.index ≤ w'.index
  count_le : p.waitCount ≤ p.rawWaitCount

open Schedule in
/-- **The minimized waits cover every cross-queue dependency, and keep no wait an earlier one
covers**: for every registry whose graph the schedule orders, with any options, the plan obeys
`WaitLaws`. -/
theorem build_waits_cover_minimally {r : Registry} {o : BakeOptions} {g : Graph} {s : Schedule}
    {j : Journal} {p : SyncPlan} (hg : Returns (Graph.build r) g)
    (hsch : Returns (Schedule.build r g o) s) (hp : ((SyncPlan.build g s).run j).1 = p) :
    WaitLaws g s p := by
  obtain ⟨producers, -, hgeq⟩ := Graph.build_returns hg
  have hs : s.Placement g.passCount := by
    rw [hgeq]
    exact build_placement hsch
  rw [build_yields g s j] at hp
  subst hp
  refine ⟨fun e he hlp hlc hq => ?_, fun c w hw => ?_, keptTable_sublist hs,
    keptTable_increasing hs, fun c w hw => ?_, keptTable_count_le hs⟩
  · obtain ⟨c', hc', hq', hidx, w', hw', hwq, hwi⟩ := keptTable_edge_covered hs he hlc hq
    exact ⟨c', hs.isLive_iff.mpr hc', hq', hidx, w', hw', hwq, hwi⟩
  · obtain ⟨c', hc', hq', hidx, w', hw', hwq, hwi⟩ := rawWait_covered hs hw
    exact ⟨c', hs.isLive_iff.mpr hc', hq', hidx, w', hw', hwq, hwi⟩
  · rw [waitsOf, rawWait_dropped_iff hs hw]
    simp only [hs.isLive_iff]
    rfl

/-- A compute pass writes a buffer that two graphics passes then read. -/
def computeFeedsGraphics : Registry where
  brief := ⟨2, 0, 3, 0, 0, 0, 0, none, none, ⟨0⟩⟩
  buffers := #[]
  images := #[]
  shaders := #[]
  programs := #[]
  samplers := #[]
  bindless := #[]
  passes := #[
    ⟨0, "simulate", .compute, none, none, [],
      [⟨.buffer 0, some (.buffer 1), .write, 0, 0x800, 0x40, none⟩], []⟩,
    ⟨1, "draw", .graphics, none, none, [⟨.buffer 1, none, .read, 0, 0x8, 0x4, none⟩], [], []⟩,
    ⟨2, "post", .graphics, none, none, [⟨.buffer 1, none, .read, 0, 0x80, 0x4, none⟩], [], []⟩]
  passSlots := #[some 0, some 1, some 2]
  bufferForest := Forest.empty .buffer 0
  imageForest := Forest.empty .image 0

/-- Its graph: both graphics passes read what the compute pass wrote. -/
def computeFeedsGraphicsGraph : Graph :=
  ⟨3, [⟨0, 1, .buffer 1, .readAfterWrite⟩, ⟨0, 2, .buffer 1, .readAfterWrite⟩], [(.buffer 1, 0)]⟩

/-- Its schedule: the compute pass first, then the two graphics passes on one level. -/
def computeFeedsGraphicsSchedule : Schedule :=
  ⟨[0, 1, 2], #[some 0, some 1, some 2], #[0, 1, 1], #[.compute, .graphics, .graphics], #[0, 0, 1],
    ⟨[1, 2], [0], [], []⟩, []⟩

/-- Its plan: both graphics passes reach the compute pass, and only the first one waits. -/
def computeFeedsGraphicsPlan : SyncPlan :=
  ⟨#[.const none, ⟨none, some 0, none, none⟩, ⟨none, some 0, none, none⟩],
    #[[], [⟨.compute, 0⟩], [⟨.compute, 0⟩]], #[[], [⟨.compute, 0⟩], []],
    ⟨[⟨.graphics, 0, 2, [⟨.compute, 0⟩], 2⟩], [⟨.compute, 0, 1, [], 1⟩], [], []⟩⟩

theorem computeFeedsGraphics_waitLaws :
    Returns (Graph.build computeFeedsGraphics) computeFeedsGraphicsGraph ∧
      Returns (Schedule.build computeFeedsGraphics computeFeedsGraphicsGraph {})
        computeFeedsGraphicsSchedule ∧
      ((SyncPlan.build computeFeedsGraphicsGraph computeFeedsGraphicsSchedule).run #[]).1 =
        computeFeedsGraphicsPlan ∧
      WaitLaws computeFeedsGraphicsGraph computeFeedsGraphicsSchedule computeFeedsGraphicsPlan := by
  have hg : Returns (Graph.build computeFeedsGraphics) computeFeedsGraphicsGraph := ⟨#[], by rfl⟩
  have hs : Returns (Schedule.build computeFeedsGraphics computeFeedsGraphicsGraph {})
      computeFeedsGraphicsSchedule := ⟨#[], by cbv⟩
  have hp : ((SyncPlan.build computeFeedsGraphicsGraph computeFeedsGraphicsSchedule).run #[]).1 =
      computeFeedsGraphicsPlan := by cbv
  exact ⟨hg, hs, hp, build_waits_cover_minimally hg hs hp⟩

end RenderGraph.SyncPlan
