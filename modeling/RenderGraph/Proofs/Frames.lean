import RenderGraph.Proofs.Waits
/-!
# Submit frames

`framesOf` cuts the passes of one queue into frames, one pass at a time (`frameStep`): a pass
extends the last frame unless it has waits of its own or the pass before it is waited for, and
otherwise opens a new frame carrying its waits. A frame signals one past its last pass.

* `Tiling`: frames that run the passes `0, ..., n - 1` of a queue one after the other, each
  starting where the frames before it end (`passesBefore`), none empty, each signalling one past
  its last pass. A frame boundary never falls inside another frame (`Tiling.eq_of_first_mem`,
  `Tiling.end_le_of_lt`).
* `FramesOk`: what the frames cut from the first passes of a queue satisfy; `frameStep` keeps it
  (`FramesOk.step`), so `framesOf` tiles the whole queue, gives every frame the waits of its
  first pass, opens a frame at every pass with waits and closes one after every waited-for pass
  (`framesOf_laws`, and `build_frameLaws` for a plan).
* `reachTable_from`: every entry of the reach table names a live pass earlier in the order, on
  that queue at that index; so every wait of a pass points at such a pass (`waitsOf_from`).
-/

namespace RenderGraph.SyncPlan

/-! ### Frames that tile a queue -/

/-- The number of passes in the first `k` frames. -/
def passesBefore (frames : List Frame) (k : Nat) : Nat := ((frames.take k).map (·.len)).sum

/-- Each frame starts where the frames before it end. -/
def Consecutive (frames : List Frame) : Prop :=
  ∀ k (h : k < frames.length), frames[k].first = passesBefore frames k

/-- Frames that run the passes `0, ..., n - 1` of a queue in order, each nonempty and signalling
one past its last pass. -/
structure Tiling (frames : List Frame) (n : Nat) : Prop where
  consecutive : Consecutive frames
  sum_len : (frames.map (·.len)).sum = n
  len_pos : ∀ f ∈ frames, 0 < f.len
  signal_eq : ∀ f ∈ frames, f.signal = f.first + f.len

section Tiling

variable {frames : List Frame}

@[simp] theorem passesBefore_zero (frames : List Frame) : passesBefore frames 0 = 0 := by
  simp only [passesBefore, List.take_zero, List.map_nil, List.sum_nil]

theorem passesBefore_succ {k : Nat} (hk : k < frames.length) :
    passesBefore frames (k + 1) = passesBefore frames k + frames[k].len := by
  simp only [passesBefore, List.take_add_one, List.getElem?_eq_getElem hk, Option.toList_some,
    List.map_append, List.map_cons, List.map_nil, List.sum_append, List.sum_cons, List.sum_nil,
    Nat.add_zero]

theorem passesBefore_length (frames : List Frame) :
    passesBefore frames frames.length = (frames.map (·.len)).sum := by
  simp [passesBefore]

theorem passesBefore_concat (A : List Frame) (x : Frame) {k : Nat} (hk : k ≤ A.length) :
    passesBefore (A ++ [x]) k = passesBefore A k := by
  simp [passesBefore, List.take_append_of_le_length hk]

theorem passesBefore_mono (frames : List Frame) {k k' : Nat} (h : k ≤ k') :
    passesBefore frames k ≤ passesBefore frames k' := by
  unfold passesBefore
  exact ((List.take_prefix_take_left h).map _).sublist.sum_le_sum (fun _ _ => Nat.zero_le _)

/-- With no empty frame, the passes before a frame grow strictly with its index. -/
theorem passesBefore_lt (hpos : ∀ f ∈ frames, 0 < f.len) {k k' : Nat} (h : k < k')
    (hk' : k' ≤ frames.length) : passesBefore frames k < passesBefore frames k' := by
  have hk : k < frames.length := by omega
  calc passesBefore frames k
      < passesBefore frames k + frames[k].len := by
        have := hpos _ (List.getElem_mem hk)
        omega
    _ = passesBefore frames (k + 1) := (passesBefore_succ hk).symm
    _ ≤ passesBefore frames k' := passesBefore_mono frames h

theorem consecutive_concat {A : List Frame} {x : Frame} :
    Consecutive (A ++ [x]) ↔ Consecutive A ∧ x.first = (A.map (·.len)).sum := by
  constructor
  · intro h
    refine ⟨fun k hk => ?_, ?_⟩
    · have := h k (by simp; omega)
      rwa [List.getElem_append_left hk, passesBefore_concat A x hk.le] at this
    · have := h A.length (by simp)
      rwa [List.getElem_concat_length rfl, passesBefore_concat A x le_rfl, passesBefore_length] at this
  · rintro ⟨h, hx⟩ k hk
    simp only [List.length_append, List.length_singleton] at hk
    rcases Nat.lt_or_ge k A.length with hlt | hge
    · rw [List.getElem_append_left hlt, passesBefore_concat A x hlt.le]
      exact h k hlt
    · obtain rfl : k = A.length := by omega
      rw [List.getElem_concat_length rfl, passesBefore_concat A x le_rfl, passesBefore_length]
      exact hx

namespace Tiling

variable {n : Nat}

/-- A frame of a tiling ends where the frames up to it end. -/
theorem end_eq (h : Tiling frames n) {k : Nat} (hk : k < frames.length) :
    frames[k].first + frames[k].len = passesBefore frames (k + 1) := by
  rw [h.consecutive k hk, passesBefore_succ hk]

/-- A frame that starts inside frame `k` is frame `k`. -/
theorem eq_of_first_mem (h : Tiling frames n) {k : Nat} (hk : k < frames.length) {f : Frame}
    (hf : f ∈ frames) (hlo : passesBefore frames k ≤ f.first)
    (hhi : f.first < passesBefore frames (k + 1)) : f = frames[k] := by
  obtain ⟨k', hk', rfl⟩ := List.getElem_of_mem hf
  rw [h.consecutive k' hk'] at hlo hhi
  -- the passes before a frame tell its index
  have : k' = k := by
    rcases Nat.lt_trichotomy k' k with hlt | heq | hgt
    · exact absurd hlo (Nat.not_le.mpr (passesBefore_lt h.len_pos hlt hk.le))
    · exact heq
    · exact absurd hhi (Nat.not_lt.mpr (passesBefore_mono frames hgt))
  subst this
  rfl

/-- A frame that ends before the end of frame `k` ends at or before its start. -/
theorem end_le_of_lt (h : Tiling frames n) {f : Frame} (hf : f ∈ frames) {k : Nat}
    (hlt : f.first + f.len < passesBefore frames (k + 1)) :
    f.first + f.len ≤ passesBefore frames k := by
  obtain ⟨k', hk', rfl⟩ := List.getElem_of_mem hf
  rw [h.end_eq hk'] at hlt ⊢
  by_contra hgt
  exact absurd hlt (Nat.not_lt.mpr (passesBefore_mono frames (by
    by_contra hk
    exact hgt (passesBefore_mono frames (by omega)))))

end Tiling

end Tiling

/-! ### Cutting a queue into frames -/

section Cutting

variable (s : Schedule) (waits : Array (List SyncEntry)) (waitedOn : List SyncEntry)
  (q : QueueClass)

/-- What the frames cut from the passes `P` of a queue satisfy, `P` at queue indices
`0, 1, ...`, with the flag that says whether the next pass opens a frame. -/
structure FramesOk (P : List Nat) (acc : List Frame × Bool) : Prop where
  consecutive : Consecutive acc.1
  sum_len : (acc.1.map (·.len)).sum = P.length
  len_pos : ∀ f ∈ acc.1, 0 < f.len
  signal_eq : ∀ f ∈ acc.1, f.signal = f.first + f.len
  waits_eq : ∀ f ∈ acc.1, ∃ c, P[f.first]? = some c ∧ f.waits = waits.getD c []
  opens : ∀ i c, P[i]? = some c → waits.getD c [] ≠ [] → ∃ f ∈ acc.1, f.first = i
  closes : ∀ i, i + 1 < P.length → ⟨q, i⟩ ∈ waitedOn → ∃ f ∈ acc.1, f.first + f.len = i + 1
  /-- The last frame ends after the last pass, and the flag records whether that pass is waited
  for; before any pass there is no frame and the next pass opens one. -/
  last : (P = [] ∧ acc = ([], true)) ∨ ∃ f, acc.1.getLast? = some f ∧ f.first + f.len = P.length ∧
    acc.2 = waitedOn.contains ⟨q, P.length - 1⟩

variable {s waits waitedOn q}

theorem framesOk_nil : FramesOk waits waitedOn q [] ([], true) where
  consecutive k h := by simp at h
  sum_len := rfl
  len_pos := by simp
  signal_eq := by simp
  waits_eq := by simp
  opens := by simp
  closes := by simp
  last := .inl ⟨rfl, rfl⟩

/-- The pass at the next queue index extending the last frame keeps `FramesOk`, when it has no
waits and the pass before it is not waited for. -/
theorem FramesOk.extend {P : List Nat} {frames : List Frame}
    (h : FramesOk waits waitedOn q P (frames, false)) {f : Frame} (hlast : frames.getLast? = some f)
    {x : Nat} (hw : waits.getD x [] = []) :
    FramesOk waits waitedOn q (P ++ [x])
      (frames.dropLast ++ [{ f with len := f.len + 1, signal := P.length + 1 }],
        waitedOn.contains ⟨q, P.length⟩) := by
  have hold : ∀ {i c}, P[i]? = some c → (P ++ [x])[i]? = some c := fun hi =>
    getElem?_concat_eq_some.mpr (.inl hi)
  obtain ⟨⟨-, h0⟩⟩ | ⟨f0, hf0, hend, hsplit⟩ := h.last
  · cases h0
  obtain rfl : f = f0 := Option.some.inj (hlast.symm.trans hf0)
  have hframes : frames = frames.dropLast ++ [f] := (List.dropLast_append_getLast? f hlast).symm
  have hmem : ∀ g ∈ frames, g ∈ frames.dropLast ∨ g = f := fun g hg => by
    rw [hframes, List.mem_append, List.mem_singleton] at hg
    exact hg
  have hcons := h.consecutive
  rw [hframes, consecutive_concat] at hcons
  have hsum := h.sum_len
  rw [hframes] at hsum
  constructor
  case consecutive => exact consecutive_concat.mpr hcons
  case sum_len =>
    simp only [List.map_append, List.map_cons, List.map_nil, List.sum_append, List.sum_cons,
      List.sum_nil, List.length_append, List.length_singleton] at hsum ⊢
    omega
  case len_pos =>
    simp only [List.mem_append, List.mem_singleton]
    rintro g (hg | rfl)
    · exact h.len_pos g (List.mem_of_mem_dropLast hg)
    · simp
  case signal_eq =>
    simp only [List.mem_append, List.mem_singleton]
    rintro g (hg | rfl)
    · exact h.signal_eq g (List.mem_of_mem_dropLast hg)
    · dsimp only
      omega
  case waits_eq =>
    simp only [List.mem_append, List.mem_singleton]
    rintro g (hg | rfl)
    · obtain ⟨c, hc, hw⟩ := h.waits_eq g (List.mem_of_mem_dropLast hg)
      exact ⟨c, hold hc, hw⟩
    · obtain ⟨c, hc, hw⟩ := h.waits_eq f (hframes ▸ by simp)
      exact ⟨c, hold hc, hw⟩
  case opens =>
    intro i c hi hc
    rcases getElem?_concat_eq_some.mp hi with hi | ⟨-, rfl⟩
    · obtain ⟨g, hg, rfl⟩ := h.opens i c hi hc
      rcases hmem g hg with hg | rfl
      · exact ⟨g, by simp [hg]⟩
      · exact ⟨_, List.mem_append_right _ (List.mem_singleton_self _), rfl⟩
    · exact absurd hw hc
  case closes =>
    intro i hi hwait
    rw [List.length_append, List.length_singleton] at hi
    by_cases hlt : i + 1 < P.length
    · obtain ⟨g, hg, hgend⟩ := h.closes i hlt hwait
      rcases hmem g hg with hg | rfl
      · exact ⟨g, by simp [hg], hgend⟩
      · omega
    · -- the pass before `x` is waited for, so the flag would have split
      have : i = P.length - 1 := by omega
      subst this
      simp [hwait] at hsplit
  case last =>
    refine .inr ⟨_, List.getLast?_concat, ?_, ?_⟩
    · simp only [List.length_append, List.length_singleton]
      omega
    · simp

/-- The pass at the next queue index opening a frame of its own keeps `FramesOk`. -/
theorem FramesOk.openFrame {P : List Nat} {acc : List Frame × Bool}
    (h : FramesOk waits waitedOn q P acc) {x : Nat} :
    FramesOk waits waitedOn q (P ++ [x])
      (acc.1 ++ [⟨q, P.length, 1, waits.getD x [], P.length + 1⟩],
        waitedOn.contains ⟨q, P.length⟩) := by
  have hold : ∀ {i c}, P[i]? = some c → (P ++ [x])[i]? = some c := fun hi =>
    getElem?_concat_eq_some.mpr (.inl hi)
  have hnew : (P ++ [x])[P.length]? = some x := getElem?_concat_eq_some.mpr (.inr ⟨rfl, rfl⟩)
  constructor
  case consecutive => exact consecutive_concat.mpr ⟨h.consecutive, h.sum_len.symm⟩
  case sum_len => simp [h.sum_len]
  case len_pos =>
    simp only [List.mem_append, List.mem_singleton]
    rintro g (hg | rfl)
    · exact h.len_pos g hg
    · simp
  case signal_eq =>
    simp only [List.mem_append, List.mem_singleton]
    rintro g (hg | rfl)
    · exact h.signal_eq g hg
    · rfl
  case waits_eq =>
    simp only [List.mem_append, List.mem_singleton]
    rintro g (hg | rfl)
    · obtain ⟨c, hc, hw⟩ := h.waits_eq g hg
      exact ⟨c, hold hc, hw⟩
    · exact ⟨x, hnew, rfl⟩
  case opens =>
    intro i c hi hc
    rcases getElem?_concat_eq_some.mp hi with hi | ⟨rfl, -⟩
    · obtain ⟨g, hg, hgi⟩ := h.opens i c hi hc
      exact ⟨g, List.mem_append_left _ hg, hgi⟩
    · exact ⟨_, List.mem_append_right _ (List.mem_singleton_self _), rfl⟩
  case closes =>
    intro i hi hwait
    rw [List.length_append, List.length_singleton] at hi
    by_cases hlt : i + 1 < P.length
    · obtain ⟨g, hg, hgend⟩ := h.closes i hlt hwait
      exact ⟨g, List.mem_append_left _ hg, hgend⟩
    · -- the pass before `x` ends the last frame so far
      obtain ⟨rfl, -⟩ | ⟨f0, hf0, hend, -⟩ := h.last
      · simp at hi
      · exact ⟨f0, List.mem_append_left _ (List.mem_of_getLast? hf0), by omega⟩
  case last =>
    refine .inr ⟨_, List.getLast?_concat, ?_, ?_⟩
    · simp
    · simp

/-- Adding the pass at the next queue index keeps `FramesOk`: it extends the last frame or opens
one, as `frameStep` decides. -/
theorem FramesOk.step {P : List Nat} {acc : List Frame × Bool} (h : FramesOk waits waitedOn q P acc)
    {x : Nat} (hx : s.queueIndexOf x = P.length) :
    FramesOk waits waitedOn q (P ++ [x]) (frameStep s waits waitedOn q acc x) := by
  obtain ⟨frames, split⟩ := acc
  unfold frameStep
  dsimp only
  rw [hx]
  split
  · rename_i f hlast hw
    exact h.extend hlast hw
  · exact h.openFrame
end Cutting

/-! ### Whole queues -/

section Queues

variable {s : Schedule} {waits : Array (List SyncEntry)} {waitedOn : List SyncEntry} {q : QueueClass}

/-- Passes at queue indices `0, 1, ...`, cut into frames one after the other, satisfy
`FramesOk`. -/
theorem foldl_frameStep_ok {P : List Nat} (hP : ∀ i c, P[i]? = some c → s.queueIndexOf c = i) :
    FramesOk waits waitedOn q P (P.foldl (frameStep s waits waitedOn q) ([], true)) := by
  induction P using List.reverseRecOn with
  | nil => exact framesOk_nil
  | append_singleton P x ih =>
    rw [List.foldl_append, List.foldl_cons, List.foldl_nil]
    exact (ih fun i c hi => hP i c (getElem?_concat_eq_some.mpr (.inl hi))).step
      (hP P.length x (getElem?_concat_eq_some.mpr (.inr ⟨rfl, rfl⟩)))

/-- What the frames of a queue promise to the queue running them. -/
structure FrameLaws (s : Schedule) (waits : Array (List SyncEntry)) (waitedOn : List SyncEntry)
    (q : QueueClass) (frames : List Frame) : Prop where
  /-- The frames run the queue's passes in order. -/
  tiling : Tiling frames (s.queues.get q).length
  /-- A frame waits for what its first pass waits for. -/
  waits_eq : ∀ f ∈ frames, ∀ c, (s.queues.get q)[f.first]? = some c → f.waits = waits.getD c []
  /-- A pass with waits opens a frame. -/
  opens : ∀ i c, (s.queues.get q)[i]? = some c → waits.getD c [] ≠ [] → ∃ f ∈ frames, f.first = i
  /-- A waited-for pass closes a frame. -/
  closes : ∀ i < (s.queues.get q).length, ⟨q, i⟩ ∈ waitedOn →
    ∃ f ∈ frames, f.first + f.len = i + 1

/-- A queue without passes has no frame, and that obeys the laws. -/
theorem frameLaws_nil (h : s.queues.get q = []) : FrameLaws s waits waitedOn q [] where
  tiling := ⟨fun k hk => by simp at hk, by simp [h], by simp, by simp⟩
  waits_eq := by simp
  opens i c hc := by simp [h] at hc
  closes i hi := by simp [h] at hi

theorem framesOf_laws {n : Nat} (hs : s.Placement n) (q : QueueClass) :
    FrameLaws s waits waitedOn q (framesOf s waits waitedOn q) := by
  have h : FramesOk waits waitedOn q (s.queues.get q)
      ((s.queues.get q).foldl (frameStep s waits waitedOn q) ([], true)) :=
    foldl_frameStep_ok (hs.queueIndex_eq q)
  refine ⟨⟨h.consecutive, h.sum_len, h.len_pos, h.signal_eq⟩, fun f hf c hc => ?_, h.opens,
    fun i hi hw => ?_⟩
  · obtain ⟨c', hc', hw⟩ := h.waits_eq f hf
    rw [hc, Option.some.injEq] at hc'
    rw [hc', hw]
  · by_cases hlt : i + 1 < (s.queues.get q).length
    · exact h.closes i hlt hw
    · -- the last pass closes the last frame
      obtain ⟨hnil, -⟩ | ⟨f, hf, hend, -⟩ := h.last
      · rw [hnil] at hi
        cases hi
      · exact ⟨f, List.mem_of_getLast? hf, by omega⟩

/-- A wait of a pass is waited for. -/
theorem mem_flatten_of_mem_getD {c : Nat} {w : SyncEntry} (h : w ∈ waits.getD c []) :
    w ∈ waits.toList.flatten := by
  rw [Array.getD_eq_getD_getElem?] at h
  rcases hc : waits[c]? with _ | l
  · rw [hc] at h
    cases h
  · rw [hc, Option.getD_some] at h
    exact List.mem_flatten.mpr ⟨l, List.mem_of_getElem? (by rw [Array.getElem?_toList]; exact hc), h⟩

end Queues

/-- The frames of every queue of a plan obey `FrameLaws` for the plan's waits. -/
theorem build_frameLaws (g : Graph) {s : Schedule} {n : Nat} (hs : s.Placement n) (j : Journal)
    (q : QueueClass) :
    FrameLaws s ((build g s).run j).1.waits ((build g s).run j).1.waits.toList.flatten q
      (((build g s).run j).1.frames.get q) := by
  rw [build_yields g s j, PerQueue.get_ofFn]
  exact framesOf_laws hs q

/-! ### What a wait points at -/

theorem maxOpt_eq_some {a b : Option Nat} {j : Nat} (h : maxOpt a b = some j) :
    a = some j ∨ b = some j := by
  match a, b, h with
  | none, _, h => exact .inr h
  | some _, none, h => exact .inl h
  | some x, some y, h =>
    rw [maxOpt, Option.some.injEq] at h
    rcases Nat.le_total x y with hxy | hxy
    · exact .inr (by rw [← h, Nat.max_eq_right hxy])
    · exact .inl (by rw [← h, Nat.max_eq_left hxy])

/-- Every entry of a reach row names a live pass earlier in the order than `x`, at that index of
that queue. -/
def RowFrom (s : Schedule) (x : Nat) (row : Reach) : Prop :=
  ∀ Q j, row.get Q = some j →
    ∃ p ∈ s.order, s.queueOf p = Q ∧ s.queueIndexOf p = j ∧ s.order.idxOf p < s.order.idxOf x

section Origins

variable {g : Graph} {s : Schedule}

theorem rowFrom_const_none (x : Nat) : RowFrom s x (.const none) := by
  intro Q j h
  cases Q <;> cases h

/-- A predecessor earlier than `x`, whose own row comes from passes earlier than it, adds to the
row of `x` only passes earlier than `x`. -/
theorem RowFrom.predStep {reach : Array Reach} {row : Reach} {x pred : Nat} (h : RowFrom s x row)
    (hpred : pred ∈ s.order ∧ s.order.idxOf pred < s.order.idxOf x)
    (hreach : RowFrom s pred (reach.getD pred (.const none))) :
    RowFrom s x (predStep s reach row pred) := by
  have hzip : ∀ Q j, (PerQueue.zipWith maxOpt row (reach.getD pred (.const none))).get Q = some j →
      ∃ p ∈ s.order, s.queueOf p = Q ∧ s.queueIndexOf p = j ∧ s.order.idxOf p < s.order.idxOf x := by
    intro Q j hj
    simp only [PerQueue.zipWith, PerQueue.get_ofFn] at hj
    rcases maxOpt_eq_some hj with hj | hj
    · exact h Q j hj
    · obtain ⟨p, hp, hq, hi, hlt⟩ := hreach Q j hj
      exact ⟨p, hp, hq, hi, hlt.trans hpred.2⟩
  intro Q j hj
  unfold SyncPlan.predStep at hj
  rw [PerQueue.get_set] at hj
  split at hj
  · rename_i hQ
    subst hQ
    rcases maxOpt_eq_some hj with hj | hj
    · exact hzip _ j hj
    · -- the predecessor itself
      exact ⟨pred, hpred.1, rfl, Option.some.inj hj, hpred.2⟩
  · exact hzip Q j hj

/-- A property of rows that the empty row has, and that a contribution to the row of a live pass
keeps when the contributing predecessor's own row has it, holds of every row of the reach table. -/
theorem reachTable_induct {R : Nat → Reach → Prop} (h0 : ∀ x, R x (.const none))
    (hstep : ∀ (reach : Array Reach) (row : Reach) (x pred : Nat), x ∈ s.order → pred ∈ g.preds x →
      R x row → R pred (reach.getD pred (.const none)) → R x (predStep s reach row pred))
    (x : Nat) : R x ((reachTable g s).getD x (.const none)) := by
  rw [reachTable_eq_foldl]
  -- the invariant of the fold: every row has the property
  refine List.foldlRecOn (motive := fun t : Array Reach => ∀ x, R x (t.getD x (.const none)))
    _ _ ?_ ?_ x
  · intro x
    rw [Array.getD_replicate_self]
    exact h0 x
  · intro t ht c hc x
    rcases Array.getD_set!_eq_or t c _ x (.const none) with h | ⟨rfl, h⟩
    · rw [h]
      exact ht x
    · rw [h]
      refine List.foldlRecOn (motive := R x) _ _ (h0 x) ?_
      intro row hrow p hp
      exact hstep t row x p hc hp hrow (ht p)

/-- When the predecessors of every live pass are live and earlier in the order, every row of the
reach table comes from passes earlier than its own. -/
theorem reachTable_from
    (hpred : ∀ c ∈ s.order, ∀ p ∈ g.preds c, p ∈ s.order ∧ s.order.idxOf p < s.order.idxOf c)
    (x : Nat) : RowFrom s x ((reachTable g s).getD x (.const none)) :=
  reachTable_induct rowFrom_const_none
    (fun _ _ x p hx hp hrow hreach => hrow.predStep (hpred x hx p hp) hreach) x

/-- Every minimized wait of a pass names a live pass earlier in the order, at that index of that
queue. -/
theorem waitsOf_from (hs : s.Placement g.passCount)
    (hpred : ∀ c ∈ s.order, ∀ p ∈ g.preds c, p ∈ s.order ∧ s.order.idxOf p < s.order.idxOf c)
    (j : Journal) {c : Nat} {w : SyncEntry} (hw : w ∈ ((build g s).run j).1.waitsOf c) :
    ∃ p ∈ s.order, s.queueOf p = w.queue ∧ s.queueIndexOf p = w.index ∧
      s.order.idxOf p < s.order.idxOf c := by
  rw [build_yields g s j] at hw
  have hraw := (keptTable_sublist hs c).subset hw
  rw [getD_rawTable hs, mem_rawWaitsOf] at hraw
  exact reachTable_from hpred c w.queue w.index hraw.2.2

end Origins

end RenderGraph.SyncPlan
