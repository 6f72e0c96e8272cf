import RenderGraph.Proofs.Reach
/-!
# Frame boundaries

`framesOf` cuts a queue's passes into frames (`Frames`). This module says exactly where the cuts
fall: a frame other than the first starts at a pass with waits of its own, or after a pass that
some pass waits for, and at no other place. With the facts of `FrameLaws`, the frames of a queue of
a successful bake partition its queue indices into runs, each opened by the only pass of the run
that waits, and every waited-for pass ends a run whose signal is one past it
(`build_frames_cut_queue`).

* `Tiling.first_succ`, `Tiling.exists_next`, `Tiling.not_first_inside`: frames that tile a queue
  follow one another, and no frame starts inside another.
* `frameStep_cases`: a pass either extends the last frame, when there is one, the pass before it is
  not waited for and it has no waits, or opens a frame.
* `FrameHeads`: every frame has the queue's class, and records why it was opened; `frameStep`
  keeps it (`FrameHeads.step`). With `FrameLaws`, a frame opens exactly at a pass with waits or
  after a waited-for pass (`FrameLaws.first_eq_iff`).
-/

namespace RenderGraph.SyncPlan

open Logged

/-! ### Frames that tile a queue -/

namespace Tiling

variable {frames : List Frame} {n : Nat}

theorem first_eq_zero (h : Tiling frames n) (hk : 0 < frames.length) : frames[0].first = 0 := by
  rw [h.consecutive 0 hk, passesBefore_zero]

/-- Each frame starts where the one before it ends. -/
theorem first_succ (h : Tiling frames n) {k : Nat} (hk : k + 1 < frames.length) :
    frames[k + 1].first = frames[k].first + frames[k].len := by
  rw [h.consecutive (k + 1) hk, h.end_eq (by omega)]

/-- The last frame ends after the last pass. -/
theorem last_end (h : Tiling frames n) (hk : 0 < frames.length) :
    frames[frames.length - 1].first + frames[frames.length - 1].len = n := by
  rw [h.end_eq (by omega), Nat.sub_add_cancel hk, passesBefore_length, h.sum_len]

/-- A queue has frames exactly when it has passes. -/
theorem eq_nil_iff (h : Tiling frames n) : frames = [] ↔ n = 0 := by
  constructor
  · rintro rfl
    simpa using h.sum_len.symm
  · intro hn
    cases frames with
    | nil => rfl
    | cons f rest =>
      have hpos := h.len_pos f List.mem_cons_self
      have hsum := h.sum_len
      simp only [List.map_cons, List.sum_cons] at hsum
      omega

/-- A frame that ends before the last pass is followed by a frame starting where it ends. -/
theorem exists_next (h : Tiling frames n) {f : Frame} (hf : f ∈ frames) (hlt : f.first + f.len < n) :
    ∃ f' ∈ frames, f'.first = f.first + f.len := by
  obtain ⟨k, hk, rfl⟩ := List.getElem_of_mem hf
  have hk1 : k + 1 < frames.length := by
    by_contra hge
    have hend := h.end_eq hk
    rw [show k + 1 = frames.length by omega, passesBefore_length, h.sum_len] at hend
    omega
  exact ⟨frames[k + 1], List.getElem_mem hk1, h.first_succ hk1⟩

/-- No frame starts strictly inside another. -/
theorem not_first_inside (h : Tiling frames n) {f f' : Frame} (hf : f ∈ frames) (hf' : f' ∈ frames)
    (hlo : f.first < f'.first) (hhi : f'.first < f.first + f.len) : False := by
  obtain ⟨k, hk, rfl⟩ := List.getElem_of_mem hf
  have heq := h.eq_of_first_mem hk hf' (by rw [← h.consecutive k hk]; omega)
    (by rw [← h.end_eq hk]; exact hhi)
  rw [heq] at hlo
  omega

end Tiling

/-! ### Where a frame opens -/

section Cutting

variable {s : Schedule} {waits : Array (List SyncEntry)} {waitedOn : List SyncEntry} {q : QueueClass}

/-- A pass extends the last frame when there is one, the flag does not ask for a new frame and it
has no waits; otherwise it opens a frame with its waits. -/
theorem frameStep_cases (acc : List Frame × Bool) (x : Nat) :
    (∃ f, acc.1.getLast? = some f ∧ acc.2 = false ∧ waits.getD x [] = [] ∧
      (frameStep s waits waitedOn q acc x).1 =
        acc.1.dropLast ++ [{ f with len := f.len + 1, signal := s.queueIndexOf x + 1 }]) ∨
    ((acc.1.getLast? = none ∨ acc.2 = true ∨ waits.getD x [] ≠ []) ∧
      (frameStep s waits waitedOn q acc x).1 =
        acc.1 ++ [⟨q, s.queueIndexOf x, 1, waits.getD x [], s.queueIndexOf x + 1⟩]) := by
  obtain ⟨frames, split⟩ := acc
  unfold frameStep
  dsimp only
  cases hl : frames.getLast? with
  | none => exact .inr ⟨.inl rfl, rfl⟩
  | some f =>
    cases split with
    | true => exact .inr ⟨.inr (.inl rfl), rfl⟩
    | false =>
      cases hw : waits.getD x [] with
      | nil => exact .inl ⟨f, rfl, rfl, rfl, rfl⟩
      | cons w ws => exact .inr ⟨.inr (.inr (by simp)), rfl⟩

variable (waits waitedOn q)

/-- Every frame cut from the passes `P` of queue `q` has that queue, and a frame other than the
first opens at a pass with waits or after a waited-for pass. -/
structure FrameHeads (P : List Nat) (frames : List Frame) : Prop where
  queue_eq : ∀ f ∈ frames, f.queue = q
  opens_at : ∀ f ∈ frames, 0 < f.first →
    (∃ c, P[f.first]? = some c ∧ waits.getD c [] ≠ []) ∨ ⟨q, f.first - 1⟩ ∈ waitedOn

variable {waits waitedOn q}

namespace FrameHeads

variable {P : List Nat} {frames : List Frame}

/-- A pass added after the others keeps every frame's reason to open. -/
theorem extend (h : FrameHeads waits waitedOn q P frames) (x : Nat) :
    FrameHeads waits waitedOn q (P ++ [x]) frames := by
  refine ⟨h.queue_eq, fun f hf hpos => ?_⟩
  rcases h.opens_at f hf hpos with ⟨c, hc, hw⟩ | hw
  · exact .inl ⟨c, getElem?_concat_eq_some.mpr (.inl hc), hw⟩
  · exact .inr hw

theorem dropLast (h : FrameHeads waits waitedOn q P frames) :
    FrameHeads waits waitedOn q P frames.dropLast :=
  ⟨fun f hf => h.queue_eq f (List.mem_of_mem_dropLast hf),
    fun f hf => h.opens_at f (List.mem_of_mem_dropLast hf)⟩

theorem concat (h : FrameHeads waits waitedOn q P frames) {f : Frame} (hq : f.queue = q)
    (hopen : 0 < f.first →
      (∃ c, P[f.first]? = some c ∧ waits.getD c [] ≠ []) ∨ ⟨q, f.first - 1⟩ ∈ waitedOn) :
    FrameHeads waits waitedOn q P (frames ++ [f]) := by
  constructor
  · simp only [List.mem_append, List.mem_singleton]
    rintro g (hg | rfl)
    · exact h.queue_eq g hg
    · exact hq
  · simp only [List.mem_append, List.mem_singleton]
    rintro g (hg | rfl)
    · exact h.opens_at g hg
    · exact hopen

/-- Adding the pass at the next queue index keeps `FrameHeads`. -/
theorem step {acc : List Frame × Bool} (h : FrameHeads waits waitedOn q P acc.1)
    (hok : FramesOk waits waitedOn q P acc) {x : Nat} (hx : s.queueIndexOf x = P.length) :
    FrameHeads waits waitedOn q (P ++ [x]) (frameStep s waits waitedOn q acc x).1 := by
  have h' := h.extend x
  rcases @frameStep_cases s waits waitedOn q acc x with
    ⟨f, hlast, -, -, heq⟩ | ⟨hwhy, heq⟩
  · -- the last frame grows, keeping its queue and its first pass
    have hf : f ∈ acc.1 := List.mem_of_getLast? hlast
    rw [heq]
    exact h'.dropLast.concat (h.queue_eq f hf) (h'.opens_at f hf)
  · rw [heq]
    refine h'.concat rfl fun hpos => ?_
    dsimp only at hpos ⊢
    rw [hx] at hpos ⊢
    -- the pass opened a frame: there was one before it, so the flag or its waits opened it
    obtain ⟨rfl, -⟩ | ⟨f, hf, -, hsplit⟩ := hok.last
    · simp at hpos
    rcases hwhy with hnone | hflag | hw
    · rw [hf] at hnone
      cases hnone
    · right
      rw [hflag] at hsplit
      simpa using hsplit.symm
    · exact .inl ⟨x, getElem?_concat_eq_some.mpr (.inr ⟨rfl, rfl⟩), hw⟩

end FrameHeads

/-- The frames cut from passes at queue indices `0, 1, ...` satisfy `FrameHeads`. -/
theorem foldl_frameHeads {P : List Nat} (hP : ∀ i c, P[i]? = some c → s.queueIndexOf c = i) :
    FrameHeads waits waitedOn q P (P.foldl (frameStep s waits waitedOn q) ([], true)).1 := by
  induction P using List.reverseRecOn with
  | nil => exact ⟨by simp, by simp⟩
  | append_singleton P x ih =>
    have hP' : ∀ i c, P[i]? = some c → s.queueIndexOf c = i := fun i c hi =>
      hP i c (getElem?_concat_eq_some.mpr (.inl hi))
    rw [List.foldl_append, List.foldl_cons, List.foldl_nil]
    exact (ih hP').step (foldl_frameStep_ok hP')
      (hP P.length x (getElem?_concat_eq_some.mpr (.inr ⟨rfl, rfl⟩)))

end Cutting

/-- A waited-for entry is a wait of some pass. -/
theorem exists_of_mem_flatten {waits : Array (List SyncEntry)} {w : SyncEntry}
    (h : w ∈ waits.toList.flatten) : ∃ c, w ∈ waits.getD c [] := by
  obtain ⟨l, hl, hw⟩ := List.mem_flatten.mp h
  obtain ⟨c, hc⟩ := List.mem_iff_getElem?.mp hl
  rw [Array.getElem?_toList] at hc
  exact ⟨c, by rw [Array.getD_eq_getD_getElem?, hc, Option.getD_some]; exact hw⟩

/-- With `FrameHeads`, a frame starts at a pass after the first exactly when the pass waits or the
pass before it is waited for. -/
theorem FrameLaws.first_eq_iff {s : Schedule} {waits : Array (List SyncEntry)} {q : QueueClass}
    {frames : List Frame} (hlaws : FrameLaws s waits waits.toList.flatten q frames)
    (hheads : FrameHeads waits waits.toList.flatten q (s.queues.get q) frames) {i c : Nat}
    (hi : 0 < i) (hc : (s.queues.get q)[i]? = some c) :
    (∃ f ∈ frames, f.first = i) ↔ waits.getD c [] ≠ [] ∨ ∃ c', ⟨q, i - 1⟩ ∈ waits.getD c' [] := by
  have hlt : i < (s.queues.get q).length := (List.getElem?_eq_some_iff.mp hc).1
  constructor
  · rintro ⟨f, hf, rfl⟩
    rcases hheads.opens_at f hf hi with ⟨c', hc', hw⟩ | hw
    · rw [hc, Option.some.injEq] at hc'
      exact .inl (hc' ▸ hw)
    · exact .inr (exists_of_mem_flatten hw)
  · rintro (hw | ⟨c', hw⟩)
    · exact hlaws.opens i c hc hw
    · -- the frame that ends after pass `i - 1` is followed by one that starts at `i`
      obtain ⟨f, hf, hend⟩ := hlaws.closes (i - 1) (by omega) (mem_flatten_of_mem_getD hw)
      obtain ⟨f', hf', hfirst⟩ := hlaws.tiling.exists_next hf (by omega)
      exact ⟨f', hf', by omega⟩

/-! ### The frames of a plan -/

/-- What the frames of one queue promise, for the queue's passes `P` in queue order and the
waits of every pass: they partition its queue indices into runs, each opened by its only pass
with waits, or after a waited-for pass, and closed after every waited-for pass. -/
structure FrameCutLaws (P : List Nat) (waitsOf : Nat → List SyncEntry) (Q : QueueClass)
    (frames : List Frame) : Prop where
  /-- The first frame starts at index 0. -/
  first_zero : ∀ f ∈ frames.head?, f.first = 0
  /-- Each frame starts where the one before it ends. -/
  first_succ : ∀ k (hk : k + 1 < frames.length),
    frames[k + 1].first = frames[k].first + frames[k].len
  /-- The last frame ends after the queue's last pass. -/
  last_end : ∀ f ∈ frames.getLast?, f.first + f.len = P.length
  /-- A queue has frames exactly when it has passes. -/
  eq_nil_iff : frames = [] ↔ P = []
  len_pos : ∀ f ∈ frames, 0 < f.len
  queue_eq : ∀ f ∈ frames, f.queue = Q
  signal_eq : ∀ f ∈ frames, f.signal = f.first + f.len
  /-- A frame waits for what its first pass waits for. -/
  waits_eq : ∀ f ∈ frames, ∃ c, P[f.first]? = some c ∧ f.waits = waitsOf c
  /-- No other pass of a frame waits. -/
  inner_no_waits : ∀ f ∈ frames, ∀ i c, f.first < i → i < f.first + f.len → P[i]? = some c →
    waitsOf c = []
  /-- A frame starts at a pass after the first exactly when the pass waits, or the pass before it
  is waited for. -/
  boundary_iff : ∀ i c, 0 < i → P[i]? = some c →
    ((∃ f ∈ frames, f.first = i) ↔ waitsOf c ≠ [] ∨ ∃ c', ⟨Q, i - 1⟩ ∈ waitsOf c')
  /-- A waited-for pass is the last of its frame, which signals one past it. -/
  waited_last : ∀ c i, ⟨Q, i⟩ ∈ waitsOf c →
    ∃ f ∈ frames, f.first ≤ i ∧ f.first + f.len = i + 1 ∧ f.signal = i + 1

/-- **The frames of a queue partition its passes at the waits**: for every registry whose graph the
schedule orders, with any options, the frames of each queue of the plan run its queue indices in
consecutive runs, each opened exactly at a pass with waits or after a waited-for pass, and each
waited-for pass ends a run that signals one past it. -/
theorem build_frames_cut_queue {r : Registry} {o : BakeOptions} {g : Graph} {s : Schedule}
    {j : Journal} {p : SyncPlan} (hg : Returns (Graph.build r) g)
    (hsch : Returns (Schedule.build r g o) s) (hp : ((SyncPlan.build g s).run j).1 = p)
    (Q : QueueClass) : FrameCutLaws (s.queues.get Q) p.waitsOf Q (p.frames.get Q) := by
  have hs := placement_of_build hg hsch
  have hpred : ∀ c ∈ s.order, ∀ x ∈ g.preds c, x ∈ s.order ∧ s.order.idxOf x < s.order.idxOf c :=
    fun c hc x hx => Schedule.build_preds_earlier hg hsch hc hx
  have hfrom := fun {c} {w} (hw : w ∈ p.waitsOf c) => waitsOf_from hs hpred j (hp ▸ hw)
  rw [build_yields g s j] at hp
  subst hp
  rw [PerQueue.get_ofFn]
  set W := keptTable g s
  have hok : FramesOk W W.toList.flatten Q (s.queues.get Q)
      ((s.queues.get Q).foldl (frameStep s W W.toList.flatten Q) ([], true)) :=
    foldl_frameStep_ok (hs.queueIndex_eq Q)
  have hheads : FrameHeads W W.toList.flatten Q (s.queues.get Q)
      ((s.queues.get Q).foldl (frameStep s W W.toList.flatten Q) ([], true)).1 :=
    foldl_frameHeads (hs.queueIndex_eq Q)
  have hlaws : FrameLaws s W W.toList.flatten Q (framesOf s W W.toList.flatten Q) :=
    framesOf_laws hs Q
  have ht := hlaws.tiling
  refine ⟨fun f hf => ?_, fun k hk => ht.first_succ hk, fun f hf => ?_, ?_, ht.len_pos,
    hheads.queue_eq, ht.signal_eq, hok.waits_eq, ?_, fun i c hi hc => hlaws.first_eq_iff hheads hi hc,
    ?_⟩
  · rw [List.head?_eq_getElem?] at hf
    obtain ⟨hk, rfl⟩ := List.getElem?_eq_some_iff.mp hf
    exact ht.first_eq_zero hk
  · rw [List.getLast?_eq_getElem?] at hf
    obtain ⟨hk, rfl⟩ := List.getElem?_eq_some_iff.mp hf
    exact ht.last_end (by omega)
  · rw [ht.eq_nil_iff, List.length_eq_zero_iff]
  · intro f hf i c hlo hhi hc
    by_contra hne
    obtain ⟨f', hf', rfl⟩ := hlaws.opens i c hc hne
    exact ht.not_first_inside hf hf' hlo hhi
  · intro c i hw
    -- a wait names a live pass of the queue, so its index is one of the queue's
    obtain ⟨x, hx, hq, hi, -⟩ := hfrom hw
    have hlt : i < (s.queues.get Q).length := by
      dsimp only at hq hi
      rw [← hq, ← hi]
      exact hs.queueIndexOf_lt hx
    obtain ⟨f, hf, hend⟩ := hlaws.closes i hlt (mem_flatten_of_mem_getD hw)
    have hpos := ht.len_pos f hf
    exact ⟨f, hf, by omega, hend, by rw [ht.signal_eq f hf, hend]⟩

/-- Both graphics passes run in one frame, opened by the first, which waits for the compute pass;
the compute pass, waited for, ends its frame. -/
theorem computeFeedsGraphics_frameCutLaws :
    Returns (Graph.build computeFeedsGraphics) computeFeedsGraphicsGraph ∧
      Returns (Schedule.build computeFeedsGraphics computeFeedsGraphicsGraph {})
        computeFeedsGraphicsSchedule ∧
      ((SyncPlan.build computeFeedsGraphicsGraph computeFeedsGraphicsSchedule).run #[]).1 =
        computeFeedsGraphicsPlan ∧
      FrameCutLaws (computeFeedsGraphicsSchedule.queues.get .graphics) computeFeedsGraphicsPlan.waitsOf
        .graphics (computeFeedsGraphicsPlan.frames.get .graphics) ∧
      FrameCutLaws (computeFeedsGraphicsSchedule.queues.get .compute) computeFeedsGraphicsPlan.waitsOf
        .compute (computeFeedsGraphicsPlan.frames.get .compute) := by
  have hg : Returns (Graph.build computeFeedsGraphics) computeFeedsGraphicsGraph := ⟨#[], by rfl⟩
  have hs : Returns (Schedule.build computeFeedsGraphics computeFeedsGraphicsGraph {})
      computeFeedsGraphicsSchedule := ⟨#[], by cbv⟩
  have hp : ((SyncPlan.build computeFeedsGraphicsGraph computeFeedsGraphicsSchedule).run #[]).1 =
      computeFeedsGraphicsPlan := by cbv
  exact ⟨hg, hs, hp, build_frames_cut_queue hg hs hp .graphics, build_frames_cut_queue hg hs hp .compute⟩

end RenderGraph.SyncPlan
