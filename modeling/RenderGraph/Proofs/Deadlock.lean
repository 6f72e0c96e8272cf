import RenderGraph.Proofs.Simulation
/-!
# Deadlocks of the simulation

A backend may run the frames of a baked graph in any order that keeps two rules: each queue
class runs its frames in sequence, and a frame runs only once every wait `(Q, i)` of it sees the
timeline of `Q` at `i + 1` or more, the timeline of a class without frames staying at zero. A
finished frame sets its class's timeline to its signal. `BakedGraph.runFrames` runs whole frames
in the order of a list of classes; a graph is `Schedulable` when some order runs every frame
(`Complete`).

The simulation searches for no such order: it goes round the queue entries, runs each entry's
next frame as soon as it is ready, and reports a deadlock after a round that ran nothing.

## What is proved

For a graph with one entry per class, frames that cover passes at their own queue indices and
signals that do not decrease along each queue (`Simulable`), the simulation fails with a deadlock
exactly when the graph is not schedulable; otherwise it succeeds, having run the passes of a
complete run of the frames, in that run's order (`deadlocks_iff_unschedulable`).

* Between frames the tracks stand for a state that some order reaches (`GreedyInv`), so a run
  the simulation finishes is a complete run of the frames.
* With signals that do not decrease, a timeline only grows as frames run (`signalAfter_mono`).
  So a state in which no class can run its next frame bounds every run from the start
  (`runFrames_le_of_stuck`): a class that caught up with it would find its next frame ready in
  it too, the waits seeing timelines no higher. With frames left, such a state rules out every
  complete run (`not_schedulable_of_stuck`), and a round that ran nothing leaves one.
* Every other round runs a frame, so the rounds are bounded by the frames left.
-/

namespace RenderGraph

namespace Logged

/-- A computation that always succeeds with `Q`, followed by ones that ensure `P` of their
outcome from every value satisfying `Q`, ensures `P` of its outcome. -/
theorem Succeeds.bind_ensures {ε α β : Type} {m : ExceptT ε Logged α} {f : α → ExceptT ε Logged β}
    {Q : α → Prop} {P : Except ε β → Prop} (hm : Succeeds m Q) (hf : ∀ a, Q a → Ensures (f a).run P) :
    Ensures (m >>= f).run P := by
  intro j
  obtain ⟨a, ha, hQ⟩ := hm j
  rw [ExceptT.run_bind, StateT.run_bind]
  rcases hr : m.run.run j with ⟨r, j'⟩
  rw [hr] at ha
  cases ha
  exact hf a hQ j'

end Logged

namespace BakedGraph

/-! ### Runs of whole frames -/

/-- The state of a run of whole frames: how many frames each queue class has run, the value of
each class's timeline, and the ids of the passes run so far, in order. -/
structure FrameRun where
  done : PerQueue Nat
  timeline : PerQueue Nat
  executed : List Nat

/-- Before any frame runs: nothing done, every timeline at zero. -/
def FrameRun.start : FrameRun := ⟨.const 0, .const 0, []⟩

variable (G : BakedGraph)

/-- The ids of the passes a frame of class `q` runs, in order. -/
def framePasses (q : QueueClass) (f : Frame) : List Nat :=
  (List.range' f.first f.len).filterMap fun i => (G.passesOf q)[i]?.map (·.id)

/-- The next frame of class `q`, when every wait `(Q, i)` of it sees the timeline of `Q` at
`i + 1` or more. -/
def nextReady? (σ : FrameRun) (q : QueueClass) : Option Frame :=
  ((G.framesFor q)[σ.done.get q]?).filter fun f =>
    f.waits.all fun w => decide (w.timelineValue ≤ σ.timeline.get w.queue)

/-- Class `q` runs frame `f`: one more of its frames done, its timeline at the frame's signal,
and the frame's passes run. -/
def advance (σ : FrameRun) (q : QueueClass) (f : Frame) : FrameRun :=
  ⟨σ.done.set q (σ.done.get q + 1), σ.timeline.set q f.signal, σ.executed ++ G.framePasses q f⟩

/-- Runs the next frame of each class of `order` in turn; none as soon as one is not ready. -/
def runFrames : FrameRun → List QueueClass → Option FrameRun
  | σ, [] => some σ
  | σ, q :: order => (G.nextReady? σ q).bind fun f => runFrames (G.advance σ q f) order

/-- Every class has run all its frames. -/
def Complete (σ : FrameRun) : Prop := ∀ q, σ.done.get q = (G.framesFor q).length

/-- Some order of the classes runs every frame. -/
def Schedulable : Prop := ∃ order σ, G.runFrames .start order = some σ ∧ G.Complete σ

/-- The timeline of a class that has run the first `n` of its frames: the last one's signal. -/
def signalAfter (frames : List Frame) : Nat → Nat
  | 0 => 0
  | n + 1 => (frames[n]?.map (·.signal)).getD 0

/-- What every run of frames keeps: no class past its last frame, and each timeline at the
signal of its class's last frame run. -/
structure Consistent (σ : FrameRun) : Prop where
  done_le : ∀ q, σ.done.get q ≤ (G.framesFor q).length
  timeline_eq : ∀ q, σ.timeline.get q = signalAfter (G.framesFor q) (σ.done.get q)

variable {G}

theorem nextReady?_eq_some {σ : FrameRun} {q : QueueClass} {f : Frame} :
    G.nextReady? σ q = some f ↔ (G.framesFor q)[σ.done.get q]? = some f ∧
      ∀ w ∈ f.waits, w.timelineValue ≤ σ.timeline.get w.queue := by
  simp [nextReady?]

theorem runFrames_append (σ : FrameRun) (order : List QueueClass) (q : QueueClass) :
    G.runFrames σ (order ++ [q]) =
      (G.runFrames σ order).bind fun τ => (G.nextReady? τ q).map (G.advance τ q) := by
  induction order generalizing σ with
  | nil =>
    simp only [List.nil_append, runFrames, Option.bind_some]
    cases G.nextReady? σ q <;> rfl
  | cons q' order ih =>
    simp only [List.cons_append, runFrames]
    cases G.nextReady? σ q' with
    | none => rfl
    | some f => exact ih _

theorem consistent_start : G.Consistent .start where
  done_le q := by simp [FrameRun.start]
  timeline_eq q := by simp [FrameRun.start, signalAfter]

theorem Consistent.advance {σ : FrameRun} (h : G.Consistent σ) {q : QueueClass} {f : Frame}
    (hf : G.nextReady? σ q = some f) : G.Consistent (G.advance σ q f) := by
  have hnext := (nextReady?_eq_some.mp hf).1
  have hlt := (List.getElem?_eq_some_iff.mp hnext).1
  constructor
  · intro q'
    by_cases hq : q' = q
    · subst hq
      simpa [BakedGraph.advance] using hlt
    · simpa [BakedGraph.advance, hq] using h.done_le q'
  · intro q'
    by_cases hq : q' = q
    · subst hq
      simp [BakedGraph.advance, signalAfter, hnext]
    · simpa [BakedGraph.advance, hq] using h.timeline_eq q'

theorem Consistent.runFrames {σ τ : FrameRun} (h : G.Consistent σ) {order : List QueueClass}
    (hr : G.runFrames σ order = some τ) : G.Consistent τ := by
  induction order generalizing σ with
  | nil =>
    cases hr
    exact h
  | cons q order ih =>
    obtain ⟨f, hf, hr⟩ := Option.bind_eq_some_iff.mp hr
    exact ih (h.advance hf) hr

/-- With signals that do not decrease along the frames, a timeline does not decrease as frames
run. -/
theorem signalAfter_mono {frames : List Frame} (hs : (frames.map (·.signal)).Pairwise (· ≤ ·))
    {m n : Nat} (hmn : m ≤ n) (hn : n ≤ frames.length) : signalAfter frames m ≤ signalAfter frames n := by
  match m, n, hmn with
  | 0, _, _ => exact Nat.zero_le _
  | m + 1, n + 1, hmn =>
    have hm' : m < frames.length := by omega
    have hn' : n < frames.length := by omega
    simp only [signalAfter, List.getElem?_eq_getElem hm', List.getElem?_eq_getElem hn',
      Option.map_some, Option.getD_some]
    rcases Nat.lt_or_ge m n with hlt | hge
    · have := List.pairwise_iff_getElem.mp hs m n (by simpa using hm') (by simpa using hn') hlt
      simpa using this
    · obtain rfl : m = n := by omega
      exact le_rfl

/-- A run of frames from a state behind a stuck one stays behind it: a class that caught up
would find its next frame ready in the stuck state too, its waits seeing timelines no higher. -/
theorem runFrames_le_of_stuck (hsorted : ∀ q, ((G.framesFor q).map (·.signal)).Pairwise (· ≤ ·))
    {σ : FrameRun} (hσ : G.Consistent σ) (hstuck : ∀ q, G.nextReady? σ q = none)
    (order : List QueueClass) :
    ∀ τ τ', G.Consistent τ → (∀ q, τ.done.get q ≤ σ.done.get q) →
      G.runFrames τ order = some τ' → ∀ q, τ'.done.get q ≤ σ.done.get q := by
  induction order with
  | nil =>
    intro τ τ' _ hle hr
    cases hr
    exact hle
  | cons q order ih =>
    intro τ τ' hτ hle hr
    obtain ⟨f, hf, hr⟩ := Option.bind_eq_some_iff.mp hr
    refine ih _ _ (hτ.advance hf) (fun q' => ?_) hr
    obtain ⟨hnext, hwaits⟩ := nextReady?_eq_some.mp hf
    by_cases hq : q' = q
    · subst hq
      simp only [BakedGraph.advance, PerQueue.get_set]
      refine Nat.lt_of_le_of_ne (hle q') fun heq => ?_
      -- caught up: the stuck state's next frame of `q'` is `f`, and it is ready there
      have hready : G.nextReady? σ q' = some f := by
        refine nextReady?_eq_some.mpr ⟨heq ▸ hnext, fun w hw => ?_⟩
        calc w.timelineValue ≤ τ.timeline.get w.queue := hwaits w hw
          _ = signalAfter (G.framesFor w.queue) (τ.done.get w.queue) := hτ.timeline_eq _
          _ ≤ signalAfter (G.framesFor w.queue) (σ.done.get w.queue) :=
            signalAfter_mono (hsorted _) (hle _) (hσ.done_le _)
          _ = σ.timeline.get w.queue := (hσ.timeline_eq _).symm
      rw [hstuck q'] at hready
      cases hready
    · simpa [BakedGraph.advance, hq] using hle q'

/-- A reachable state in which no class can run a frame while frames are left shows that no
order runs every frame. -/
theorem not_schedulable_of_stuck (hsorted : ∀ q, ((G.framesFor q).map (·.signal)).Pairwise (· ≤ ·))
    {σ : FrameRun} (hσ : G.Consistent σ) (hstuck : ∀ q, G.nextReady? σ q = none)
    {q : QueueClass} (hleft : σ.done.get q < (G.framesFor q).length) : ¬G.Schedulable := by
  rintro ⟨order, τ, hr, hall⟩
  have hle := runFrames_le_of_stuck hsorted hσ hstuck order _ _ consistent_start
    (fun q => by simp [FrameRun.start]) hr q
  rw [hall q] at hle
  omega

end BakedGraph

namespace Simulation

open BakedGraph Logged

variable {G : BakedGraph}

/-! ### Graphs the simulation runs to the end or to a deadlock -/

/-- A graph the simulation runs without a malformed frame and whose timelines never go back: one
queue entry per class, every pass a frame covers present at its own queue index, and frame
signals that do not decrease along each queue. -/
structure Simulable (G : BakedGraph) : Prop where
  nodup : (G.queues.map (·.queue)).Nodup
  covered : ∀ Q ∈ G.queues, ∀ f ∈ Q.frames, ∀ i ∈ List.range' f.first f.len,
    Q.passes[i]?.map (·.queueIndex) = some i
  sorted : ∀ Q ∈ G.queues, (Q.frames.map (·.signal)).Pairwise (· ≤ ·)

/-- Running queue indices that each name a pass at that index succeeds, and appends the passes'
ids to the executed ones. -/
theorem runPasses_covered {Q : BakedQueue} {j : Nat} (idxs : List Nat)
    (h : ∀ i ∈ idxs, Q.passes[i]?.map (·.queueIndex) = some i) (acc : Nanos × List Nanos × Simulation) :
    ∃ clock ends sim, runPasses Q j idxs acc = .ok (clock, ends, sim) ∧
      sim.executed = acc.2.2.executed ++ idxs.filterMap fun i => Q.passes[i]?.map (·.id) := by
  induction idxs generalizing acc with
  | nil => exact ⟨acc.1, acc.2.1, acc.2.2, rfl, by simp⟩
  | cons i idxs ih =>
    obtain ⟨start, ends, sim⟩ := acc
    obtain ⟨p, hp, hidx⟩ : ∃ p, Q.passes[i]? = some p ∧ p.queueIndex = i := by
      simpa using h i List.mem_cons_self
    obtain ⟨clock, ends', sim', hrun, hexec⟩ := ih (fun i' hi' => h i' (List.mem_cons_of_mem _ hi'))
      (start + passCost p, setEnd ends i (start + passCost p),
        { sim with executed := sim.executed ++ [p.id], timings := sim.timings ++ [(p.id, passCost p)] })
    refine ⟨clock, ends', sim', ?_, ?_⟩
    · rw [runPasses, hp]
      simp only [hidx, ite_true]
      exact hrun
    · rw [hexec]
      simp [hp]

namespace Simulable

variable (hG : Simulable G)
include hG

/-- A covered frame runs exactly its own passes. -/
theorem frameIndices_eq {Q : BakedQueue} (hQ : Q ∈ G.queues) {f : Frame} (hf : f ∈ Q.frames) :
    frameIndices Q f = List.range' f.first f.len := by
  unfold frameIndices
  rw [Nat.min_eq_left]
  rcases Nat.eq_zero_or_pos f.len with h0 | hpos
  · omega
  · -- the frame's last pass exists
    have hlast := hG.covered Q hQ f hf (f.first + f.len - 1) (List.mem_range'_1.mpr ⟨by omega, by omega⟩)
    have hlt : f.first + f.len - 1 < Q.passes.length := by
      by_contra hge
      rw [List.getElem?_eq_none (by omega)] at hlast
      cases hlast
    omega

theorem sorted_framesFor (q : QueueClass) : ((G.framesFor q).map (·.signal)).Pairwise (· ≤ ·) := by
  rcases framesFor_cases hG.nodup q with ⟨-, hq⟩ | ⟨k, hk, -, hq⟩
  · simp [hq]
  · rw [hq]
    exact hG.sorted _ (List.getElem_mem hk)

end Simulable

/-! ### The run of frames the tracks stand for -/

/-- The run of frames the tracks stand for: each class at its track's next frame with its
timeline at its track's value, a class without a track at its start, and the passes run so
far. -/
def progress (tracks : Array Track) (executed : List Nat) : FrameRun :=
  ⟨.ofFn fun q => ((trackOf? tracks q).map (·.nextFrame)).getD 0,
    .ofFn fun q => ((trackOf? tracks q).map (·.value)).getD 0, executed⟩

@[simp] theorem progress_done (tracks : Array Track) (executed : List Nat) (q : QueueClass) :
    (progress tracks executed).done.get q = ((trackOf? tracks q).map (·.nextFrame)).getD 0 :=
  PerQueue.get_ofFn _ q

@[simp] theorem progress_timeline (tracks : Array Track) (executed : List Nat) (q : QueueClass) :
    (progress tracks executed).timeline.get q = ((trackOf? tracks q).map (·.value)).getD 0 :=
  PerQueue.get_ofFn _ q

/-- The simulation's readiness is the frame run's: a wait on a class without a track sees a
timeline at zero, below every waited value. -/
theorem ready_eq_true_iff_progress {tracks : Array Track} {executed : List Nat} {f : Frame} :
    ready tracks f = true ↔
      ∀ w ∈ f.waits, w.timelineValue ≤ (progress tracks executed).timeline.get w.queue := by
  rw [ready_eq_true_iff]
  refine forall₂_congr fun w _ => ?_
  cases ht : trackOf? tracks w.queue with
  | none => simp [ht, SyncEntry.timelineValue]
  | some t => simp [ht, SyncEntry.timelineValue]

/-- Moving the track of one class moves that class of the frame run and nothing else. -/
theorem progress_set! {tracks : Array Track} (hnd : (tracks.toList.map (·.queue)).Nodup) {k : Nat}
    (hk : k < tracks.size) {t' : Track} (hq : t'.queue = tracks[k].queue) (executed : List Nat) :
    progress (tracks.set! k t') executed =
      ⟨(progress tracks executed).done.set tracks[k].queue t'.nextFrame,
        (progress tracks executed).timeline.set tracks[k].queue t'.value, executed⟩ := by
  unfold progress
  congr 1 <;> refine PerQueue.ext_get fun q => ?_ <;>
    simp only [PerQueue.get_ofFn, PerQueue.get_set, trackOf?_set! hnd hk hq, eq_comm (a := q)] <;>
    split <;> rfl

/-- Before anything runs, the tracks stand for the start of a run of frames. -/
theorem progress_start (G : BakedGraph) : progress (startTracks G) [] = FrameRun.start := by
  have hzero : ∀ q, ((trackOf? (startTracks G) q).map (·.nextFrame)).getD 0 = 0 ∧
      ((trackOf? (startTracks G) q).map (·.value)).getD 0 = 0 := by
    intro q
    cases ht : trackOf? (startTracks G) q with
    | none => exact ⟨rfl, rfl⟩
    | some t =>
      obtain ⟨Q, -, rfl⟩ := mem_start (mem_of_trackOf? ht).1
      exact ⟨rfl, rfl⟩
  unfold progress FrameRun.start
  congr 1 <;> refine PerQueue.ext_get fun q => ?_
  · rw [PerQueue.get_ofFn, (hzero q).1, PerQueue.get_const]
  · rw [PerQueue.get_ofFn, (hzero q).2, PerQueue.get_const]

/-! ### The invariant of the greedy rounds -/

/-- Between frames the simulation keeps one track per queue entry, in order, and its tracks with
the passes it ran stand for a state that some order of frames reaches. -/
structure GreedyInv (G : BakedGraph) (tracks : Array Track) (sim : Simulation) : Prop where
  classes : tracks.toList.map (·.queue) = G.queues.map (·.queue)
  reached : ∃ order, G.runFrames .start order = some (progress tracks sim.executed)

namespace GreedyInv

variable {tracks : Array Track} {sim : Simulation}

theorem start (G : BakedGraph) : GreedyInv G (startTracks G) ⟨[], [], 0⟩ where
  classes := by simp [startTracks]
  reached := ⟨[], by rw [progress_start]; rfl⟩

theorem consistent (h : GreedyInv G tracks sim) : G.Consistent (progress tracks sim.executed) := by
  obtain ⟨order, hord⟩ := h.reached
  exact consistent_start.runFrames hord

theorem size_eq (h : GreedyInv G tracks sim) : tracks.size = G.queues.length := by
  simpa using congrArg List.length h.classes

theorem trackOf?_getD (h : GreedyInv G tracks sim) (hG : Simulable G) {k : Nat} (hk : k < G.queues.length) :
    trackOf? tracks G.queues[k].queue = some (tracks.getD k default) :=
  trackOf?_getD_of_classes h.classes hG.nodup hk

/-- The frame run stands where the tracks do: entry `k`'s class at the entry's next frame. -/
theorem done_get (h : GreedyInv G tracks sim) (hG : Simulable G) {k : Nat} (hk : k < G.queues.length)
    (executed : List Nat) :
    (progress tracks executed).done.get G.queues[k].queue = (tracks.getD k default).nextFrame := by
  simp [h.trackOf?_getD hG hk]

/-- A class without an entry has no track, and stays at its start. -/
theorem done_get_of_none (h : GreedyInv G tracks sim) {q : QueueClass} (hq : G.queue? q = none)
    (executed : List Nat) : (progress tracks executed).done.get q = 0 := by
  have hnone : trackOf? tracks q = none := by
    rw [trackOf?_eq_none_iff]
    intro t ht htq
    have hmem : q ∈ G.queues.map (·.queue) := by
      rw [← h.classes, ← htq]
      exact List.mem_map_of_mem (Array.mem_toList_iff.mpr ht)
    obtain ⟨Q, hQ, rfl⟩ := List.mem_map.mp hmem
    unfold BakedGraph.queue? at hq
    have := List.find?_eq_none.mp hq Q hQ
    simp at this
  simp [hnone]

/-- Entry `k` running its next frame `f`, once `f` is ready, succeeds and keeps the invariant: the
frame run reaches one frame further, by `f`. -/
theorem runFrame (h : GreedyInv G tracks sim) (hG : Simulable G) {k : Nat} (hk : k < G.queues.length)
    {f : Frame} (hf : G.queues[k].frames[(tracks.getD k default).nextFrame]? = some f)
    (hready : ready tracks f = true) (start : Nanos) :
    ∃ clock ends sim', runPasses G.queues[k] (tracks.getD k default).nextFrame
        (frameIndices G.queues[k] f) (start, (tracks.getD k default).ends, sim) =
        .ok (clock, ends, sim') ∧
      GreedyInv G (tracks.set! k ⟨(tracks.getD k default).queue, f.signal,
        (tracks.getD k default).nextFrame + 1, clock, ends⟩) sim' := by
  have hQ : G.queues[k] ∈ G.queues := List.getElem_mem hk
  have hfm : f ∈ G.queues[k].frames := List.mem_of_getElem? hf
  obtain ⟨clock, ends, sim', hrun, hexec⟩ := runPasses_covered (j := (tracks.getD k default).nextFrame)
    _ (hG.covered _ hQ f hfm) (start, (tracks.getD k default).ends, sim)
  refine ⟨clock, ends, sim', by rw [hG.frameIndices_eq hQ hfm]; exact hrun, ?_⟩
  have hk' : k < tracks.size := h.size_eq ▸ hk
  have hgetk : tracks[k] = tracks.getD k default := by
    rw [Array.getD_eq_getD_getElem?, Array.getElem?_eq_getElem hk', Option.getD_some]
  have hkq : tracks[k].queue = G.queues[k].queue := hgetk ▸ (mem_of_trackOf? (h.trackOf?_getD hG hk)).2
  have hnd : (tracks.toList.map (·.queue)).Nodup := h.classes ▸ hG.nodup
  have hq' : (⟨(tracks.getD k default).queue, f.signal, (tracks.getD k default).nextFrame + 1, clock,
      ends⟩ : Track).queue = tracks[k].queue := by
    rw [hgetk]
  refine ⟨(classes_set! hk' hq').trans h.classes, ?_⟩
  obtain ⟨order, hord⟩ := h.reached
  refine ⟨order ++ [G.queues[k].queue], ?_⟩
  -- the frame run takes the same frame: the entry's next one, ready by the same waits
  have hnext : G.nextReady? (progress tracks sim.executed) G.queues[k].queue = some f := by
    refine nextReady?_eq_some.mpr ⟨?_, ready_eq_true_iff_progress.mp hready⟩
    rw [h.done_get hG hk, framesFor_of_nodup hG.nodup hQ]
    exact hf
  rw [runFrames_append, hord, Option.bind_some, hnext, Option.map_some, progress_set! hnd hk' hq', hkq]
  congr 1
  simp only [BakedGraph.advance, h.done_get hG hk, hexec, framePasses, passesOf_of_nodup hG.nodup hQ]
  rfl

/-- The entries' next frames are within their frames. -/
theorem frame_le (h : GreedyInv G tracks sim) (hG : Simulable G) (k : Nat) (hk : k < G.queues.length) :
    (tracks.getD k default).nextFrame ≤ G.queues[k].frames.length := by
  have := h.consistent.done_le G.queues[k].queue
  rwa [h.done_get hG hk, framesFor_of_nodup hG.nodup (List.getElem_mem hk)] at this

/-- Tracks whose every entry has run all its frames stand for a complete run. -/
theorem complete (h : GreedyInv G tracks sim) (hG : Simulable G)
    (hall : ∀ k (hk : k < G.queues.length), G.queues[k].frames.length ≤ (tracks.getD k default).nextFrame) :
    G.Complete (progress tracks sim.executed) := by
  intro q
  rcases framesFor_cases hG.nodup q with ⟨hq, hnil⟩ | ⟨k, hk, rfl, hq⟩
  · rw [h.done_get_of_none hq, hnil]
    rfl
  · refine le_antisymm (h.consistent.done_le _) ?_
    rw [h.done_get hG hk, hq]
    exact hall k hk

/-- Tracks whose entries' next frames are none of them ready stand for a stuck run: no class can
run a frame. -/
theorem stuck (h : GreedyInv G tracks sim) (hG : Simulable G)
    (hnone : ∀ k (hk : k < G.queues.length), ∀ f,
      G.queues[k].frames[(tracks.getD k default).nextFrame]? = some f → ready tracks f = false)
    (q : QueueClass) : G.nextReady? (progress tracks sim.executed) q = none := by
  rcases framesFor_cases hG.nodup q with ⟨-, hq⟩ | ⟨k, hk, rfl, hq⟩
  · simp [nextReady?, hq]
  · cases hr : G.nextReady? (progress tracks sim.executed) G.queues[k].queue with
    | none => rfl
    | some f =>
      obtain ⟨hnext, hwaits⟩ := nextReady?_eq_some.mp hr
      rw [h.done_get hG hk, hq] at hnext
      have hready := hnone k hk f hnext
      rw [ready_eq_true_iff_progress.mpr hwaits] at hready
      cases hready

end GreedyInv

variable {tracks₀ : Array Track}

/-- A whole round keeps the greedy invariant, with what it did for every entry. -/
theorem GreedyInv.round {sim : Simulation} (h : GreedyInv G tracks₀ sim) (hG : Simulable G) :
    Succeeds ((List.range G.queues.length).foldlM (Simulation.turn G) ⟨tracks₀, sim, false, true⟩)
      fun r => RoundFacts G tracks₀ G.queues.length r ∧ GreedyInv G r.tracks r.sim :=
  Succeeds.foldlM_range (I := fun i r => RoundFacts G tracks₀ i r ∧ GreedyInv G r.tracks r.sim)
    ⟨RoundFacts.start h.size_eq sim, h⟩ fun _ _ hi hI =>
      (turn_cases hi fun _ hf hready => hI.2.runFrame hG hi hf hready _).imp fun _ hout =>
        ⟨hI.1.turn hi hout, TurnOutcome.inv (I := GreedyInv G) hout hI.2⟩

/-! ### Every run of the simulation -/

/-- What simulating a graph may give: the results of a complete run of its frames, with the
passes in the run's order, or a deadlock when no order runs every frame. -/
def Outcome (G : BakedGraph) : Except BackendError Simulation → Prop
  | .ok sim => ∃ order σ, G.runFrames .start order = some σ ∧ G.Complete σ ∧ sim.executed = σ.executed
  | .error e => (∃ q k, e = .deadlock q k) ∧ ¬G.Schedulable

/-- With more rounds of fuel than frames left, the rounds give what `Outcome` says. -/
theorem rounds_outcome (hG : Simulable G) (fuel : Nat) :
    ∀ tracks sim, GreedyInv G tracks sim → framesLeft G tracks < fuel →
      Ensures (rounds G fuel tracks sim).run fun res => Outcome G (res.map (·.2)) := by
  induction fuel with
  | zero =>
    intro _ _ _ hleft
    omega
  | succ fuel ih =>
    intro tracks sim h hleft
    rw [rounds]
    refine Succeeds.bind_ensures (h.round hG) fun r hround => ?_
    obtain ⟨hr, hinv⟩ := hround
    cases hfin : r.finished with
    | true =>
      -- every entry ran all its frames: the run the tracks stand for is complete
      obtain ⟨order, hord⟩ := hinv.reached
      exact fun _ => ⟨order, _, hord, hinv.complete hG fun k hk => hr.done hfin k hk hk, rfl⟩
    | false =>
      obtain ⟨k, hk, -, hkl⟩ := hr.left hfin
      cases hprog : r.progressed with
      | false =>
        -- a round that ran nothing leaves the run of frames stuck with frames left
        obtain ⟨htr, hnone⟩ := hr.stuck hprog
        rw [← htr] at hnone hkl
        have hns : ¬G.Schedulable := by
          refine not_schedulable_of_stuck hG.sorted_framesFor hinv.consistent
            (hinv.stuck hG fun k hk => hnone k hk hk) (q := G.queues[k].queue) ?_
          rw [hinv.done_get hG hk, framesFor_of_nodup hG.nodup (List.getElem_mem hk)]
          exact hkl
        simp only [Bool.false_eq_true, ↓reduceIte, Bool.not_false]
        split <;> exact fun _ => ⟨⟨_, _, rfl⟩, hns⟩
      | true =>
        simp only [Bool.false_eq_true, Bool.not_true, ↓reduceIte]
        exact ih r.tracks r.sim hinv
          (by have := framesLeft_lt_of_le (hinv.frame_le hG) hr.mono (hr.moved hprog); omega)

/-- Every simulation of a simulable graph gives what `Outcome` says. -/
theorem run_outcome (hG : Simulable G) : Ensures (run G).run (Outcome G) := by
  intro j
  have h := rounds_outcome hG (total (G.queues.map (·.frames.length)) + 1) _ _ (GreedyInv.start G)
    (by rw [framesLeft_start]; omega) j
  unfold Simulation.run simulate
  rw [ExceptT.run_bind, StateT.run_bind]
  rcases hr : (rounds G _ (startTracks G) ⟨[], [], 0⟩).run.run j with ⟨_ | ⟨tracks, sim⟩, j'⟩
  · rw [hr] at h
    exact h
  · rw [hr] at h
    exact h

/-- **The simulation deadlocks exactly when no order runs every frame.** On a graph with one
queue entry per class, frames that cover passes at their own queue indices and frame signals that
do not decrease along each queue, simulating a run fails with a deadlock if and only if no order
of the classes runs every frame, each once its waits are met. Otherwise it succeeds, having run
the passes of a complete run of the frames, in that run's order. -/
theorem deadlocks_iff_unschedulable (hG : Simulable G) (j : Journal) :
    ((∃ q k, ((run G).run.run j).1 = .error (.deadlock q k)) ↔ ¬G.Schedulable) ∧
      (G.Schedulable → ∃ sim order σ, ((run G).run.run j).1 = .ok sim ∧
        G.runFrames .start order = some σ ∧ G.Complete σ ∧ sim.executed = σ.executed) := by
  have h := run_outcome hG j
  generalize ((run G).run.run j).1 = res at h ⊢
  cases res with
  | ok sim =>
    obtain ⟨order, σ, hord, hcomplete, hexec⟩ := h
    have hs : G.Schedulable := ⟨order, σ, hord, hcomplete⟩
    refine ⟨⟨?_, fun hns => absurd hs hns⟩, fun _ => ⟨sim, order, σ, rfl, hord, hcomplete, hexec⟩⟩
    rintro ⟨_, _, he⟩
    cases he
  | error e =>
    obtain ⟨⟨q, k, rfl⟩, hns⟩ := h
    exact ⟨⟨fun _ => hns, fun _ => ⟨q, k, rfl⟩⟩, fun hs => absurd hs hns⟩

/-- A queue whose every pass is a frame of its own, signalling its queue index plus one. -/
def singlePassFrames (q : QueueClass) (passes : List BakedPass) : BakedQueue :=
  ⟨q, passes.map fun p => ⟨q, p.queueIndex, 1, p.waits, p.queueIndex + 1⟩, passes⟩

/-- A graphics pass and a compute pass, each waiting for the other. -/
def circularWaits : BakedGraph where
  buckets := []
  aliases := []
  queues :=
    [singlePassFrames .graphics [⟨0, "pass 0", .graphics, 0, 0, 0, none, [], [⟨.compute, 0⟩]⟩],
      singlePassFrames .compute [⟨1, "pass 1", .compute, 1, 0, 0, none, [], [⟨.graphics, 0⟩]⟩]]

/-- Two passes waiting for each other deadlock the simulation, so no order runs both. -/
theorem circularWaits_unschedulable : Simulable circularWaits ∧ ¬circularWaits.Schedulable :=
  have hG : Simulable circularWaits := ⟨by decide, by decide, by decide⟩
  ⟨hG, (deadlocks_iff_unschedulable hG #[]).1.mp ⟨.graphics, 0, by cbv⟩⟩

end Simulation

end RenderGraph
