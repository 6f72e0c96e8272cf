import RenderGraph.Proofs.Baking
/-!
# Executing a baked graph

A backend runs the queues of a baked graph concurrently. Each queue runs its frames in order and
the passes of a frame one at a time. The first pass of a frame starts only once every wait
`(Q, i)` of the frame sees the timeline of `Q` at `i + 1` or more; when the last pass of a frame
finishes, its queue's timeline takes the frame's signal. Steps of different queues interleave in
any order.

## The model

* `Cursor`, `ExecState`: where each queue is in its frames (the frame, how many of its passes
  have finished, whether the next one runs) and the value of each queue's timeline. Everything
  starts at zero (`ExecState.init`).
* `Step`: one queue starts the next pass of its frame (`start`), or finishes its running pass,
  inside the frame (`finishPass`) or as the frame's last (`finishFrame`). `Reachable` closes
  the start under steps.
* `ExecState.next`: the queue index of the next pass a queue finishes. The passes below it have
  finished (`Finished`); the one at it has started when the queue runs it (`Started`).

## What is proved

For a graph whose frames tile the passes of each queue (`Framed`), every reachable state
satisfies `ExecInv` (`Reachable.inv`): a timeline holds the end of the frames its queue finished,
and every frame that started found every pass it waits for finished. Hence no step lowers a
timeline (`Step.timeline_le`), a queue without frames keeps its timeline at zero, a running
queue can always finish its pass, and an idle queue with passes left can start the next one
once the timelines its frame waits for have reached the frames that end at the waited passes
(`ExecInv.finish_enabled`, `ExecInv.start_enabled`, `ExecInv.timeline_ge`).
-/

namespace RenderGraph

open SyncPlan

@[simp] theorem PerQueue.get_const {α : Type} (a : α) (q : QueueClass) : (PerQueue.const a).get q = a := by
  cases q <;> rfl

/-- A property of every class's entry survives replacing one entry by a value that has it. -/
theorem PerQueue.forall_get_set {α : Type} {P : QueueClass → α → Prop} {t : PerQueue α} {q : QueueClass}
    {a : α} (hold : ∀ q', q' ≠ q → P q' (t.get q')) (hnew : P q a) (q' : QueueClass) :
    P q' ((t.set q a).get q') := by
  rw [PerQueue.get_set]
  split
  · rename_i h
    subst h
    exact hnew
  · rename_i h
    exact hold q' h

/-- Two tables with the same entry for every class are equal. -/
theorem PerQueue.ext_get {α : Type} {s t : PerQueue α} (h : ∀ q, s.get q = t.get q) : s = t := by
  rcases s with ⟨g, c, p, f⟩
  rcases t with ⟨g', c', p', f'⟩
  have hg := h .graphics
  have hc := h .compute
  have hp := h .copy
  have hf := h .fill
  simp only [PerQueue.get] at hg hc hp hf
  rw [hg, hc, hp, hf]

namespace BakedGraph

/-- The frames of every queue class tile the class's passes. -/
def Framed (G : BakedGraph) : Prop := ∀ q, Tiling (G.framesFor q) (G.passesOf q).length

/-- Where a queue is in its frames. -/
structure Cursor where
  /-- The frame it runs, or runs next. -/
  frame : Nat
  /-- How many passes of that frame have finished. -/
  pos : Nat
  /-- Whether the next pass of the frame is running. -/
  running : Bool
  deriving DecidableEq, Repr

/-- A state of an execution: where each queue is in its frames, and each queue's timeline. -/
structure ExecState where
  cursor : PerQueue Cursor
  timeline : PerQueue Nat
  deriving DecidableEq, Repr

namespace ExecState

/-- Before anything runs: every queue idle at its first frame, every timeline at zero. -/
def init : ExecState := ⟨.const ⟨0, 0, false⟩, .const 0⟩

variable (G : BakedGraph) (σ : ExecState)

/-- The queue index of the next pass queue `q` finishes: the passes of the frames before its
frame, and those of its frame that have finished. -/
def next (q : QueueClass) : Nat :=
  passesBefore (G.framesFor q) (σ.cursor.get q).frame + (σ.cursor.get q).pos

/-- The pass with queue index `i` of queue `q` has finished. -/
def Finished (q : QueueClass) (i : Nat) : Prop := i < σ.next G q

/-- The pass with queue index `i` of queue `q` has started: it has finished, or it runs. -/
def Started (q : QueueClass) (i : Nat) : Prop :=
  i < σ.next G q ∨ (i = σ.next G q ∧ (σ.cursor.get q).running = true)

end ExecState

/-- One step of one queue of a baked graph. -/
inductive Step (G : BakedGraph) : ExecState → ExecState → Prop
  /-- An idle queue starts the next pass of its frame; the first pass of a frame only once every
  timeline the frame waits for has reached the waited index plus one. -/
  | start {σ : ExecState} {q : QueueClass} {c : Cursor} {f : Frame}
      (cursor : σ.cursor.get q = c) (idle : c.running = false)
      (current : (G.framesFor q)[c.frame]? = some f)
      (ready : c.pos = 0 → ∀ w ∈ f.waits, w.timelineValue ≤ σ.timeline.get w.queue) :
      Step G σ ⟨σ.cursor.set q { c with running := true }, σ.timeline⟩
  /-- The running pass finishes, and its frame has more passes. -/
  | finishPass {σ : ExecState} {q : QueueClass} {c : Cursor} {f : Frame}
      (cursor : σ.cursor.get q = c) (busy : c.running = true)
      (current : (G.framesFor q)[c.frame]? = some f) (inside : c.pos + 1 < f.len) :
      Step G σ ⟨σ.cursor.set q ⟨c.frame, c.pos + 1, false⟩, σ.timeline⟩
  /-- The running pass finishes as the last of its frame: the queue's timeline takes the frame's
  signal, and the queue moves to its next frame. -/
  | finishFrame {σ : ExecState} {q : QueueClass} {c : Cursor} {f : Frame}
      (cursor : σ.cursor.get q = c) (busy : c.running = true)
      (current : (G.framesFor q)[c.frame]? = some f) (last : f.len ≤ c.pos + 1) :
      Step G σ ⟨σ.cursor.set q ⟨c.frame + 1, 0, false⟩, σ.timeline.set q f.signal⟩

/-- The states that some interleaving of steps reaches from the start. -/
def Reachable (G : BakedGraph) (σ : ExecState) : Prop :=
  Relation.ReflTransGen (Step G) ExecState.init σ

/-- What holds in every reachable state of a framed graph. -/
structure ExecInv (G : BakedGraph) (σ : ExecState) : Prop where
  /-- A queue is at one of its frames or just past the last. -/
  frame_le : ∀ q, (σ.cursor.get q).frame ≤ (G.framesFor q).length
  /-- Past the last frame nothing has finished or runs. -/
  past_last : ∀ q, (G.framesFor q).length ≤ (σ.cursor.get q).frame →
    (σ.cursor.get q).pos = 0 ∧ (σ.cursor.get q).running = false
  /-- Inside a frame, fewer passes have finished than the frame has. -/
  pos_lt : ∀ q f, (G.framesFor q)[(σ.cursor.get q).frame]? = some f → (σ.cursor.get q).pos < f.len
  /-- A timeline holds the end of the frames its queue finished. -/
  timeline_eq : ∀ q, σ.timeline.get q = passesBefore (G.framesFor q) (σ.cursor.get q).frame
  /-- Every frame that started found the passes it waits for finished. -/
  waits_done : ∀ q, ∀ f ∈ G.framesFor q, σ.Started G q f.first →
    ∀ w ∈ f.waits, σ.Finished G w.queue w.index

namespace ExecState

variable {G : BakedGraph}

/-- Moving the cursor of queue `q` moves its next pass and no other queue's. -/
theorem next_set (σ : ExecState) (q : QueueClass) (c : Cursor) (t : PerQueue Nat) (q' : QueueClass) :
    ExecState.next G ⟨σ.cursor.set q c, t⟩ q' =
      if q' = q then passesBefore (G.framesFor q) c.frame + c.pos else σ.next G q' := by
  unfold next
  rw [PerQueue.get_set]
  split
  · rename_i h
    subst h
    rfl
  · rfl

theorem Started.of_le {σ : ExecState} {q : QueueClass} {i j : Nat} (h : σ.Started G q i) (hji : j ≤ i) :
    σ.Started G q j := by
  rcases Nat.lt_or_eq_of_le hji with hlt | rfl
  · left
    rcases h with h | ⟨rfl, -⟩ <;> omega
  · exact h

/-- A pass before a started one on its queue has finished. -/
theorem Started.finished_of_lt {σ : ExecState} {q : QueueClass} {i j : Nat} (h : σ.Started G q i)
    (hji : j < i) : σ.Finished G q j := by
  unfold Finished
  rcases h with h | ⟨h, -⟩ <;> omega

/-- A finish on `q` moves its next pass on by one and leaves it idle: a pass started after it
had started before, and a pass finished before has still finished. -/
theorem started_of_finish {σ σ' : ExecState} {q : QueueClass}
    (hnext : ∀ q', σ'.next G q' = if q' = q then σ.next G q + 1 else σ.next G q')
    (hidle : (σ'.cursor.get q).running = false)
    (hrun : ∀ q', q' ≠ q → (σ'.cursor.get q').running = (σ.cursor.get q').running)
    (busy : (σ.cursor.get q).running = true) {q' : QueueClass} {i : Nat}
    (h : σ'.Started G q' i) : σ.Started G q' i := by
  unfold Started at h ⊢
  rw [hnext] at h
  by_cases hq : q' = q
  · subst hq
    simp only [if_true, hidle, Bool.false_eq_true, and_false, or_false] at h
    rcases Nat.lt_succ_iff_lt_or_eq.mp h with h | h
    · exact .inl h
    · exact .inr ⟨h, busy⟩
  · rw [if_neg hq, hrun q' hq] at h
    exact h

theorem finished_of_finish {σ σ' : ExecState} {q : QueueClass}
    (hnext : ∀ q', σ'.next G q' = if q' = q then σ.next G q + 1 else σ.next G q')
    {q' : QueueClass} {i : Nat} (h : σ.Finished G q' i) : σ'.Finished G q' i := by
  unfold Finished at h ⊢
  rw [hnext]
  split
  · rename_i hq
    subst hq
    omega
  · exact h

end ExecState

open ExecState

namespace ExecInv

variable {G : BakedGraph} {σ : ExecState}

theorem init (hG : G.Framed) : ExecInv G ExecState.init where
  frame_le q := by simp [ExecState.init]
  past_last q _ := by simp [ExecState.init]
  pos_lt q f hf := by
    simp only [ExecState.init, PerQueue.get_const] at hf ⊢
    exact (hG q).len_pos f (List.mem_of_getElem? hf)
  timeline_eq q := by simp [ExecState.init]
  waits_done q f _ hstart := by
    simp [Started, ExecState.init, next] at hstart

/-- Starting a pass keeps the invariant: the frame it opens, if any, is the queue's current
frame, whose waits the start found satisfied. -/
theorem start (hG : G.Framed) (h : ExecInv G σ) {q : QueueClass} {c : Cursor} {f : Frame}
    (hc : σ.cursor.get q = c) (current : (G.framesFor q)[c.frame]? = some f)
    (ready : c.pos = 0 → ∀ w ∈ f.waits, w.timelineValue ≤ σ.timeline.get w.queue) :
    ExecInv G ⟨σ.cursor.set q { c with running := true }, σ.timeline⟩ := by
  have hk : c.frame < (G.framesFor q).length := (List.getElem?_eq_some_iff.mp current).1
  have hf : (G.framesFor q)[c.frame] = f := (List.getElem?_eq_some_iff.mp current).2
  have hpos : c.pos < f.len := hc ▸ h.pos_lt q f (hc ▸ current)
  -- no queue's next pass moves
  have hnext : ∀ q', ExecState.next G ⟨σ.cursor.set q { c with running := true }, σ.timeline⟩ q' =
      σ.next G q' := by
    intro q'
    rw [next_set]
    split
    · rename_i hq
      subst hq
      rw [next, hc]
    · rfl
  constructor
  case frame_le =>
    exact PerQueue.forall_get_set (P := fun q' (x : Cursor) => x.frame ≤ (G.framesFor q').length)
      (fun q' _ => h.frame_le q') hk.le
  case past_last =>
    exact PerQueue.forall_get_set
      (P := fun q' (x : Cursor) => (G.framesFor q').length ≤ x.frame → x.pos = 0 ∧ x.running = false)
      (fun q' _ => h.past_last q') (fun hle => absurd hk (Nat.not_lt.mpr hle))
  case pos_lt =>
    exact PerQueue.forall_get_set
      (P := fun q' (x : Cursor) => ∀ f, (G.framesFor q')[x.frame]? = some f → x.pos < f.len)
      (fun q' _ => h.pos_lt q') (fun f' hf' => by rw [current] at hf'; cases hf'; exact hpos)
  case timeline_eq =>
    exact PerQueue.forall_get_set
      (P := fun q' (x : Cursor) => σ.timeline.get q' = passesBefore (G.framesFor q') x.frame)
      (fun q' _ => h.timeline_eq q') (by rw [h.timeline_eq, hc])
  case waits_done =>
    intro q' f' hf' hstart w hw
    unfold Finished
    rw [hnext]
    unfold Started at hstart
    rw [hnext, PerQueue.get_set] at hstart
    by_cases hq : q' = q
    · subst hq
      simp only [if_true] at hstart
      rcases hstart with hlt | ⟨heq, -⟩
      · exact h.waits_done q' f' hf' (.inl hlt) w hw
      · -- the frame that starts here is the current one, at its first pass
        rw [next, hc] at heq
        have hhi : f'.first < passesBefore (G.framesFor q') (c.frame + 1) := by
          rw [passesBefore_succ hk, hf]
          omega
        have hfeq := (hG q').eq_of_first_mem hk hf' (by omega) hhi
        rw [hf] at hfeq
        subst hfeq
        have hfirst := (hG q').consecutive c.frame hk
        rw [hf] at hfirst
        have hw' := ready (by omega) w hw
        rw [h.timeline_eq] at hw'
        unfold SyncEntry.timelineValue at hw'
        unfold next
        omega
    · simp only [hq, if_false] at hstart
      exact h.waits_done q' f' hf' hstart w hw

/-- Finishing a pass inside its frame keeps the invariant. -/
theorem finishPass (h : ExecInv G σ) {q : QueueClass} {c : Cursor} {f : Frame}
    (hc : σ.cursor.get q = c) (busy : c.running = true) (current : (G.framesFor q)[c.frame]? = some f)
    (inside : c.pos + 1 < f.len) :
    ExecInv G ⟨σ.cursor.set q ⟨c.frame, c.pos + 1, false⟩, σ.timeline⟩ := by
  have hk : c.frame < (G.framesFor q).length := (List.getElem?_eq_some_iff.mp current).1
  have hnext : ∀ q', ExecState.next G ⟨σ.cursor.set q ⟨c.frame, c.pos + 1, false⟩, σ.timeline⟩ q' =
      if q' = q then σ.next G q + 1 else σ.next G q' := by
    intro q'
    rw [next_set]
    split
    · rw [next, hc]
      rfl
    · rfl
  constructor
  case frame_le =>
    exact PerQueue.forall_get_set (P := fun q' (x : Cursor) => x.frame ≤ (G.framesFor q').length)
      (fun q' _ => h.frame_le q') hk.le
  case past_last =>
    exact PerQueue.forall_get_set
      (P := fun q' (x : Cursor) => (G.framesFor q').length ≤ x.frame → x.pos = 0 ∧ x.running = false)
      (fun q' _ => h.past_last q') (fun hle => absurd hk (Nat.not_lt.mpr hle))
  case pos_lt =>
    exact PerQueue.forall_get_set
      (P := fun q' (x : Cursor) => ∀ f, (G.framesFor q')[x.frame]? = some f → x.pos < f.len)
      (fun q' _ => h.pos_lt q') (fun f' hf' => by rw [current] at hf'; cases hf'; exact inside)
  case timeline_eq =>
    exact PerQueue.forall_get_set
      (P := fun q' (x : Cursor) => σ.timeline.get q' = passesBefore (G.framesFor q') x.frame)
      (fun q' _ => h.timeline_eq q') (by rw [h.timeline_eq, hc])
  case waits_done =>
    intro q' f' hf' hstart w hw
    refine finished_of_finish hnext (h.waits_done q' f' hf' ?_ w hw)
    refine started_of_finish hnext (by simp) (fun q'' hq => ?_) (hc ▸ busy) hstart
    rw [PerQueue.get_set, if_neg hq]

/-- Finishing the last pass of a frame keeps the invariant: the queue's timeline takes the
frame's signal, which is where the frames up to it end. -/
theorem finishFrame (hG : G.Framed) (h : ExecInv G σ) {q : QueueClass} {c : Cursor} {f : Frame}
    (hc : σ.cursor.get q = c) (busy : c.running = true) (current : (G.framesFor q)[c.frame]? = some f)
    (last : f.len ≤ c.pos + 1) :
    ExecInv G ⟨σ.cursor.set q ⟨c.frame + 1, 0, false⟩, σ.timeline.set q f.signal⟩ := by
  have hk : c.frame < (G.framesFor q).length := (List.getElem?_eq_some_iff.mp current).1
  have hf : (G.framesFor q)[c.frame] = f := (List.getElem?_eq_some_iff.mp current).2
  have hpos : c.pos < f.len := hc ▸ h.pos_lt q f (hc ▸ current)
  -- the frame ends where the frames up to it end, and that is its signal
  have hend : passesBefore (G.framesFor q) (c.frame + 1) = passesBefore (G.framesFor q) c.frame + f.len := by
    rw [passesBefore_succ hk, hf]
  have hsignal : f.signal = passesBefore (G.framesFor q) (c.frame + 1) := by
    rw [(hG q).signal_eq f (List.mem_of_getElem? current), ← hf, (hG q).end_eq hk]
  have hnext : ∀ q', ExecState.next G ⟨σ.cursor.set q ⟨c.frame + 1, 0, false⟩, σ.timeline.set q f.signal⟩ q' =
      if q' = q then σ.next G q + 1 else σ.next G q' := by
    intro q'
    rw [next_set]
    split
    · rw [next, hc]
      dsimp only
      omega
    · rfl
  constructor
  case frame_le =>
    exact PerQueue.forall_get_set (P := fun q' (x : Cursor) => x.frame ≤ (G.framesFor q').length)
      (fun q' _ => h.frame_le q') hk
  case past_last =>
    exact PerQueue.forall_get_set
      (P := fun q' (x : Cursor) => (G.framesFor q').length ≤ x.frame → x.pos = 0 ∧ x.running = false)
      (fun q' _ => h.past_last q') (fun _ => ⟨rfl, rfl⟩)
  case pos_lt =>
    exact PerQueue.forall_get_set
      (P := fun q' (x : Cursor) => ∀ f, (G.framesFor q')[x.frame]? = some f → x.pos < f.len)
      (fun q' _ => h.pos_lt q') (fun f' hf' => (hG q).len_pos f' (List.mem_of_getElem? hf'))
  case timeline_eq =>
    intro q'
    rw [PerQueue.get_set, PerQueue.get_set]
    split
    · rename_i hq
      subst hq
      exact hsignal
    · exact h.timeline_eq q'
  case waits_done =>
    intro q' f' hf' hstart w hw
    refine finished_of_finish hnext (h.waits_done q' f' hf' ?_ w hw)
    refine started_of_finish hnext (by simp) (fun q'' hq => ?_) (hc ▸ busy) hstart
    rw [PerQueue.get_set, if_neg hq]

theorem step (hG : G.Framed) (h : ExecInv G σ) {σ' : ExecState} (hs : Step G σ σ') :
    ExecInv G σ' := by
  cases hs with
  | start hc _ current ready => exact h.start hG hc current ready
  | finishPass hc busy current inside => exact h.finishPass hc busy current inside
  | finishFrame hc busy current last => exact h.finishFrame hG hc busy current last

end ExecInv

/-- Every reachable state of a framed graph satisfies the invariant. -/
theorem Reachable.inv {G : BakedGraph} (hG : G.Framed) {σ : ExecState} (h : Reachable G σ) :
    ExecInv G σ := by
  induction h with
  | refl => exact ExecInv.init hG
  | tail _ hs ih => exact ih.step hG hs

namespace ExecInv

variable {G : BakedGraph} {σ : ExecState}

/-- No step lowers a timeline. -/
theorem timeline_le (hG : G.Framed) (h : ExecInv G σ) {σ' : ExecState} (hs : Step G σ σ')
    (q : QueueClass) : σ.timeline.get q ≤ σ'.timeline.get q := by
  cases hs with
  | start => exact le_rfl
  | finishPass => exact le_rfl
  | @finishFrame q' c f hc busy current last =>
    rw [PerQueue.get_set]
    split
    · rename_i hq
      subst hq
      have hk : c.frame < (G.framesFor q).length := (List.getElem?_eq_some_iff.mp current).1
      have hf : (G.framesFor q)[c.frame] = f := (List.getElem?_eq_some_iff.mp current).2
      rw [h.timeline_eq, hc, (hG q).signal_eq f (List.mem_of_getElem? current), ← hf,
        (hG q).end_eq hk]
      exact passesBefore_mono _ (Nat.le_succ _)
    · exact le_rfl

/-- A queue without frames keeps its timeline at zero. -/
theorem timeline_eq_zero (h : ExecInv G σ) {q : QueueClass} (hq : G.framesFor q = []) :
    σ.timeline.get q = 0 := by
  rw [h.timeline_eq, hq]
  simp [passesBefore]

/-- A frame that ends at or before a queue's next pass ends at or before its timeline. -/
theorem timeline_ge (hG : G.Framed) (h : ExecInv G σ) {q : QueueClass} {f : Frame}
    (hf : f ∈ G.framesFor q) (hend : f.first + f.len ≤ σ.next G q) :
    f.first + f.len ≤ σ.timeline.get q := by
  rw [h.timeline_eq]
  unfold next at hend
  rcases hcur : (G.framesFor q)[(σ.cursor.get q).frame]? with _ | f₀
  · -- past the last frame nothing of a frame is done
    have hle := List.getElem?_eq_none_iff.mp hcur
    rw [(h.past_last q hle).1] at hend
    omega
  · have hk := (List.getElem?_eq_some_iff.mp hcur).1
    have hf₀ := (List.getElem?_eq_some_iff.mp hcur).2
    have hpos := h.pos_lt q f₀ hcur
    refine (hG q).end_le_of_lt hf ?_
    rw [passesBefore_succ hk, hf₀]
    omega

/-- A queue inside one of its frames has passes left. -/
theorem next_lt (hG : G.Framed) (h : ExecInv G σ) {q : QueueClass}
    (hk : (σ.cursor.get q).frame < (G.framesFor q).length) : σ.next G q < (G.passesOf q).length := by
  unfold next
  rw [← (hG q).sum_len, ← passesBefore_length]
  have hpos := h.pos_lt q _ (List.getElem?_eq_getElem hk)
  have := passesBefore_mono (G.framesFor q) (Nat.succ_le_of_lt hk)
  rw [passesBefore_succ hk] at this
  omega

/-- A running queue can finish its pass. -/
theorem finish_enabled (h : ExecInv G σ) {q : QueueClass} (busy : (σ.cursor.get q).running = true) :
    ∃ σ', Step G σ σ' := by
  rcases hcur : (G.framesFor q)[(σ.cursor.get q).frame]? with _ | f
  · -- past the last frame no pass runs
    have := (h.past_last q (List.getElem?_eq_none_iff.mp hcur)).2
    rw [busy] at this
    cases this
  · by_cases hin : (σ.cursor.get q).pos + 1 < f.len
    · exact ⟨_, .finishPass rfl busy hcur hin⟩
    · exact ⟨_, .finishFrame rfl busy hcur (Nat.le_of_not_lt hin)⟩

/-- An idle queue with passes left can start the next one, once the timelines the current frame
waits for are far enough when the pass opens it. -/
theorem start_enabled (hG : G.Framed) (h : ExecInv G σ) {q : QueueClass}
    (idle : (σ.cursor.get q).running = false) (hleft : σ.next G q < (G.passesOf q).length)
    (ready : ∀ f, (G.framesFor q)[(σ.cursor.get q).frame]? = some f → (σ.cursor.get q).pos = 0 →
      ∀ w ∈ f.waits, w.timelineValue ≤ σ.timeline.get w.queue) :
    ∃ σ', Step G σ σ' := by
  rcases hcur : (G.framesFor q)[(σ.cursor.get q).frame]? with _ | f
  · -- past the last frame every pass has finished
    have hle := List.getElem?_eq_none_iff.mp hcur
    have hpast : σ.next G q = passesBefore (G.framesFor q) (σ.cursor.get q).frame := by
      rw [next, (h.past_last q hle).1, Nat.add_zero]
    have := passesBefore_mono (G.framesFor q) hle
    rw [passesBefore_length, (hG q).sum_len] at this
    omega
  · exact ⟨_, .start rfl idle hcur (ready f hcur)⟩

end ExecInv

end BakedGraph

end RenderGraph
