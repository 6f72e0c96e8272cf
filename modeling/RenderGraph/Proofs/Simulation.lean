import RenderGraph.Proofs.Execution
import RenderGraph.Backend
/-!
# The dry-run simulation

`Simulation.simulate` runs a baked graph round by round: each queue entry in turn runs its next
frame when the frame's waits are satisfied, from the latest of the queue's clock and the end times
of the waited passes, and records the end time of each pass it runs.

## What is proved

For a graph with one entry per queue class whose frames tile its queues, with every pass at its
own queue index (`Runnable`), and whose executions never get stuck while frames are left
(`NoDeadlock`), the simulation succeeds and ends with every pass's end time recorded
(`simulate_succeeds`). The recorded times obey `Timed`:

* along a queue, a pass ends at least its cost after the pass before it (`chain`);
* the first pass of a frame ends at least its cost after every pass the frame waits for
  (`waited`).

The proof keeps one invariant of the tracks (`SimInv`) through every frame a queue runs
(`SimInv.runFrame`), and one of a round (`RoundInv`) through every turn. A round that runs no
frame while frames are left is impossible: between rounds every queue is idle, and that idle state
satisfies the execution invariant `ExecInv` (`SimInv.execInv`), so an execution could start some
frame; its waits are met, so the simulation runs it too. Each other round runs a frame, so the
rounds are bounded by the number of frames (`framesLeft`).
-/

namespace RenderGraph.Simulation

open BakedGraph SyncPlan

/-! ### Tracks by class -/

section Tracks

variable {tracks : Array Track} {q : QueueClass} {t : Track}

theorem trackOf?_eq_none_iff : trackOf? tracks q = none ↔ ∀ t ∈ tracks, t.queue ≠ q := by
  unfold trackOf?
  rw [← Array.find?_toList, List.find?_eq_none]
  simp

/-- In a list with one element per class, finding a class gives the element of that class. -/
theorem find?_class_eq_some_iff {α : Type} {key : α → QueueClass} {l : List α}
    (hnd : (l.map key).Nodup) {q : QueueClass} {x : α} :
    l.find? (key · == q) = some x ↔ x ∈ l ∧ key x = q := by
  constructor
  · intro h
    exact ⟨List.mem_of_find?_eq_some h, by simpa using List.find?_some h⟩
  · rintro ⟨hx, rfl⟩
    obtain ⟨y, hy⟩ : ∃ y, l.find? (key · == key x) = some y :=
      Option.isSome_iff_exists.mp (List.find?_isSome.mpr ⟨x, hx, by simp⟩)
    rw [hy, List.inj_on_of_nodup_map hnd (List.mem_of_find?_eq_some hy) hx
      (by simpa using List.find?_some hy)]

theorem mem_of_trackOf? (h : trackOf? tracks q = some t) : t ∈ tracks ∧ t.queue = q := by
  unfold trackOf? at h
  rw [← Array.find?_toList] at h
  exact ⟨Array.mem_toList_iff.mp (List.mem_of_find?_eq_some h), by simpa using List.find?_some h⟩

theorem trackOf?_eq_some_iff (hnd : (tracks.toList.map (·.queue)).Nodup) :
    trackOf? tracks q = some t ↔ t ∈ tracks ∧ t.queue = q := by
  unfold trackOf?
  rw [← Array.find?_toList, find?_class_eq_some_iff hnd, Array.mem_toList_iff]

/-- Replacing a track by one of the same class keeps the classes. -/
theorem classes_set! {k : Nat} (hk : k < tracks.size) {t' : Track} (hq : t'.queue = tracks[k].queue) :
    (tracks.set! k t').toList.map (·.queue) = tracks.toList.map (·.queue) := by
  have hk' : k < (tracks.toList.map (·.queue)).length := by simpa using hk
  rw [Array.set!_eq_setIfInBounds, Array.toList_setIfInBounds, List.map_set, hq,
    show tracks[k].queue = (tracks.toList.map (·.queue))[k] by simp]
  exact List.set_getElem_self hk'

/-- Replacing a track by one of the same class changes what that class finds and nothing else. -/
theorem trackOf?_set! (hnd : (tracks.toList.map (·.queue)).Nodup) {k : Nat} (hk : k < tracks.size)
    {t' : Track} (hq : t'.queue = tracks[k].queue) (q : QueueClass) :
    trackOf? (tracks.set! k t') q = if tracks[k].queue = q then some t' else trackOf? tracks q := by
  have hnd' : ((tracks.set! k t').toList.map (·.queue)).Nodup := (classes_set! hk hq) ▸ hnd
  split
  · rename_i hkq
    rw [trackOf?_eq_some_iff hnd']
    refine ⟨?_, hq.trans hkq⟩
    rw [Array.set!_eq_setIfInBounds, ← Array.mem_toList_iff, Array.toList_setIfInBounds]
    exact List.mem_set (by simpa using hk) t'
  · rename_i hkq
    cases h : trackOf? tracks q with
    | none =>
      rw [trackOf?_eq_none_iff] at h ⊢
      intro x hx
      rw [Array.set!_eq_setIfInBounds, ← Array.mem_toList_iff, Array.toList_setIfInBounds] at hx
      rcases List.mem_or_eq_of_mem_set hx with hx | rfl
      · exact h x (Array.mem_toList_iff.mp hx)
      · exact hq ▸ hkq
    | some x =>
      obtain ⟨hx, rfl⟩ := (trackOf?_eq_some_iff hnd).mp h
      rw [trackOf?_eq_some_iff hnd']
      refine ⟨?_, rfl⟩
      obtain ⟨i, hi, rfl⟩ := Array.mem_iff_getElem.mp hx
      have hik : k ≠ i := fun h => hkq (by subst h; rfl)
      rw [Array.set!_eq_setIfInBounds, Array.mem_iff_getElem]
      exact ⟨i, by simpa using hi, Array.getElem_setIfInBounds_ne hi hik⟩

theorem endOf?_set! (hnd : (tracks.toList.map (·.queue)).Nodup) {k : Nat} (hk : k < tracks.size)
    {t' : Track} (hq : t'.queue = tracks[k].queue) (q : QueueClass) (i : Nat) :
    endOf? (tracks.set! k t') q i = if tracks[k].queue = q then t'.ends[i]? else endOf? tracks q i := by
  unfold endOf?
  rw [trackOf?_set! hnd hk hq]
  split <;> rfl

/-- The end time of a pass is in its class's track. -/
theorem endOf?_eq_some_iff {q : QueueClass} {i : Nat} {e : Nanos} :
    endOf? tracks q i = some e ↔ ∃ t, trackOf? tracks q = some t ∧ t.ends[i]? = some e := by
  simp [endOf?, Option.bind_eq_some_iff]

end Tracks

/-! ### One frame's passes -/

/-- A frame starts no earlier than its queue's clock, nor than the end of any waited pass that
has run. -/
theorem frameStart_ge (tracks : Array Track) (clock : Nanos) (f : Frame) :
    clock ≤ frameStart tracks clock f ∧
      ∀ w ∈ f.waits, ∀ e, endOf? tracks w.queue w.index = some e → e ≤ frameStart tracks clock f := by
  unfold frameStart
  generalize f.waits = ws
  induction ws generalizing clock with
  | nil => simp
  | cons w ws ih =>
    rw [List.foldl_cons]
    refine ⟨le_trans ?_ (ih _).1, fun w' hw' e he => ?_⟩
    · split
      · exact le_max_left _ _
      · exact le_rfl
    · rcases List.mem_cons.mp hw' with rfl | hw'
      · refine le_trans ?_ (ih _).1
        rw [he]
        exact le_max_right _ _
      · exact (ih _).2 w' hw' e he

/-- Setting the end time just past the recorded ones appends it. -/
theorem setEnd_length (ends : List Nanos) (t : Nanos) : setEnd ends ends.length t = ends ++ [t] := by
  simp [setEnd]

/-- `L` holds the end times of the passes `a, a + 1, ...` of a queue run one after the other from
`st`: each ends its cost after the one before it, the first its cost after `st`. -/
def RunFrom (passes : List BakedPass) (a : Nat) (st : Nanos) (L : List Nanos) : Prop :=
  ∀ i e, L[i]? = some e → ∃ p, passes[a + i]? = some p ∧ e = (st :: L).getD i 0 + passCost p

/-- Running passes `a, ..., a + n - 1` of a queue whose passes sit at their own indices appends
their end times to the recorded ones and leaves the clock at the last of them. -/
theorem runPasses_range {Q : BakedQueue} (hidx : ∀ i (hi : i < Q.passes.length), Q.passes[i].queueIndex = i)
    (j : Nat) (n : Nat) :
    ∀ (a : Nat) (st : Nanos) (E : List Nanos) (sim : Simulation), E.length = a →
      a + n ≤ Q.passes.length →
      ∃ L sim', runPasses Q j (List.range' a n) (st, E, sim) = .ok (L.getLast?.getD st, E ++ L, sim') ∧
        L.length = n ∧ RunFrom Q.passes a st L := by
  induction n with
  | zero =>
    intro a st E sim _ _
    exact ⟨[], sim, by simp [runPasses], rfl, fun i e h => by simp at h⟩
  | succ n ih =>
    intro a st E sim hE hle
    subst hE
    have ha : E.length < Q.passes.length := by omega
    obtain ⟨L, sim', hrun, hlen, hfrom⟩ := ih (E.length + 1) (st + passCost Q.passes[E.length])
      (E ++ [st + passCost Q.passes[E.length]])
      { sim with executed := sim.executed ++ [Q.passes[E.length].id],
                 timings := sim.timings ++ [(Q.passes[E.length].id, passCost Q.passes[E.length])] }
      (by simp) (by omega)
    refine ⟨(st + passCost Q.passes[E.length]) :: L, sim', ?_, by simp [hlen], ?_⟩
    · rw [List.range'_succ, runPasses, List.getElem?_eq_getElem ha]
      simp only [hidx _ ha, ite_true, setEnd_length, List.getLast?_cons, Option.getD_some]
      rw [hrun, List.append_assoc, List.singleton_append]
    · intro i e hi
      cases i with
      | zero =>
        simp only [List.getElem?_cons_zero, Option.some.injEq] at hi
        exact ⟨Q.passes[E.length], by simp [ha], by simp [hi]⟩
      | succ i =>
        obtain ⟨p, hp, he⟩ := hfrom i e (by simpa using hi)
        exact ⟨p, by rw [← hp]; congr 1; omega, by simpa using he⟩

/-! ### Graphs the simulation runs -/

section Entries

variable {G : BakedGraph} (hnd : (G.queues.map (·.queue)).Nodup) {Q : BakedQueue}
include hnd

/-- In a graph with one queue entry per class, a listed entry is the entry of its class. -/
theorem queue?_of_nodup (hQ : Q ∈ G.queues) : G.queue? Q.queue = some Q :=
  (find?_class_eq_some_iff hnd).mpr ⟨hQ, rfl⟩

theorem framesFor_of_nodup (hQ : Q ∈ G.queues) : G.framesFor Q.queue = Q.frames := by
  simp [framesFor, queue?_of_nodup hnd hQ]

theorem passesOf_of_nodup (hQ : Q ∈ G.queues) : G.passesOf Q.queue = Q.passes := by
  simp [passesOf, queue?_of_nodup hnd hQ]

/-- In a graph with one queue entry per class, a class has no entry and no frames, or it is the
class of an entry and has that entry's frames. -/
theorem framesFor_cases (q : QueueClass) :
    (G.queue? q = none ∧ G.framesFor q = []) ∨
      ∃ k, ∃ hk : k < G.queues.length, G.queues[k].queue = q ∧ G.framesFor q = G.queues[k].frames := by
  cases hq : G.queue? q with
  | none => exact .inl ⟨rfl, by simp [framesFor, hq]⟩
  | some Q =>
    obtain ⟨hQ, rfl⟩ := (find?_class_eq_some_iff hnd).mp hq
    obtain ⟨k, hk, rfl⟩ := List.getElem_of_mem hQ
    exact .inr ⟨k, hk, rfl, by simp [framesFor, hq]⟩

end Entries

/-- A graph the simulation can run: one queue entry per class, frames that tile each entry's
passes, and every pass at its own queue index. -/
structure Runnable (G : BakedGraph) : Prop where
  nodup : (G.queues.map (·.queue)).Nodup
  tiling : ∀ Q ∈ G.queues, Tiling Q.frames Q.passes.length
  queueIndex_eq : ∀ Q ∈ G.queues, ∀ i (hi : i < Q.passes.length), Q.passes[i].queueIndex = i

/-- Executions of the graph never get stuck with every queue idle while frames are left. -/
def NoDeadlock (G : BakedGraph) : Prop :=
  ∀ σ, ExecInv G σ → (∀ q, (σ.cursor.get q).running = false) →
    (∃ q, (σ.cursor.get q).frame < (G.framesFor q).length) → ∃ σ', Step G σ σ'

namespace Runnable

variable {G : BakedGraph} (hG : Runnable G) {Q : BakedQueue}
include hG

theorem framesFor_of_mem (hQ : Q ∈ G.queues) : G.framesFor Q.queue = Q.frames :=
  framesFor_of_nodup hG.nodup hQ

theorem passesOf_of_mem (hQ : Q ∈ G.queues) : G.passesOf Q.queue = Q.passes :=
  passesOf_of_nodup hG.nodup hQ

theorem framed : G.Framed := by
  intro q
  cases h : G.queue? q with
  | none =>
    simp only [framesFor, passesOf, h, Option.map_none, Option.getD_none, List.length_nil]
    exact ⟨fun k hk => by simp at hk, by simp, by simp, by simp⟩
  | some Q =>
    obtain ⟨hQ, rfl⟩ := (find?_class_eq_some_iff hG.nodup).mp h
    rw [hG.framesFor_of_mem hQ, hG.passesOf_of_mem hQ]
    exact hG.tiling Q hQ

end Runnable

/-! ### The invariant of the tracks -/

/-- Where the track of class `q` stands: the frames before its next one have run, its timeline
holds their end, it holds one end time per pass they ran, and its clock is the last of them. -/
structure TrackInv (G : BakedGraph) (q : QueueClass) (t : Track) : Prop where
  frame_le : t.nextFrame ≤ (G.framesFor q).length
  value_eq : t.value = passesBefore (G.framesFor q) t.nextFrame
  length_ends : t.ends.length = t.value
  clock_eq : t.ends.getLast?.getD 0 = t.clock

/-- The recorded end times: along a queue each pass ends at least its cost after the one before
it, and the first pass of a frame at least its cost after every pass the frame waits for. -/
structure Timed (G : BakedGraph) (tracks : Array Track) : Prop where
  chain : ∀ q i e e', endOf? tracks q i = some e → endOf? tracks q (i + 1) = some e' →
    ∃ p, (G.passesOf q)[i + 1]? = some p ∧ e + passCost p ≤ e'
  waited : ∀ q, ∀ f ∈ G.framesFor q, ∀ w ∈ f.waits, ∀ e', endOf? tracks q f.first = some e' →
    ∃ e p, endOf? tracks w.queue w.index = some e ∧ (G.passesOf q)[f.first]? = some p ∧
      e + passCost p ≤ e'

/-- The invariant of the tracks between frames: one track per queue entry, in order, each where
`TrackInv` says, with `Timed` end times. -/
structure SimInv (G : BakedGraph) (tracks : Array Track) : Prop extends Timed G tracks where
  classes : tracks.toList.map (·.queue) = G.queues.map (·.queue)
  track : ∀ q t, trackOf? tracks q = some t → TrackInv G q t

theorem mem_start {G : BakedGraph} {t : Track} (ht : t ∈ startTracks G) :
    ∃ Q ∈ G.queues, t = ⟨Q.queue, 0, 0, 0, []⟩ := by
  simpa [startTracks, eq_comm] using ht

theorem endOf?_start (G : BakedGraph) (q : QueueClass) (i : Nat) : endOf? (startTracks G) q i = none := by
  cases h : trackOf? (startTracks G) q with
  | none => simp [endOf?, h]
  | some t =>
    obtain ⟨Q, -, rfl⟩ := mem_start (mem_of_trackOf? h).1
    simp [endOf?, h]

/-- Before anything runs, every track is idle at its first frame with nothing recorded. -/
theorem SimInv.start (G : BakedGraph) : SimInv G (startTracks G) where
  classes := by simp [startTracks]
  track q t ht := by
    obtain ⟨Q, -, rfl⟩ := mem_start (mem_of_trackOf? ht).1
    exact ⟨Nat.zero_le _, by simp, rfl, rfl⟩
  chain q i e e' he := by simp [endOf?_start] at he
  waited q f hf w hw e' he := by simp [endOf?_start] at he

/-- A frame is ready when each of its waits finds a track of its class whose timeline has passed
the waited pass. -/
theorem ready_eq_true_iff {tracks : Array Track} {f : Frame} :
    ready tracks f = true ↔
      ∀ w ∈ f.waits, ∃ t, trackOf? tracks w.queue = some t ∧ w.index + 1 ≤ t.value := by
  unfold ready
  rw [List.all_eq_true]
  refine forall₂_congr fun w _ => ?_
  split
  · rename_i t ht
    simp [ht, SyncEntry.timelineValue]
  · rename_i ht
    simp [ht]

/-! ### Running one frame -/

section Advance

variable {G : BakedGraph} {tracks : Array Track}

theorem SimInv.nodup (h : SimInv G tracks) (hG : Runnable G) : (tracks.toList.map (·.queue)).Nodup :=
  h.classes ▸ hG.nodup

theorem SimInv.size_eq (h : SimInv G tracks) : tracks.size = G.queues.length := by
  simpa using congrArg List.length h.classes

/-- With one track per queue entry, in order, and one entry per class, the track of entry `k`
is the track of the entry's class. -/
theorem trackOf?_getD_of_classes (hcl : tracks.toList.map (·.queue) = G.queues.map (·.queue))
    (hnd : (G.queues.map (·.queue)).Nodup) {k : Nat} (hk : k < G.queues.length) :
    trackOf? tracks G.queues[k].queue = some (tracks.getD k default) := by
  have hk' : k < tracks.size := by
    have hlen := congrArg List.length hcl
    simp only [List.length_map, Array.length_toList] at hlen
    omega
  have hq : tracks[k].queue = G.queues[k].queue := by
    have := congrArg (·[k]?) hcl
    simpa [hk, hk'] using this
  rw [Array.getD_eq_getD_getElem?, Array.getElem?_eq_getElem hk', Option.getD_some,
    trackOf?_eq_some_iff (hcl ▸ hnd)]
  exact ⟨Array.getElem_mem hk', hq⟩

/-- The track of entry `k` is the track of the entry's class. -/
theorem SimInv.trackOf?_getD (h : SimInv G tracks) (hG : Runnable G) {k : Nat}
    (hk : k < G.queues.length) : trackOf? tracks G.queues[k].queue = some (tracks.getD k default) :=
  trackOf?_getD_of_classes h.classes hG.nodup hk

/-- An end time is recorded exactly for the passes its track has run. -/
theorem SimInv.endOf?_isSome (h : SimInv G tracks) {q : QueueClass} {t : Track}
    (ht : trackOf? tracks q = some t) {i : Nat} : (endOf? tracks q i).isSome ↔ i < t.value := by
  simp [endOf?, ht, ← (h.track q t ht).length_ends]

variable {q₀ : QueueClass} {t : Track} {f : Frame} {L : List Nanos}

/-- The next frame of a track starts at the first pass it has not run. -/
theorem TrackInv.first_eq (ht : TrackInv G q₀ t) (htile : Tiling (G.framesFor q₀) (G.passesOf q₀).length)
    (hf : (G.framesFor q₀)[t.nextFrame]? = some f) : f.first = t.ends.length := by
  obtain ⟨hj, hfj⟩ := List.getElem?_eq_some_iff.mp hf
  rw [← hfj, htile.consecutive _ hj, ht.length_ends, ht.value_eq]

/-- Each frame of a tiling ends within the passes it tiles. -/
theorem tiling_end_le {frames : List Frame} {n j : Nat} (htile : Tiling frames n)
    (hf : frames[j]? = some f) : f.first + f.len ≤ n := by
  obtain ⟨hj, hfj⟩ := List.getElem?_eq_some_iff.mp hf
  rw [← hfj, htile.end_eq hj, ← htile.sum_len, ← passesBefore_length]
  exact passesBefore_mono _ hj

/-- The track of a class that ran its next frame `f`, the frame's passes ending at `L`, stands
after `f`. -/
theorem TrackInv.advance (ht : TrackInv G q₀ t) (htile : Tiling (G.framesFor q₀) (G.passesOf q₀).length)
    (hf : (G.framesFor q₀)[t.nextFrame]? = some f) (hlen : L.length = f.len) (st : Nanos) :
    TrackInv G q₀ { t with
      ends := t.ends ++ L
      clock := L.getLast?.getD st
      value := f.signal
      nextFrame := t.nextFrame + 1 } := by
  obtain ⟨hj, hfj⟩ := List.getElem?_eq_some_iff.mp hf
  have hsignal : f.signal = passesBefore (G.framesFor q₀) (t.nextFrame + 1) := by
    rw [htile.signal_eq f (List.mem_of_getElem? hf), ← hfj, htile.end_eq hj]
  have hpos : L ≠ [] := List.ne_nil_of_length_pos (hlen ▸ htile.len_pos f (List.mem_of_getElem? hf))
  refine ⟨hj, hsignal, ?_, ?_⟩
  · -- the frame's passes come right after the ones already run
    rw [List.length_append, hlen, ht.length_ends, ht.value_eq, ← hfj, ← htile.consecutive _ hj,
      htile.signal_eq _ (List.getElem_mem hj)]
  · obtain ⟨x, hx⟩ := Option.isSome_iff_exists.mp (List.getLast?_isSome.mpr hpos)
    simp [List.getLast?_append_of_ne_nil _ hpos, hx]

variable {tracks' : Array Track}

/-- When a frame of class `q₀` appends `L` to the class's end times, every end time recorded
before stays. -/
theorem endOf?_of_advance (htrack : trackOf? tracks q₀ = some t)
    (hend : ∀ q i, endOf? tracks' q i = if q₀ = q then (t.ends ++ L)[i]? else endOf? tracks q i)
    {q : QueueClass} {i : Nat} {e : Nanos} (he : endOf? tracks q i = some e) :
    endOf? tracks' q i = some e := by
  rw [hend]
  split
  · rename_i hq
    subst hq
    obtain ⟨t', ht', he⟩ := endOf?_eq_some_iff.mp he
    rw [htrack, Option.some.injEq] at ht'
    subst ht'
    rw [List.getElem?_append_left (List.getElem?_eq_some_iff.mp he).1]
    exact he
  · exact he

/-- Running frame `f` of class `q₀`, its passes ending at `L`, keeps each pass ending at least
its cost after the one before it: inside the frame each follows the one before, and the first
follows the queue's clock, the end of the last pass before the frame. -/
theorem SimInv.chain_advance (h : SimInv G tracks) (htrack : trackOf? tracks q₀ = some t)
    (htile : Tiling (G.framesFor q₀) (G.passesOf q₀).length)
    (hf : (G.framesFor q₀)[t.nextFrame]? = some f)
    (hfrom : RunFrom (G.passesOf q₀) f.first (frameStart tracks t.clock f) L)
    (hend : ∀ q i, endOf? tracks' q i = if q₀ = q then (t.ends ++ L)[i]? else endOf? tracks q i)
    (q : QueueClass) (i : Nat) (e e' : Nanos) (he : endOf? tracks' q i = some e)
    (he' : endOf? tracks' q (i + 1) = some e') :
    ∃ p, (G.passesOf q)[i + 1]? = some p ∧ e + passCost p ≤ e' := by
  have ht := h.track q₀ t htrack
  have hfirst := ht.first_eq htile hf
  rw [hend] at he he'
  split at he
  · rename_i hq
    subst hq
    rw [if_pos rfl] at he'
    rcases Nat.lt_or_ge (i + 1) t.ends.length with hlt | hge
    · rw [List.getElem?_append_left (by omega)] at he
      rw [List.getElem?_append_left hlt] at he'
      exact h.chain q₀ i e e' (endOf?_eq_some_iff.mpr ⟨t, htrack, he⟩)
        (endOf?_eq_some_iff.mpr ⟨t, htrack, he'⟩)
    rcases Nat.lt_or_ge i t.ends.length with hi | hi
    · have hlast : i + 1 = t.ends.length := by omega
      rw [List.getElem?_append_left hi] at he
      rw [List.getElem?_append_right (by omega), ← hlast, Nat.sub_self] at he'
      obtain ⟨p, hp, he'⟩ := hfrom 0 e' he'
      have hclock : e = t.clock := by
        rw [← ht.clock_eq, List.getLast?_eq_getElem?, ← hlast, Nat.add_sub_cancel, he]
        rfl
      refine ⟨p, by rw [← hp, hfirst, ← hlast], ?_⟩
      rw [he', hclock, List.getD_cons_zero]
      exact Nat.add_le_add_right (frameStart_ge tracks t.clock f).1 _
    · rw [List.getElem?_append_right hi] at he
      rw [List.getElem?_append_right (by omega),
        show i + 1 - t.ends.length = i - t.ends.length + 1 by omega] at he'
      obtain ⟨p, hp, he'⟩ := hfrom _ e' he'
      refine ⟨p, by rw [← hp, hfirst]; congr 1; omega, ?_⟩
      rw [List.getD_cons_succ, List.getD_eq_getElem?_getD, he, Option.getD_some] at he'
      exact he'.ge
  · rename_i hq
    rw [if_neg hq] at he'
    exact h.chain q i e e' he he'

/-- Running frame `f` of class `q₀`, once it is ready, keeps each frame's first pass ending at
least its cost after every pass the frame waits for: `f` started no earlier than the end of each
waited pass, which had run since `f` was ready. -/
theorem SimInv.waited_advance (h : SimInv G tracks) (htrack : trackOf? tracks q₀ = some t)
    (htile : Tiling (G.framesFor q₀) (G.passesOf q₀).length)
    (hf : (G.framesFor q₀)[t.nextFrame]? = some f) (hready : ready tracks f = true)
    (hlen : L.length = f.len) (hfrom : RunFrom (G.passesOf q₀) f.first (frameStart tracks t.clock f) L)
    (hend : ∀ q i, endOf? tracks' q i = if q₀ = q then (t.ends ++ L)[i]? else endOf? tracks q i)
    (q : QueueClass) (f' : Frame) (hf' : f' ∈ G.framesFor q) (w : SyncEntry) (hw : w ∈ f'.waits)
    (e' : Nanos) (he' : endOf? tracks' q f'.first = some e') :
    ∃ e p, endOf? tracks' w.queue w.index = some e ∧ (G.passesOf q)[f'.first]? = some p ∧
      e + passCost p ≤ e' := by
  have ht := h.track q₀ t htrack
  obtain ⟨hj, hfj⟩ := List.getElem?_eq_some_iff.mp hf
  have hfirst := ht.first_eq htile hf
  have hkeep : ∀ {q i e}, endOf? tracks q i = some e → endOf? tracks' q i = some e :=
    endOf?_of_advance htrack hend
  rw [hend] at he'
  split at he'
  · rename_i hq
    subst hq
    rcases Nat.lt_or_ge f'.first t.ends.length with hlt | hge
    · rw [List.getElem?_append_left hlt] at he'
      obtain ⟨e, p, hwe, hp, hle⟩ :=
        h.waited q₀ f' hf' w hw e' (endOf?_eq_some_iff.mpr ⟨t, htrack, he'⟩)
      exact ⟨e, p, hkeep hwe, hp, hle⟩
    -- a frame whose first pass is recorded only now is the frame just run
    have hlt : f'.first < t.ends.length + f.len := by
      simpa [hlen] using (List.getElem?_eq_some_iff.mp he').1
    have hff : f' = f := by
      rw [← hfj]
      refine htile.eq_of_first_mem hj hf' ?_ ?_
      · rw [← ht.value_eq, ← ht.length_ends]
        exact hge
      · rw [← htile.end_eq hj, hfj, hfirst]
        exact hlt
    subst hff
    rw [List.getElem?_append_right hge, hfirst, Nat.sub_self] at he'
    obtain ⟨p, hp, he'⟩ := hfrom 0 e' he'
    obtain ⟨tw, htw, hidx⟩ := ready_eq_true_iff.mp hready w hw
    obtain ⟨e, hwe⟩ := Option.isSome_iff_exists.mp ((h.endOf?_isSome htw).mpr hidx)
    refine ⟨e, p, hkeep hwe, by simpa using hp, ?_⟩
    rw [he', List.getD_cons_zero]
    exact Nat.add_le_add_right ((frameStart_ge tracks t.clock _).2 w hw e hwe) _
  · obtain ⟨e, p, hwe, hp, hle⟩ := h.waited q f' hf' w hw e' he'
    exact ⟨e, p, hkeep hwe, hp, hle⟩

/-- Running frame `f` of class `q₀`, its passes ending at `L`, keeps the recorded times `Timed`,
given how the end times change: those of `q₀` grow by `L`, the others stay. -/
theorem SimInv.timed_advance (h : SimInv G tracks) (htrack : trackOf? tracks q₀ = some t)
    (htile : Tiling (G.framesFor q₀) (G.passesOf q₀).length)
    (hf : (G.framesFor q₀)[t.nextFrame]? = some f) (hready : ready tracks f = true)
    (hlen : L.length = f.len) (hfrom : RunFrom (G.passesOf q₀) f.first (frameStart tracks t.clock f) L)
    (hend : ∀ q i, endOf? tracks' q i = if q₀ = q then (t.ends ++ L)[i]? else endOf? tracks q i) :
    Timed G tracks' :=
  ⟨h.chain_advance htrack htile hf hfrom hend, h.waited_advance htrack htile hf hready hlen hfrom hend⟩

/-- When entry `k` of a graph with one entry per class takes a new track of its class, that class
reads its end times from the new track and every other class as before. -/
theorem SimInv.endOf?_replace (h : SimInv G tracks) (hG : Runnable G) {k : Nat} (hk : k < G.queues.length)
    (t' : Track) (ht' : t'.queue = G.queues[k].queue) (q : QueueClass) (i : Nat) :
    endOf? (tracks.set! k t') q i = if G.queues[k].queue = q then t'.ends[i]? else endOf? tracks q i := by
  have hk' : k < tracks.size := h.size_eq ▸ hk
  have hgetk : tracks[k] = tracks.getD k default := by
    rw [Array.getD_eq_getD_getElem?, Array.getElem?_eq_getElem hk', Option.getD_some]
  have hkq : tracks[k].queue = G.queues[k].queue := hgetk ▸ (mem_of_trackOf? (h.trackOf?_getD hG hk)).2
  rw [endOf?_set! (h.nodup hG) hk' (ht'.trans hkq.symm) q i, hkq]

/-- The next frame `f` of entry `k` is the frame of its class at the track's cursor: it starts
where the track's end times stop, ends within the entry's passes, and runs the queue indices from
its first on. -/
theorem SimInv.nextFrame_span (h : SimInv G tracks) (hG : Runnable G) {k : Nat}
    (hk : k < G.queues.length) (hf : G.queues[k].frames[(tracks.getD k default).nextFrame]? = some f) :
    (G.framesFor G.queues[k].queue)[(tracks.getD k default).nextFrame]? = some f ∧
      f.first = (tracks.getD k default).ends.length ∧ f.first + f.len ≤ G.queues[k].passes.length ∧
      frameIndices G.queues[k] f = List.range' f.first f.len := by
  have hQ : G.queues[k] ∈ G.queues := List.getElem_mem hk
  have hti := h.track _ _ (h.trackOf?_getD hG hk)
  have htile := hG.framed G.queues[k].queue
  have hf' : (G.framesFor G.queues[k].queue)[(tracks.getD k default).nextFrame]? = some f := by
    rw [hG.framesFor_of_mem hQ]
    exact hf
  have hend := tiling_end_le htile hf'
  rw [hG.passesOf_of_mem hQ] at hend
  refine ⟨hf', hti.first_eq htile hf', hend, ?_⟩
  unfold frameIndices
  rw [Nat.min_eq_left (by omega)]

/-- Entry `k` running its next frame `f`, once `f` is ready, succeeds and keeps the invariant. -/
theorem SimInv.runFrame (h : SimInv G tracks) (hG : Runnable G) {k : Nat} (hk : k < G.queues.length)
    (hf : G.queues[k].frames[(tracks.getD k default).nextFrame]? = some f)
    (hready : ready tracks f = true) (sim : Simulation) :
    ∃ clock ends sim', runPasses G.queues[k] (tracks.getD k default).nextFrame
        (frameIndices G.queues[k] f)
        (frameStart tracks (tracks.getD k default).clock f, (tracks.getD k default).ends, sim) =
        .ok (clock, ends, sim') ∧
      SimInv G (tracks.set! k ⟨(tracks.getD k default).queue, f.signal,
        (tracks.getD k default).nextFrame + 1, clock, ends⟩) := by
  have hQ : G.queues[k] ∈ G.queues := List.getElem_mem hk
  have htrack := h.trackOf?_getD hG hk
  have hti := h.track _ _ htrack
  have htile := hG.framed G.queues[k].queue
  have hpasses := hG.passesOf_of_mem hQ
  obtain ⟨hf', hfirst, hend, hidx⟩ := h.nextFrame_span hG hk hf
  obtain ⟨L, sim', hrun, hlen, hfrom⟩ := runPasses_range (hG.queueIndex_eq _ hQ)
    (tracks.getD k default).nextFrame f.len f.first
    (frameStart tracks (tracks.getD k default).clock f) (tracks.getD k default).ends sim hfirst.symm hend
  refine ⟨_, _, sim', by rw [hidx]; exact hrun, ?_⟩
  have hk' : k < tracks.size := h.size_eq ▸ hk
  have hgetk : tracks[k] = tracks.getD k default := by
    rw [Array.getD_eq_getD_getElem?, Array.getElem?_eq_getElem hk', Option.getD_some]
  have hkq : tracks[k].queue = G.queues[k].queue := hgetk ▸ (mem_of_trackOf? htrack).2
  have hq' : ({ tracks.getD k default with
      ends := (tracks.getD k default).ends ++ L
      clock := L.getLast?.getD (frameStart tracks (tracks.getD k default).clock f)
      value := f.signal
      nextFrame := (tracks.getD k default).nextFrame + 1 } : Track).queue = tracks[k].queue := by
    rw [hgetk]
  have hnd := h.nodup hG
  refine { toTimed := ?_, classes := (classes_set! hk' hq').trans h.classes, track := ?_ }
  · refine h.timed_advance htrack htile hf' hready hlen (hpasses ▸ hfrom) fun q i => ?_
    rw [endOf?_set! hnd hk' hq', hkq]
  · intro q t' ht'
    rw [trackOf?_set! hnd hk' hq'] at ht'
    by_cases hq : tracks[k].queue = q
    · rw [if_pos hq, Option.some.injEq] at ht'
      rw [← ht', ← hq, hkq]
      exact hti.advance htile hf' hlen _
    · rw [if_neg hq] at ht'
      exact h.track q t' ht'

end Advance

/-! ### One turn -/

open Logged

variable {G : BakedGraph}

/-- What the turn of entry `k` in round `r` did to give round `r'`: nothing when the entry has no
frame left; it marked the round unfinished when the next frame was not ready; otherwise it ran
that frame, moving the entry's track one frame on, and `P` holds of the round it gave. -/
def TurnOutcome (G : BakedGraph) (r : Round) {k : Nat} (hk : k < G.queues.length) (P : Round → Prop)
    (r' : Round) : Prop :=
  (G.queues[k].frames[(r.tracks.getD k default).nextFrame]? = none ∧ r' = r) ∨
  (∃ f, G.queues[k].frames[(r.tracks.getD k default).nextFrame]? = some f ∧
    ready r.tracks f = false ∧ r' = { r with finished := false }) ∨
  (∃ f, G.queues[k].frames[(r.tracks.getD k default).nextFrame]? = some f ∧
    ready r.tracks f = true ∧ r'.finished = false ∧ r'.progressed = true ∧ P r' ∧
    ∃ t', r'.tracks = r.tracks.set! k t' ∧ t'.nextFrame = (r.tracks.getD k default).nextFrame + 1)

/-- The turn of entry `k` succeeds whenever running its next frame, once ready, does, and it does
what `TurnOutcome` says, with `P` what running the frame is known to give. -/
theorem turn_cases {r : Round} {k : Nat} (hk : k < G.queues.length) {P : Round → Prop}
    (hrun : ∀ f, G.queues[k].frames[(r.tracks.getD k default).nextFrame]? = some f →
      ready r.tracks f = true → ∃ clock ends sim',
        runPasses G.queues[k] (r.tracks.getD k default).nextFrame (frameIndices G.queues[k] f)
          (frameStart r.tracks (r.tracks.getD k default).clock f, (r.tracks.getD k default).ends,
            r.sim) = .ok (clock, ends, sim') ∧
        P ⟨r.tracks.set! k ⟨(r.tracks.getD k default).queue, f.signal,
          (r.tracks.getD k default).nextFrame + 1, clock, ends⟩, sim', true, false⟩) :
    Succeeds (turn G r k) (TurnOutcome G r hk P) := by
  unfold Simulation.turn
  rw [List.getElem?_eq_getElem hk]
  dsimp only
  cases hf : G.queues[k].frames[(r.tracks.getD k default).nextFrame]? with
  | none => exact Succeeds.pure (.inl ⟨hf, rfl⟩)
  | some f =>
    dsimp only
    cases hr : ready r.tracks f with
    | false =>
      simp only [Bool.not_false, ↓reduceIte]
      exact Succeeds.pure (Or.inr (Or.inl ⟨f, hf, hr, rfl⟩))
    | true =>
      obtain ⟨clock, ends, sim', hrun, hP⟩ := hrun f hf hr
      simp only [Bool.not_true, Bool.false_eq_true, ↓reduceIte]
      rw [hrun]
      refine Succeeds.bind (Q := (· = (clock, ends, sim'))) (fun _ => ⟨_, rfl, rfl⟩) ?_
      rintro _ rfl
      exact Succeeds.log_bind (Succeeds.pure (Or.inr (Or.inr ⟨f, hf, hr, rfl, rfl, hP, _, rfl, rfl⟩)))

/-- What holds of the tracks and results before a turn holds after it, when it holds of the round
that running the frame gives. -/
theorem TurnOutcome.inv {r r' : Round} {k : Nat} {hk : k < G.queues.length}
    {I : Array Track → Simulation → Prop} (hout : TurnOutcome G r hk (fun r => I r.tracks r.sim) r')
    (hI : I r.tracks r.sim) : I r'.tracks r'.sim := by
  rcases hout with ⟨-, rfl⟩ | ⟨f, -, -, rfl⟩ | ⟨f, -, -, -, -, hP, -⟩
  · exact hI
  · exact hI
  · exact hP

/-- The turn of entry `k` keeps the invariant of the tracks. -/
theorem SimInv.turn {r : Round} (h : SimInv G r.tracks) (hG : Runnable G) {k : Nat}
    (hk : k < G.queues.length) :
    Succeeds (turn G r k) (TurnOutcome G r hk fun r' => SimInv G r'.tracks) :=
  turn_cases hk fun _ hf hready => h.runFrame hG hk hf hready r.sim

/-! ### One round -/

/-- Every entry has run all its frames. -/
def AllRun (G : BakedGraph) (tracks : Array Track) : Prop :=
  ∀ k (hk : k < G.queues.length), G.queues[k].frames.length ≤ (tracks.getD k default).nextFrame

/-- What a round from tracks `tracks₀` has done after the turns of entries `0, ..., i - 1`,
whatever the tracks keep. -/
structure RoundFacts (G : BakedGraph) (tracks₀ : Array Track) (i : Nat) (r : Round) : Prop where
  size : r.tracks.size = G.queues.length
  /-- An entry keeps its track until its turn. -/
  later : ∀ k, i ≤ k → r.tracks.getD k default = tracks₀.getD k default
  /-- No track moves back. -/
  mono : ∀ k, (tracks₀.getD k default).nextFrame ≤ (r.tracks.getD k default).nextFrame
  /-- A round that progressed moved a track. -/
  moved : r.progressed = true →
    ∃ k < G.queues.length, (tracks₀.getD k default).nextFrame < (r.tracks.getD k default).nextFrame
  /-- A round that has not progressed changed nothing and found no next frame ready so far. -/
  stuck : r.progressed = false → r.tracks = tracks₀ ∧ ∀ k (hk : k < G.queues.length), k < i →
    ∀ f, G.queues[k].frames[(tracks₀.getD k default).nextFrame]? = some f → ready tracks₀ f = false
  /-- A round still finished has found every entry so far done. -/
  done : r.finished = true → ∀ k (hk : k < G.queues.length), k < i →
    G.queues[k].frames.length ≤ (r.tracks.getD k default).nextFrame
  /-- A round no longer finished has found an entry with frames left. -/
  left : r.finished = false → ∃ k, ∃ hk : k < G.queues.length, k < i ∧
    (tracks₀.getD k default).nextFrame < G.queues[k].frames.length

/-- What holds of a round from tracks `tracks₀` after the turns of entries `0, ..., i - 1`. -/
structure RoundInv (G : BakedGraph) (tracks₀ : Array Track) (i : Nat) (r : Round) : Prop where
  inv : SimInv G r.tracks
  /-- An entry keeps its track until its turn. -/
  later : ∀ k, i ≤ k → r.tracks.getD k default = tracks₀.getD k default
  /-- No track moves back. -/
  mono : ∀ k, (tracks₀.getD k default).nextFrame ≤ (r.tracks.getD k default).nextFrame
  /-- A round that progressed moved a track. -/
  moved : r.progressed = true →
    ∃ k < G.queues.length, (tracks₀.getD k default).nextFrame < (r.tracks.getD k default).nextFrame
  /-- A round that has not progressed changed nothing and found no next frame ready so far. -/
  stuck : r.progressed = false → r.tracks = tracks₀ ∧ ∀ k (hk : k < G.queues.length), k < i →
    ∀ f, G.queues[k].frames[(tracks₀.getD k default).nextFrame]? = some f → ready tracks₀ f = false
  /-- A round still finished has found every entry so far done. -/
  done : r.finished = true → ∀ k (hk : k < G.queues.length), k < i →
    G.queues[k].frames.length ≤ (r.tracks.getD k default).nextFrame
  /-- A round no longer finished has found an entry with frames left. -/
  left : r.finished = false → ∃ k, ∃ hk : k < G.queues.length, k < i ∧
    (tracks₀.getD k default).nextFrame < G.queues[k].frames.length

variable {tracks₀ : Array Track}

theorem RoundFacts.start (hsize : tracks₀.size = G.queues.length) (sim : Simulation) :
    RoundFacts G tracks₀ 0 ⟨tracks₀, sim, false, true⟩ where
  size := hsize
  later _ _ := rfl
  mono _ := le_rfl
  moved h := by cases h
  stuck _ := ⟨rfl, fun _ _ h => absurd h (Nat.not_lt_zero _)⟩
  done _ _ _ h := absurd h (Nat.not_lt_zero _)
  left h := by cases h

/-- The turn of entry `i` takes what a round has done past `i`. -/
theorem RoundFacts.turn {i : Nat} {r r' : Round} (hr : RoundFacts G tracks₀ i r)
    (hi : i < G.queues.length) {P : Round → Prop} (hout : TurnOutcome G r hi P r') :
    RoundFacts G tracks₀ (i + 1) r' := by
  have hown := hr.later i le_rfl
  rcases hout with ⟨hnone, rfl⟩ | ⟨f, hf, hready, rfl⟩ |
    ⟨f, hf, hready, hfin, hprog, -, t', htr, hnext⟩
  · -- no frame left: nothing changes
    rw [hown] at hnone
    refine ⟨hr.size, fun k hk => hr.later k (by omega), hr.mono, hr.moved, fun hp => ?_,
      fun hd k hk hki => ?_, fun hd => ?_⟩
    · obtain ⟨heq, hstuck⟩ := hr.stuck hp
      refine ⟨heq, fun k hk hki f hf => ?_⟩
      rcases Nat.lt_succ_iff_lt_or_eq.mp hki with hki | rfl
      · exact hstuck k hk hki f hf
      · rw [hnone] at hf
        cases hf
    · rcases Nat.lt_succ_iff_lt_or_eq.mp hki with hki | rfl
      · exact hr.done hd k hk hki
      · rw [hown]
        exact List.getElem?_eq_none_iff.mp hnone
    · obtain ⟨k, hk, hki, hkl⟩ := hr.left hd
      exact ⟨k, hk, by omega, hkl⟩
  · -- the next frame waits: the round is no longer finished
    rw [hown] at hf
    refine ⟨hr.size, fun k hk => hr.later k (by omega), hr.mono, hr.moved, fun hp => ?_,
      fun hd => ?_, fun _ => ⟨i, hi, Nat.lt_succ_self i, (List.getElem?_eq_some_iff.mp hf).1⟩⟩
    · obtain ⟨heq, hstuck⟩ := hr.stuck hp
      refine ⟨heq, fun k hk hki f' hf' => ?_⟩
      rcases Nat.lt_succ_iff_lt_or_eq.mp hki with hki | rfl
      · exact hstuck k hk hki f' hf'
      · rw [hf, Option.some.injEq] at hf'
        rw [← hf', ← heq]
        exact hready
    · cases hd
  · -- the frame ran: only entry `i` moved, one frame on
    have hk' : i < r.tracks.size := hr.size ▸ hi
    have hget : ∀ k, r'.tracks.getD k default = if k = i then t' else r.tracks.getD k default := by
      intro k
      rw [htr, Array.getD_set! _ hk']
    refine ⟨by rw [htr, Array.size_set!]; exact hr.size, fun k hk => ?_, fun k => ?_,
      fun _ => ⟨i, hi, ?_⟩, fun hp => ?_, fun hd => ?_, fun _ => ⟨i, hi, Nat.lt_succ_self i, ?_⟩⟩
    · rw [hget, if_neg (by omega)]
      exact hr.later k (by omega)
    · rw [hget]
      split
      · rename_i hki
        subst hki
        rw [hnext, hown]
        exact Nat.le_succ _
      · exact hr.mono k
    · rw [hget, if_pos rfl, hnext, hown]
      exact Nat.lt_succ_self _
    · rw [hprog] at hp
      cases hp
    · rw [hfin] at hd
      cases hd
    · rw [← hown]
      exact (List.getElem?_eq_some_iff.mp hf).1

theorem RoundInv.start (h : SimInv G tracks₀) (sim : Simulation) :
    RoundInv G tracks₀ 0 ⟨tracks₀, sim, false, true⟩ where
  inv := h
  later _ _ := rfl
  mono _ := le_rfl
  moved h := by cases h
  stuck _ := ⟨rfl, fun _ _ h => absurd h (Nat.not_lt_zero _)⟩
  done _ _ _ h := absurd h (Nat.not_lt_zero _)
  left h := by cases h

/-- The turn of entry `i` takes the round invariant past `i`. -/
theorem RoundInv.turn (hG : Runnable G) {i : Nat} {r : Round} (hr : RoundInv G tracks₀ i r)
    (hi : i < G.queues.length) : Succeeds (turn G r i) (RoundInv G tracks₀ (i + 1)) := by
  refine (hr.inv.turn hG hi).imp fun r' hout => ?_
  have hfacts : RoundFacts G tracks₀ (i + 1) r' :=
    RoundFacts.turn ⟨hr.inv.size_eq, hr.later, hr.mono, hr.moved, hr.stuck, hr.done, hr.left⟩ hi hout
  exact ⟨TurnOutcome.inv (I := fun tracks _ => SimInv G tracks) hout hr.inv, hfacts.later,
    hfacts.mono, hfacts.moved, hfacts.stuck, hfacts.done, hfacts.left⟩

/-- A whole round keeps the invariant, with `RoundInv` for every entry at its end. -/
theorem SimInv.round (h : SimInv G tracks₀) (hG : Runnable G) (sim : Simulation) :
    Succeeds ((List.range G.queues.length).foldlM (Simulation.turn G) ⟨tracks₀, sim, false, true⟩)
      (RoundInv G tracks₀ G.queues.length) :=
  Succeeds.foldlM_range (RoundInv.start h sim) fun _ _ hi hr => hr.turn hG hi

/-! ### Between rounds -/

/-- The execution state the tracks stand for between rounds: each queue idle at its track's next
frame with its timeline at the track's value, and a class without a track at its start. -/
def idle (tracks : Array Track) : ExecState :=
  ⟨.ofFn fun q => ⟨((trackOf? tracks q).map (·.nextFrame)).getD 0, 0, false⟩,
    .ofFn fun q => ((trackOf? tracks q).map (·.value)).getD 0⟩

@[simp] theorem idle_cursor (tracks : Array Track) (q : QueueClass) :
    (idle tracks).cursor.get q = ⟨((trackOf? tracks q).map (·.nextFrame)).getD 0, 0, false⟩ :=
  PerQueue.get_ofFn _ q

@[simp] theorem idle_timeline (tracks : Array Track) (q : QueueClass) :
    (idle tracks).timeline.get q = ((trackOf? tracks q).map (·.value)).getD 0 :=
  PerQueue.get_ofFn _ q

/-- Between rounds the tracks stand for a state of an execution: it satisfies `ExecInv`. -/
theorem SimInv.execInv (h : SimInv G tracks₀) (hG : Runnable G) : ExecInv G (idle tracks₀) where
  frame_le q := by
    cases ht : trackOf? tracks₀ q with
    | none => simp [ht]
    | some t => simpa [ht] using (h.track q t ht).frame_le
  past_last q _ := by simp
  pos_lt q f hf := by simpa using (hG.framed q).len_pos f (List.mem_of_getElem? hf)
  timeline_eq q := by
    cases ht : trackOf? tracks₀ q with
    | none => simp [ht]
    | some t => simpa [ht] using (h.track q t ht).value_eq
  waits_done q f hf hstart w hw := by
    cases ht : trackOf? tracks₀ q with
    | none => simp [ExecState.Started, ExecState.next, ht] at hstart
    | some t =>
      -- a frame whose first pass has run ran, so what it waits for has run too
      have hlt : f.first < t.value := by
        simpa [ExecState.Started, ExecState.next, ht, ← (h.track q t ht).value_eq] using hstart
      obtain ⟨e', he'⟩ := Option.isSome_iff_exists.mp ((h.endOf?_isSome ht).mpr hlt)
      obtain ⟨e, p, hwe, -, -⟩ := h.waited q f hf w hw e' he'
      obtain ⟨tw, htw, -⟩ := endOf?_eq_some_iff.mp hwe
      have hrun := (h.endOf?_isSome htw).mp (by rw [hwe]; rfl)
      simpa [ExecState.Finished, ExecState.next, htw, ← (h.track _ tw htw).value_eq] using hrun

/-- Between rounds, while an entry has frames left, some entry's next frame is ready. -/
theorem SimInv.exists_ready (h : SimInv G tracks₀) (hG : Runnable G) (hdl : NoDeadlock G)
    {k : Nat} (hk : k < G.queues.length)
    (hleft : (tracks₀.getD k default).nextFrame < G.queues[k].frames.length) :
    ∃ k', ∃ hk' : k' < G.queues.length, ∃ f,
      G.queues[k'].frames[(tracks₀.getD k' default).nextFrame]? = some f ∧ ready tracks₀ f = true := by
  have hidle : ∀ q, ((idle tracks₀).cursor.get q).running = false := by simp
  have hframes : ∃ q, ((idle tracks₀).cursor.get q).frame < (G.framesFor q).length :=
    ⟨G.queues[k].queue, by
      rw [idle_cursor, h.trackOf?_getD hG hk, hG.framesFor_of_mem (List.getElem_mem hk)]
      exact hleft⟩
  obtain ⟨σ', hstep⟩ := hdl (idle tracks₀) (h.execInv hG) hidle hframes
  cases hstep with
  | @start q c f hc _ current ready =>
    -- an execution can start the next frame of class `q`, so `q` has an entry
    cases hq : G.queue? q with
    | none => simp [framesFor, hq] at current
    | some Q =>
      obtain ⟨hQ, rfl⟩ := (find?_class_eq_some_iff hG.nodup).mp hq
      obtain ⟨k', hk', rfl⟩ := List.getElem_of_mem hQ
      have htrack := h.trackOf?_getD hG hk'
      rw [idle_cursor, htrack] at hc
      subst hc
      refine ⟨k', hk', f, by simpa [hG.framesFor_of_mem hQ] using current, ?_⟩
      refine ready_eq_true_iff.mpr fun w hw => ?_
      have hw := ready rfl w hw
      cases htw : trackOf? tracks₀ w.queue with
      | none => simp [htw, SyncEntry.timelineValue] at hw
      | some tw => exact ⟨tw, rfl, by simpa [htw, SyncEntry.timelineValue] using hw⟩
  | finishPass hc busy => simp [← hc] at busy
  | finishFrame hc busy => simp [← hc] at busy

/-! ### All rounds -/

/-- The frames the tracks have still to run. -/
def framesLeft (G : BakedGraph) (tracks : Array Track) : Nat :=
  ∑ k : Fin G.queues.length, ((G.queues.get k).frames.length - (tracks.getD k default).nextFrame)

theorem framesLeft_start (G : BakedGraph) :
    framesLeft G (startTracks G) = total (G.queues.map (·.frames.length)) := by
  have h0 : ∀ k : Fin G.queues.length, ((startTracks G).getD k default).nextFrame = 0 := by
    intro k
    simp [startTracks, Array.getD_eq_getD_getElem?]
  simp only [framesLeft, h0, Nat.sub_zero, List.get_eq_getElem]
  rw [total_eq_sum, ← List.ofFn_getElem_eq_map, Fin.sum_ofFn]

/-- Tracks that moved on within their frames, one of them by a frame, have fewer frames left. -/
theorem framesLeft_lt_of_le {tracks' : Array Track}
    (hbound : ∀ k (hk : k < G.queues.length),
      (tracks'.getD k default).nextFrame ≤ G.queues[k].frames.length)
    (hmono : ∀ k, (tracks₀.getD k default).nextFrame ≤ (tracks'.getD k default).nextFrame)
    (hmoved : ∃ k < G.queues.length,
      (tracks₀.getD k default).nextFrame < (tracks'.getD k default).nextFrame) :
    framesLeft G tracks' < framesLeft G tracks₀ := by
  obtain ⟨k, hk, hlt⟩ := hmoved
  have hb := hbound k hk
  refine Finset.sum_lt_sum (fun i _ => Nat.sub_le_sub_left (hmono i) _) ⟨⟨k, hk⟩, Finset.mem_univ _, ?_⟩
  simp only [List.get_eq_getElem]
  omega

/-- Tracks that moved on, one of them by a frame, have fewer frames left. -/
theorem framesLeft_lt {tracks' : Array Track} (h' : SimInv G tracks') (hG : Runnable G)
    (hmono : ∀ k, (tracks₀.getD k default).nextFrame ≤ (tracks'.getD k default).nextFrame)
    (hmoved : ∃ k < G.queues.length,
      (tracks₀.getD k default).nextFrame < (tracks'.getD k default).nextFrame) :
    framesLeft G tracks' < framesLeft G tracks₀ := by
  refine framesLeft_lt_of_le (fun k hk => ?_) hmono hmoved
  have := (h'.track _ _ (h'.trackOf?_getD hG hk)).frame_le
  rwa [hG.framesFor_of_mem (List.getElem_mem hk)] at this

/-- With more rounds of fuel than frames left, the rounds succeed and run every frame. -/
theorem rounds_succeeds (hG : Runnable G) (hdl : NoDeadlock G) (fuel : Nat) :
    ∀ tracks sim, SimInv G tracks → framesLeft G tracks < fuel →
      Succeeds (rounds G fuel tracks sim) fun out => SimInv G out.1 ∧ AllRun G out.1 := by
  induction fuel with
  | zero =>
    intro _ _ _ hleft
    omega
  | succ fuel ih =>
    intro tracks sim h hleft
    rw [rounds]
    refine Succeeds.bind (h.round hG sim) fun r hr => ?_
    cases hfin : r.finished with
    | true => exact Succeeds.pure ⟨hr.inv, fun k hk => hr.done hfin k hk hk⟩
    | false =>
      obtain ⟨k, hk, -, hkl⟩ := hr.left hfin
      cases hprog : r.progressed with
      | false =>
        -- a round that ran nothing while frames were left contradicts deadlock freedom
        obtain ⟨-, hstuck⟩ := hr.stuck hprog
        obtain ⟨k', hk', f, hf, hready⟩ := h.exists_ready hG hdl hk hkl
        rw [hstuck k' hk' hk' f hf] at hready
        cases hready
      | true =>
        simp only [Bool.false_eq_true, Bool.not_true, ↓reduceIte]
        exact ih r.tracks r.sim hr.inv
          (by have := framesLeft_lt hr.inv hG hr.mono (hr.moved hprog); omega)

/-- **The simulation of a runnable graph that cannot deadlock succeeds**, runs every frame, and
ends with tracks that keep the invariant. -/
theorem simulate_succeeds (hG : Runnable G) (hdl : NoDeadlock G) :
    Succeeds (simulate G) fun out => SimInv G out.1 ∧ AllRun G out.1 :=
  rounds_succeeds hG hdl _ _ _ (SimInv.start G) (by rw [framesLeft_start]; omega)

/-! ### Reading the end times -/

/-- After every frame ran, every pass of every class has its end time. -/
theorem SimInv.endOf?_of_allRun (h : SimInv G tracks₀) (hG : Runnable G) (hall : AllRun G tracks₀)
    {q : QueueClass} {i : Nat} (hi : i < (G.passesOf q).length) :
    ∃ e, endOf? tracks₀ q i = some e := by
  cases hq : G.queue? q with
  | none => simp [passesOf, hq] at hi
  | some Q =>
    obtain ⟨hQ, rfl⟩ := (find?_class_eq_some_iff hG.nodup).mp hq
    obtain ⟨k, hk, rfl⟩ := List.getElem_of_mem hQ
    have htrack := h.trackOf?_getD hG hk
    have ht := h.track _ _ htrack
    have hframes := hG.framesFor_of_mem hQ
    have hnext : (tracks₀.getD k default).nextFrame = G.queues[k].frames.length :=
      le_antisymm (hframes ▸ ht.frame_le) (hall k hk)
    have hval : (tracks₀.getD k default).value = G.queues[k].passes.length := by
      rw [ht.value_eq, hframes, hnext, passesBefore_length, (hG.tiling _ hQ).sum_len]
    rw [hG.passesOf_of_mem hQ, ← hval] at hi
    exact Option.isSome_iff_exists.mp ((h.endOf?_isSome htrack).mpr hi)

/-- A pass before one that has its end time has its end time too. -/
theorem endOf?_of_le {q : QueueClass} {i i' : Nat} {e' : Nanos} (hle : i ≤ i')
    (he' : endOf? tracks₀ q i' = some e') : ∃ e, endOf? tracks₀ q i = some e := by
  obtain ⟨t, ht, he'⟩ := endOf?_eq_some_iff.mp he'
  have hi : i < t.ends.length := lt_of_le_of_lt hle (List.getElem?_eq_some_iff.mp he').1
  exact ⟨t.ends[i], endOf?_eq_some_iff.mpr ⟨t, ht, List.getElem?_eq_getElem hi⟩⟩

/-- Along a queue, end times do not decrease. -/
theorem Timed.le_of_le (h : Timed G tracks₀) {q : QueueClass} {i i' : Nat} {e e' : Nanos}
    (hle : i ≤ i') (he : endOf? tracks₀ q i = some e) (he' : endOf? tracks₀ q i' = some e') :
    e ≤ e' := by
  obtain ⟨d, rfl⟩ := Nat.exists_eq_add_of_le hle
  induction d generalizing e' with
  | zero =>
    rw [Nat.add_zero, he, Option.some.injEq] at he'
    exact he'.le
  | succ d ih =>
    obtain ⟨ed, hed⟩ := endOf?_of_le (Nat.le_succ (i + d)) he'
    obtain ⟨p, -, hstep⟩ := h.chain q (i + d) ed e' hed he'
    exact le_trans (ih (Nat.le_add_right i d) hed) (le_trans (Nat.le_add_right ed _) hstep)

/-- A later pass on a queue ends at least its own cost after an earlier pass ends. -/
theorem Timed.add_cost_le (h : Timed G tracks₀) {q : QueueClass} {i i' : Nat} {e e' : Nanos}
    (hlt : i < i') (he : endOf? tracks₀ q i = some e) (he' : endOf? tracks₀ q i' = some e') :
    ∃ p, (G.passesOf q)[i']? = some p ∧ e + passCost p ≤ e' := by
  obtain ⟨j, rfl⟩ : ∃ j, i' = j + 1 := ⟨i' - 1, by omega⟩
  obtain ⟨ej, hej⟩ := endOf?_of_le (Nat.le_succ j) he'
  obtain ⟨p, hp, hstep⟩ := h.chain q j ej e' hej he'
  exact ⟨p, hp, le_trans (Nat.add_le_add_right (h.le_of_le (by omega) he hej) _) hstep⟩

end RenderGraph.Simulation
