import RenderGraph.Proofs.Registered
import RenderGraph.Session
/-!
# Pass times of a session

A session reports the time of a pass by its key: it maps the key to the pass's id in the session's
ids, and asks the backend for the cost its last submit recorded under that id
(`Session.passTime`). The ids are those of the last bake, the costs those of the last successful
submit. A bake replaces the ids and the backend's created graph but keeps the costs, so between a
bake and the next successful run the two can belong to different graphs, and a key can be given
another pass's time.

## What is proved

* `Simulation.run_costed`: a simulation that returns has run a list of passes of its graph, in
  order; its executed ids are theirs, and its timings pair each id with the pass's cost.
* `Triple` is a Hoare triple for session calls, with one lemma for each kind of step a call
  makes. `BakeStep` lists the six things a bake can do (`bake_step`): reuse the bake; fail to
  encode, to bake, to have the backend create the graph or accept it, each time keeping no
  bake; or keep a new bake whose graph the backend holds. Every call keeps the backend in step
  with the session (`Synced`): whenever the session has a bake, the backend holds the bake's
  graph as created and baked (`Op.call_synced`, `performs_synced`).
* `bake_changed`, `run_changed`: when a changed declaration bakes, the session takes the new ids
  and the backend the new graph, while the backend keeps the results of its last submit; a run
  then replaces them with the new graph's.
* `passTime_after_run`: after any calls, a run that succeeds leaves the backend with the results of
  simulating the session's bake, and the time the session reports for a key is the cost of the
  first pass with the key's id that the run ran.
* `passTime_stale_after_rebake`: without the run, the times can belong to another graph. Two
  passes run for 6000 ns and 5000 ns; once the first is removed and the rest baked again, the
  session reports 6000 ns for the second, the removed pass's time.
-/

namespace RenderGraph

open Logged

/-! ### What a simulation records -/

namespace Simulation

variable {G : BakedGraph}

/-- The results `sim` record passes `ps` of graph `G` as run in order: their ids, and each id
with the pass's cost. -/
def Costed (G : BakedGraph) (sim : Simulation) (ps : List BakedPass) : Prop :=
  (∀ p ∈ ps, p ∈ G.allPasses) ∧ sim.executed = ps.map (·.id) ∧
    sim.timings = ps.map fun p => (p.id, passCost p)

theorem Costed.push {sim : Simulation} {ps : List BakedPass} (h : Costed G sim ps) {p : BakedPass}
    (hp : p ∈ G.allPasses) :
    Costed G { sim with executed := sim.executed ++ [p.id], timings := sim.timings ++ [(p.id, passCost p)] }
      (ps ++ [p]) := by
  obtain ⟨hmem, hexec, htimes⟩ := h
  refine ⟨fun p' hp' => ?_, by simp [hexec], by simp [htimes]⟩
  rcases List.mem_append.mp hp' with hp' | hp'
  · exact hmem p' hp'
  · rw [List.mem_singleton.mp hp']
    exact hp

/-- Running passes of an entry of `G` records each pass it runs with its cost. -/
theorem runPasses_costed {Q : BakedQueue} (hQ : Q ∈ G.queues) {j : Nat} (idxs : List Nat) :
    ∀ {st ends sim out} {ps : List BakedPass}, runPasses Q j idxs (st, ends, sim) = .ok out →
      Costed G sim ps → ∃ ps', Costed G out.2.2 ps' := by
  induction idxs with
  | nil =>
    intro st ends sim out ps h hc
    cases h
    exact ⟨ps, hc⟩
  | cons i idxs ih =>
    intro st ends sim out ps h hc
    rw [runPasses] at h
    cases hp : Q.passes[i]? with
    | none =>
      rw [hp] at h
      cases h
    | some p =>
      rw [hp] at h
      dsimp only at h
      split at h
      · exact ih h (hc.push (List.mem_flatMap.mpr ⟨Q, hQ, List.mem_of_getElem? hp⟩))
      · cases h

/-- A frame whose passes ran had no overflow to report. -/
theorem checkRange_eq_ok {α : Type} {f : Frame} {x : Except BackendError α} {a : α}
    (h : checkRange f x = .ok a) : x = .ok a := by
  cases x with
  | ok b => exact h
  | error e => cases h

/-- A turn that returns keeps the results recording the passes run so far. -/
theorem turn_costed {r r' : Round} {k : Nat} (h : Returns (turn G r k) r') {ps : List BakedPass}
    (hc : Costed G r.sim ps) : ∃ ps', Costed G r'.sim ps' := by
  unfold Simulation.turn at h
  cases hq : G.queues[k]? with
  | none =>
    rw [hq] at h
    obtain rfl := h.eq_of_yields (Yields.run_pure r)
    exact ⟨ps, hc⟩
  | some Q =>
    have hQ : Q ∈ G.queues := List.mem_of_getElem? hq
    rw [hq] at h
    dsimp only at h
    cases hf : Q.frames[(r.tracks.getD k default).nextFrame]? with
    | none =>
      rw [hf] at h
      obtain rfl := h.eq_of_yields (Yields.run_pure r)
      exact ⟨ps, hc⟩
    | some f =>
      rw [hf] at h
      dsimp only at h
      split at h
      · obtain rfl := h.eq_of_yields (Yields.run_pure _)
        exact ⟨ps, hc⟩
      · obtain ⟨⟨st, ends, sim⟩, hrun, h⟩ := h.bind
        obtain ⟨j, hj⟩ := hrun
        obtain ⟨-, -, h⟩ := h.bind
        obtain rfl := h.eq_of_yields (Yields.run_pure _)
        exact runPasses_costed hQ _ (checkRange_eq_ok hj) hc

/-- Rounds that return keep the results recording the passes run so far. -/
theorem rounds_costed (fuel : Nat) :
    ∀ {tracks sim out} {ps : List BakedPass}, Returns (rounds G fuel tracks sim) out →
      Costed G sim ps → ∃ ps', Costed G out.2 ps' := by
  induction fuel with
  | zero =>
    intro tracks sim out ps h hc
    obtain rfl := h.eq_of_yields (Yields.run_pure _)
    exact ⟨ps, hc⟩
  | succ fuel ih =>
    intro tracks sim out ps h hc
    rw [rounds] at h
    obtain ⟨r, hround, h⟩ := h.bind
    -- every turn of the round keeps the record
    have hr : ∃ ps', Costed G r.sim ps' :=
      Returns.foldlM (I := fun r => ∃ ps', Costed G r.sim ps') hround ⟨ps, hc⟩
        fun _ _ _ _ ⟨ps', hc'⟩ hturn => turn_costed hturn hc'
    obtain ⟨ps', hc'⟩ := hr
    split at h
    · obtain rfl := h.eq_of_yields (Yields.run_pure _)
      exact ⟨ps', hc'⟩
    · split at h
      · dsimp only at h
        split at h <;> exact absurd h Returns.not_throw
      · exact ih h hc'

/-- **A simulation records the passes it ran with their costs**: whenever it returns, its
executed ids and its timings are those of a list of passes of the graph, in order, each timing
the pass's cost. -/
theorem run_costed {sim : Simulation} (h : Returns (run G) sim) : ∃ ps, Costed G sim ps := by
  unfold Simulation.run at h
  obtain ⟨⟨tracks, sim'⟩, hsim, h⟩ := h.bind
  obtain rfl := h.eq_of_yields (Yields.run_pure _)
  exact rounds_costed _ hsim ⟨fun _ hp => absurd hp List.not_mem_nil, rfl, rfl⟩

end Simulation

/-! ### Backend calls -/

namespace DryRun

/-- A submit that returns ran the created graph, which was baked, and holds the run's results. -/
theorem submit_returns {d d' : DryRun} (h : Returns d.submit d') :
    ∃ g sim, d.created = some g ∧ d.baked = true ∧ Returns (Simulation.run g) sim ∧
      d' = { d with executed := sim.executed, timings := sim.timings, frameTime := sim.frameTime,
                    submits := d.submits + 1 } := by
  unfold submit at h
  rcases d with ⟨_ | g, _ | _, executed, timings, frameTime, submits⟩
  · exact absurd h Returns.not_throw
  · exact absurd h Returns.not_throw
  · exact absurd h Returns.not_throw
  · obtain ⟨sim, hsim, h⟩ := h.bind
    exact ⟨g, sim, rfl, rfl, hsim, h.eq_of_yields (Yields.run_pure _)⟩

/-- Creating from a stream that decodes to `g` holds `g`, not yet baked, and keeps the rest. -/
theorem create_of_decode {b : DryRun} {bytes : Bytes} {g : BakedGraph}
    (h : BakedGraph.decode bytes = .ok g) :
    Succeeds (b.create bytes) (· = { b with created := some g, baked := false }) := by
  unfold create
  rw [h]
  exact Succeeds.log_bind (Succeeds.pure rfl)

/-- The backend accepts the graph it created. -/
theorem bake_of_created {b : DryRun} {g : BakedGraph} (h : b.created = some g) :
    b.bake g = (.ok (), { b with baked := true }) := by
  simp only [bake, h, if_pos]

/-- A submit of a created and baked graph records the results of simulating it. -/
theorem submit_of_run {b : DryRun} {g : BakedGraph} {sim : Simulation}
    (hsim : Yields (Simulation.run g).run (.ok sim)) :
    Succeeds ({ b with created := some g, baked := true }).submit
      (· = { b with created := some g, baked := true, executed := sim.executed,
                    timings := sim.timings, frameTime := sim.frameTime, submits := b.submits + 1 }) :=
  Succeeds.bind (Succeeds.of_yields hsim) fun _ h => Succeeds.pure (by rw [h])

/-- A create that returns decoded the stream and holds its graph, not yet baked. -/
theorem create_returns {b b' : DryRun} {bytes : Bytes} (h : Returns (b.create bytes) b') :
    ∃ g, BakedGraph.decode bytes = .ok g ∧ b' = { b with created := some g, baked := false } := by
  cases hd : BakedGraph.decode bytes with
  | error e =>
    unfold create at h
    rw [hd] at h
    exact absurd h Returns.not_throw
  | ok g => exact ⟨g, rfl, (create_of_decode hd).of_returns h⟩

/-- A create fails only on a stream that does not decode, with the decoder's error. -/
theorem create_fails {b : DryRun} {bytes : Bytes} {e : BackendError} (h : Fails (b.create bytes) e) :
    ∃ e', BakedGraph.decode bytes = .error e' ∧ e = .stream e' := by
  cases hd : BakedGraph.decode bytes with
  | error e' =>
    unfold create at h
    rw [hd] at h
    exact ⟨e', rfl, h.throw⟩
  | ok g => exact absurd h (create_of_decode hd).not_fails

/-- The backend refuses a graph other than the one it created, and clears its baked flag. -/
theorem bake_of_ne {b : DryRun} {g G : BakedGraph} (h : b.created = some g) (hne : g ≠ G) :
    b.bake G = (.error .graphMismatch, { b with baked := false }) := by
  have hne' : b.created ≠ some G := fun h' => hne (Option.some.inj (h.symm.trans h'))
  simp only [bake, if_neg hne']

end DryRun

/-! ### Triples for session calls -/

namespace Session

variable {α β ε : Type} {P : Session → Prop} {R : Except SessionError β → Session → Prop}

/-- A session call `m` started from a session satisfying `P` ends, whatever the journal, with an
outcome and a session satisfying `Q`. -/
def Triple (P : Session → Prop) (m : SessionM α) (Q : Except SessionError α → Session → Prop) : Prop :=
  ∀ s j, P s → Q ((m.run.run s).run j).1.1 ((m.run.run s).run j).1.2

theorem Triple.imp {m : SessionM α} {Q Q' : Except SessionError α → Session → Prop} (h : Triple P m Q)
    (himp : ∀ r s, Q r s → Q' r s) : Triple P m Q' :=
  fun s j hs => himp _ _ (h s j hs)

theorem Triple.bind {m : SessionM α} {f : α → SessionM β} {Q : Except SessionError α → Session → Prop}
    (hm : Triple P m Q) (hf : ∀ a, Triple (Q (.ok a)) (f a) R)
    (herr : ∀ e s, Q (.error e) s → R (.error e) s) : Triple P (m >>= f) R := by
  intro s j hs
  have h := hm s j hs
  rw [ExceptT.run_bind, StateT.run_bind, StateT.run_bind]
  rcases hr : (m.run.run s).run j with ⟨⟨_ | a, s'⟩, j'⟩
  · rw [hr] at h
    exact herr _ _ h
  · rw [hr] at h
    exact hf a s' j' h

theorem Triple.pure {a : α} {Q : Except SessionError α → Session → Prop} (h : ∀ s, P s → Q (.ok a) s) :
    Triple P (Pure.pure a) Q :=
  fun s _ hs => h s hs

theorem Triple.throw {e : SessionError} {Q : Except SessionError α → Session → Prop}
    (h : ∀ s, P s → Q (.error e) s) : Triple P (MonadExcept.throw e) Q :=
  fun s _ hs => h s hs

theorem Triple.get_bind {f : Session → SessionM β} (h : ∀ s₀, Triple (fun s => P s ∧ s = s₀) (f s₀) R) :
    Triple P (get >>= f) R :=
  fun s j hs => h s s j ⟨hs, rfl⟩

theorem Triple.set_bind {t : Session} {f : PUnit → SessionM β} (h : Triple (· = t) (f ()) R) :
    Triple P (set t >>= f) R :=
  fun _ j _ => h t j rfl

theorem Triple.modify_bind {g : Session → Session} {f : PUnit → SessionM β}
    (h : Triple (fun s => ∃ s₀, P s₀ ∧ s = g s₀) (f ()) R) : Triple P (modify g >>= f) R :=
  fun s j hs => h (g s) j ⟨s, hs, rfl⟩

theorem Triple.modify {g : Session → Session} {Q : Except SessionError PUnit → Session → Prop}
    (h : ∀ s, P s → Q (.ok ()) (g s)) : Triple P (modify g) Q :=
  fun s _ hs => h s hs

theorem Triple.liftM_bind {m : Logged α} {f : α → SessionM β} (h : ∀ a, Triple P (f a) R) :
    Triple P (liftM m >>= f) R :=
  fun s _ hs => h _ s _ hs

theorem Triple.step_bind {wrap : ε → SessionError} {m : ExceptT ε Logged α} {f : α → SessionM β}
    (hok : ∀ a, Returns m a → Triple P (f a) R)
    (herr : ∀ e, Fails m e → ∀ s, P s → R (.error (wrap e)) s) :
    Triple P (step wrap m >>= f) R := by
  intro s j hs
  simp only [step, bind_assoc, ExceptT.run_bind, StateT.run_bind]
  have hlift : StateT.run ((liftM m.run : SessionM (Except ε α)).run.run s) j =
      ((.ok (m.run.run j).1, s), (m.run.run j).2) := rfl
  rw [hlift]
  rcases hr : m.run.run j with ⟨_ | a, j'⟩
  · exact herr _ ⟨j, by rw [hr]⟩ s hs
  · exact hok a ⟨j, by rw [hr]⟩ s j' hs

/-- A stage that always succeeds hands the rest of the call a value it promises. -/
theorem Triple.step_bind_of_succeeds {wrap : ε → SessionError} {m : ExceptT ε Logged α}
    {f : α → SessionM β} {Q : α → Prop} (hm : Succeeds m Q) (hok : ∀ a, Q a → Triple P (f a) R) :
    Triple P (step wrap m >>= f) R :=
  Triple.step_bind (fun a ha => hok a (hm.of_returns ha)) fun _ he => absurd he hm.not_fails

theorem Triple.liftM_bind_of_ensures {m : Logged α} {f : α → SessionM β} {Q : α → Prop}
    (hm : Ensures m Q) (h : ∀ a, Q a → Triple P (f a) R) : Triple P (liftM m >>= f) R :=
  fun s j hs => h _ (hm j) s _ hs

/-- A triple holds when it holds from each session its precondition admits. -/
theorem Triple.of_eq {m : SessionM β} (h : ∀ s₀, P s₀ → Triple (· = s₀) m R) : Triple P m R :=
  fun s j hs => h s hs s j rfl

theorem Triple.get_bind_eq {s₀ : Session} {f : Session → SessionM β} (h : Triple (· = s₀) (f s₀) R) :
    Triple (· = s₀) (get >>= f) R :=
  Triple.get_bind fun _ s j hs => by
    obtain ⟨rfl, rfl⟩ := hs
    exact h s j rfl

/-! ### What a bake does -/

/-- What a bake from session `s₀` can do: the outcome, and the session it leaves. -/
inductive BakeStep (s₀ : Session) : Except SessionError Bake → Session → Prop
  /-- A clean declaration with a bake at hand reuses the bake. -/
  | reuse {b : Bake} (hclean : s₀.declaration.dirty = false) (hb : s₀.baked = some b) :
      BakeStep s₀ (.ok b) s₀
  /-- The declaration does not encode. -/
  | encodeFails {e : ConfigError} (hchanged : (s₀.declaration.dirty || s₀.baked.isNone) = true)
      (he : Fails s₀.declaration.encode e) :
      BakeStep s₀ (.error (.configuration e)) { s₀ with baked := none, ids := none }
  /-- The encoded stream does not bake. -/
  | bakeFails {E : Encoded} {e : BakeError}
      (hchanged : (s₀.declaration.dirty || s₀.baked.isNone) = true)
      (hE : Returns s₀.declaration.encode E) (he : Fails (RenderGraph.bake E.bytes s₀.options) e) :
      BakeStep s₀ (.error (.bake e)) { s₀ with baked := none, ids := none }
  /-- The baked graph's output stream does not decode, so the backend cannot create the graph. -/
  | createFails {E : Encoded} {b : Bake} {e : Stream.Error}
      (hchanged : (s₀.declaration.dirty || s₀.baked.isNone) = true)
      (hE : Returns s₀.declaration.encode E) (hb : Returns (RenderGraph.bake E.bytes s₀.options) b)
      (he : BakedGraph.decode b.baked.encode = .error e) :
      BakeStep s₀ (.error (.backend (.stream e))) { s₀ with baked := none, ids := none }
  /-- The output stream decodes to another graph, which the backend then refuses. -/
  | mismatch {E : Encoded} {b : Bake} {g : BakedGraph}
      (hchanged : (s₀.declaration.dirty || s₀.baked.isNone) = true)
      (hE : Returns s₀.declaration.encode E) (hb : Returns (RenderGraph.bake E.bytes s₀.options) b)
      (hg : BakedGraph.decode b.baked.encode = .ok g) (hne : g ≠ b.baked) :
      BakeStep s₀ (.error (.backend .graphMismatch))
        { s₀ with baked := none, ids := none,
                  backend := { s₀.backend with created := some g, baked := false } }
  /-- The session keeps the new bake with its stream's ids and a clean declaration, and the
  backend holds the bake's graph, created and baked. -/
  | rebaked {E : Encoded} {b : Bake}
      (hchanged : (s₀.declaration.dirty || s₀.baked.isNone) = true)
      (hE : Returns s₀.declaration.encode E) (hb : Returns (RenderGraph.bake E.bytes s₀.options) b)
      (hg : BakedGraph.decode b.baked.encode = .ok b.baked) :
      BakeStep s₀ (.ok b)
        { s₀ with declaration := s₀.declaration.markClean, ids := some E.ids, baked := some b,
                  backend := { s₀.backend with created := some b.baked, baked := true } }

/-- **A bake does one of the six things of `BakeStep`.** -/
theorem bake_step (s₀ : Session) : Triple (· = s₀) bake (BakeStep s₀) := by
  unfold Session.bake
  refine Triple.get_bind_eq ?_
  split
  · rename_i hchanged
    refine Triple.set_bind (Triple.step_bind (fun E hE => ?_) fun e he s hs => ?_)
    · refine Triple.step_bind (fun b hb => ?_) fun e he s hs => ?_
      · refine Triple.liftM_bind_of_ensures (Q := (· = b.baked.encode)) (fun _ => rfl)
          fun stream hstream => ?_
        subst hstream
        refine Triple.step_bind (fun backend hbk => ?_) fun e he s hs => ?_
        · obtain ⟨g, hg, rfl⟩ := DryRun.create_returns hbk
          -- the backend accepts the graph exactly when the stream decoded to it
          by_cases hgb : g = b.baked
          · subst hgb
            rw [DryRun.bake_of_created rfl]
            refine Triple.modify_bind ?_
            dsimp only
            refine Triple.modify_bind (Triple.pure fun s hs => ?_)
            obtain ⟨s', ⟨s'', rfl, rfl⟩, rfl⟩ := hs
            exact .rebaked hchanged hE hb hg
          · rw [DryRun.bake_of_ne rfl hgb]
            refine Triple.modify_bind ?_
            dsimp only
            refine Triple.throw fun s hs => ?_
            obtain ⟨s', rfl, rfl⟩ := hs
            exact .mismatch hchanged hE hb hg hgb
        · obtain ⟨e', hdec, rfl⟩ := DryRun.create_fails he
          subst hs
          exact .createFails hchanged hE hb hdec
      · subst hs
        exact .bakeFails hchanged hE he
    · subst hs
      exact .encodeFails hchanged he
  · -- a clean declaration with a bake at hand: the bake is reused
    rename_i hclean
    simp only [Bool.or_eq_true, not_or, Bool.not_eq_true, Option.isNone_iff_eq_none] at hclean
    refine Triple.liftM_bind fun _ => ?_
    split
    · rename_i b hb
      refine Triple.pure fun s hs => ?_
      subst hs
      exact .reuse hclean.1 hb
    · rename_i hb
      exact absurd hb hclean.2

namespace BakeStep

variable {s₀ s : Session} {r : Except SessionError Bake}

/-- A bake does not submit. -/
theorem submits (h : BakeStep s₀ r s) : s.backend.submits = s₀.backend.submits := by
  cases h <;> rfl

/-- A bake that returns leaves the session with the bake it returned. -/
theorem baked_of_ok {b : Bake} (h : BakeStep s₀ (.ok b) s) : s.baked = some b := by
  cases h with
  | reuse _ hb => exact hb
  | rebaked => rfl

/-- A bake that fails leaves the session without a bake. -/
theorem baked_of_error {e : SessionError} (h : BakeStep s₀ (.error e) s) : s.baked = none := by
  cases h <;> rfl

end BakeStep

/-! ### The backend follows the session -/

/-- The backend holds the session's bake: when the session has a bake, the backend's created graph
is the bake's graph with the baked flag set, and the session has the ids of the bake's stream. -/
def Synced (s : Session) : Prop :=
  ∀ b, s.baked = some b → s.backend.created = some b.baked ∧ s.backend.baked = true ∧ s.ids.isSome

theorem synced_of_baked_none {s : Session} (h : s.baked = none) : Synced s := by
  intro b hb
  rw [h] at hb
  cases hb

/-- Baking keeps the backend in step with the session, and a bake it returns is the session's. -/
theorem bake_spec : Triple Synced bake fun r s => Synced s ∧ ∀ b, r = .ok b → s.baked = some b :=
  Triple.of_eq fun s₀ h₀ => (bake_step s₀).imp fun r s hstep => by
    refine ⟨?_, fun b hb => by subst hb; exact hstep.baked_of_ok⟩
    cases hstep with
    | reuse => exact h₀
    | rebaked =>
      -- the new bake's graph is the one the backend created and accepted
      intro b hb
      obtain rfl := Option.some.inj hb
      exact ⟨rfl, rfl, rfl⟩
    | encodeFails | bakeFails | createFails | mismatch => exact synced_of_baked_none rfl

/-- The results of the backend's last submit come from simulating the graph of the session's bake. -/
def RanBake (s : Session) : Prop :=
  ∃ b sim, s.baked = some b ∧ s.backend.created = some b.baked ∧ Returns (Simulation.run b.baked) sim ∧
    s.backend.executed = sim.executed ∧ s.backend.timings = sim.timings

/-- Running keeps the backend in step with the session, and a run that succeeds leaves the results
of simulating the session's bake. -/
theorem run_spec : Triple Synced run fun r s => Synced s ∧ (r = .ok () → RanBake s) := by
  unfold Session.run
  refine Triple.bind bake_spec (fun b => ?_) fun e s h => ⟨h.1, fun h' => by cases h'⟩
  refine Triple.get_bind fun s₀ => ?_
  refine Triple.step_bind (fun backend hsubmit => ?_) fun e _ s hs => ⟨hs.1.1, fun h => by cases h⟩
  refine Triple.modify fun s hs => ?_
  obtain ⟨⟨hsync, hb⟩, rfl⟩ := hs
  obtain ⟨g, sim, hcreated, hflag, hsim, rfl⟩ := DryRun.submit_returns hsubmit
  refine ⟨fun b' hb' => hsync b' hb', fun _ => ⟨b, sim, hb b rfl, ?_, ?_, rfl, rfl⟩⟩
  · exact (hsync b (hb b rfl)).1
  · rw [(hsync b (hb b rfl)).1, Option.some.injEq] at hcreated
    rw [hcreated]
    exact hsim

/-- Changing the declaration keeps the backend in step: it touches neither the bake nor the
backend. -/
theorem declare_synced (m : Declare SlotMap α) : Triple Synced (declare m) fun _ s => Synced s := by
  unfold Session.declare
  refine Triple.get_bind fun s₀ => ?_
  split
  · refine Triple.modify_bind (Triple.pure fun s hs => ?_)
    obtain ⟨s', ⟨hs', rfl⟩, rfl⟩ := hs
    exact hs'
  · exact Triple.throw fun s hs => hs.1

/-- Setting the options keeps the backend in step: different options drop the bake. -/
theorem setOptions_synced (options : BakeOptions) :
    Triple Synced (setOptions options) fun _ s => Synced s := by
  unfold Session.setOptions
  refine Triple.modify fun s hs => ?_
  split
  · exact hs
  · exact synced_of_baked_none rfl

/-! ### Calls whose stages succeed -/

/-- A change that succeeds replaces the declaration, and touches nothing else. -/
theorem declare_ok {m : Declare SlotMap α} {s₀ : Session} {a : α} {d : Declaration SlotMap}
    (h : m.run s₀.declaration = .ok (a, d)) :
    Triple (· = s₀) (declare m) fun r s => r = .ok a ∧ s = { s₀ with declaration := d } := by
  unfold Session.declare
  refine Triple.get_bind_eq ?_
  rw [h]
  exact Triple.modify_bind (Triple.pure fun s hs => by
    obtain ⟨s', rfl, rfl⟩ := hs
    exact ⟨rfl, rfl⟩)

/-- **Baking a changed declaration.** When the declaration changed since the last bake and each
stage succeeds, the session keeps the new bake and the ids of its stream, and the backend holds
the bake's graph, created and baked. Nothing else changes: the backend keeps what its last submit
recorded, though that was a run of another graph. -/
theorem bake_changed {s₀ : Session} {ids : DenseIds} {G : BakedGraph}
    (hchanged : (s₀.declaration.dirty || s₀.baked.isNone) = true)
    (hbake : Succeeds s₀.declaration.encode fun E => E.ids = ids ∧
      Succeeds (RenderGraph.bake E.bytes s₀.options) fun b => b.baked = G)
    (hstream : Ensures G.encodeLogged fun bytes => BakedGraph.decode bytes = .ok G) :
    Triple (· = s₀) bake fun r s => ∃ b, r = .ok b ∧ b.baked = G ∧
      s = { s₀ with declaration := s₀.declaration.markClean, ids := some ids, baked := some b,
                    backend := { s₀.backend with created := some G, baked := true } } := by
  unfold Session.bake
  refine Triple.get_bind_eq ?_
  rw [if_pos hchanged]
  refine Triple.set_bind (Triple.step_bind_of_succeeds hbake fun E hE => ?_)
  refine Triple.step_bind_of_succeeds hE.2 fun b hb => ?_
  rw [hb]
  refine Triple.liftM_bind_of_ensures hstream fun stream hs => ?_
  refine Triple.step_bind_of_succeeds (DryRun.create_of_decode hs) fun backend hbk => ?_
  subst hbk
  rw [DryRun.bake_of_created rfl]
  refine Triple.modify_bind ?_
  dsimp only
  refine Triple.modify_bind (Triple.pure fun s hs => ⟨b, rfl, hb, ?_⟩)
  obtain ⟨s', ⟨s'', rfl, rfl⟩, rfl⟩ := hs
  rw [hE.1]

/-- **Running a changed declaration.** When the declaration changed since the last bake, each
stage succeeds and the simulation of the new graph gives `sim`, the run bakes as `bake_changed`
says and the backend records `sim`. -/
theorem run_changed {s₀ : Session} {ids : DenseIds} {G : BakedGraph} {sim : Simulation}
    (hchanged : (s₀.declaration.dirty || s₀.baked.isNone) = true)
    (hbake : Succeeds s₀.declaration.encode fun E => E.ids = ids ∧
      Succeeds (RenderGraph.bake E.bytes s₀.options) fun b => b.baked = G)
    (hstream : Ensures G.encodeLogged fun bytes => BakedGraph.decode bytes = .ok G)
    (hsim : Yields (Simulation.run G).run (.ok sim)) :
    Triple (· = s₀) run fun r s => r = .ok () ∧ ∃ b, b.baked = G ∧
      s = { s₀ with declaration := s₀.declaration.markClean, ids := some ids, baked := some b,
                    backend := { s₀.backend with created := some G, baked := true,
                                                 executed := sim.executed, timings := sim.timings,
                                                 frameTime := sim.frameTime,
                                                 submits := s₀.backend.submits + 1 } } := by
  unfold Session.run
  refine Triple.bind (bake_changed hchanged hbake hstream) (fun b => ?_) fun e s h => ?_
  · refine Triple.get_bind fun s₁ => Triple.of_eq fun s hs => ?_
    obtain ⟨⟨b', hb', hG, rfl⟩, rfl⟩ := hs
    obtain rfl := Except.ok.inj hb'
    refine Triple.step_bind_of_succeeds (DryRun.submit_of_run hsim) fun backend hbk => ?_
    exact Triple.modify fun s hs => ⟨rfl, b, hG, by rw [hs, hbk]⟩
  · obtain ⟨b, hb, -⟩ := h
    cases hb

/-! ### Sequences of calls -/

/-- A call a client makes on a session. -/
inductive Op where
  | declare {α : Type} (m : Declare SlotMap α)
  | setOptions (options : BakeOptions)
  | bake
  | run

/-- Makes one call, dropping what it returns. -/
def Op.call : Op → SessionM Unit
  | .declare m => do
    let _ ← Session.declare m
    pure ()
  | .setOptions options => Session.setOptions options
  | .bake => do
    let _ ← Session.bake
    pure ()
  | .run => Session.run

/-- Makes calls one after the other, each on the session the one before left, whatever its
outcome. -/
def performs (s : Session) : List Op → Logged Session
  | [] => pure s
  | op :: ops => do
    let (_, s) ← op.call.run.run s
    performs s ops

/-- Every call keeps the backend in step with the session, whatever its outcome. -/
theorem Op.call_synced (op : Op) : Triple Synced op.call fun _ s => Synced s := by
  cases op with
  | declare m =>
    exact Triple.bind (declare_synced m) (fun _ => Triple.pure fun _ hs => hs) fun _ _ hs => hs
  | setOptions options => exact setOptions_synced options
  | bake =>
    exact Triple.bind bake_spec (fun _ => Triple.pure fun _ hs => hs.1) fun _ _ hs => hs.1
  | run => exact run_spec.imp fun _ _ hs => hs.1

/-- Calls `ops` take every session satisfying `P` to one satisfying `Q`, whatever the journal. -/
def Performs (P : Session → Prop) (ops : List Op) (Q : Session → Prop) : Prop :=
  ∀ s j, P s → Q ((performs s ops).run j).1

theorem Performs.nil {Q : Session → Prop} : Performs Q [] Q :=
  fun _ _ hs => hs

theorem Performs.cons {Q R : Session → Prop} {op : Op} {ops : List Op}
    (hop : Triple P op.call fun _ s => Q s) (hops : Performs Q ops R) : Performs P (op :: ops) R :=
  fun s j hs => hops _ _ (hop s j hs)

/-- Every sequence of calls keeps the backend in step with the session. -/
theorem performs_synced (ops : List Op) : Performs Synced ops Synced := by
  induction ops with
  | nil => exact Performs.nil
  | cons op ops ih => exact Performs.cons op.call_synced ih

/-- The call of a change that succeeds replaces the declaration. -/
theorem Op.call_declare_ok {m : Declare SlotMap α} {s₀ : Session} {a : α} {d : Declaration SlotMap}
    (h : m.run s₀.declaration = .ok (a, d)) :
    Triple (· = s₀) (Op.declare m).call fun _ s => s = { s₀ with declaration := d } :=
  Triple.bind (Session.declare_ok h) (fun _ => Triple.pure fun _ hs => hs.2) fun _ _ hs => by
    cases hs.1

/-- The call of a bake of a changed declaration whose stages succeed bakes as `bake_changed`
says. -/
theorem Op.call_bake_changed {s₀ : Session} {ids : DenseIds} {G : BakedGraph}
    (hchanged : (s₀.declaration.dirty || s₀.baked.isNone) = true)
    (hbake : Succeeds s₀.declaration.encode fun E => E.ids = ids ∧
      Succeeds (RenderGraph.bake E.bytes s₀.options) fun b => b.baked = G)
    (hstream : Ensures G.encodeLogged fun bytes => BakedGraph.decode bytes = .ok G) :
    Triple (· = s₀) Op.bake.call fun _ s => ∃ b, b.baked = G ∧
      s = { s₀ with declaration := s₀.declaration.markClean, ids := some ids, baked := some b,
                    backend := { s₀.backend with created := some G, baked := true } } :=
  Triple.bind (Session.bake_changed hchanged hbake hstream)
    (fun _ => Triple.pure fun _ hs => by
      obtain ⟨b, -, hb, hs⟩ := hs
      exact ⟨b, hb, hs⟩)
    fun _ _ hs => by
      obtain ⟨b, hb, -⟩ := hs
      cases hb

/-! ### Pass times after a run -/

/-- The time a session reports for a key, when its backend last ran passes `ps` with their costs:
the cost of the first of them with the key's id. -/
theorem passTime_eq {s : Session} {ids : DenseIds} (hids : s.ids = some ids) {ps : List BakedPass}
    (htimes : s.backend.timings = ps.map fun p => (p.id, passCost p)) (k : Key) :
    s.passTime k = (ids.pass k).bind fun id => (ps.find? (·.id == id)).map passCost := by
  simp only [passTime, hids, DryRun.queryTime, htimes, List.find?_map, Option.bind_eq_bind,
    Option.bind_some, Option.map_map]
  rfl

/-- What a run may give: a failure, or a session whose backend last simulated the graph of the
session's bake, running passes `ps` of it in order, and whose time for a key is the cost of the
first of those passes with the key's id. -/
def RunTimes : Except SessionError Unit × Session → Prop
  | (.ok (), s) => ∃ b ids sim ps, s.baked = some b ∧ s.ids = some ids ∧
      s.backend.created = some b.baked ∧ Returns (Simulation.run b.baked) sim ∧
      Simulation.Costed b.baked sim ps ∧ s.backend.executed = sim.executed ∧
      ∀ k, s.passTime k = (ids.pass k).bind fun id => (ps.find? (·.id == id)).map passCost
  | (.error _, _) => True

/-- **After a successful run, pass times are those of the run.** Whatever calls a client made
before, a run that succeeds leaves the session's bake simulated by the backend: the backend ran
passes of the bake's graph in order, and the time the session reports for a key is the cost of
the first of them with the key's id in the bake, none when no pass with that id ran. -/
theorem passTime_after_run (ops : List Op) (j j' : Journal) :
    RunTimes ((run.run.run ((performs {} ops).run j).1).run j').1 := by
  have hsync := performs_synced ops {} j (synced_of_baked_none rfl)
  have h := run_spec _ j' hsync
  rcases hx : ((run.run.run ((performs {} ops).run j).1).run j').1 with ⟨r, s⟩
  rw [hx] at h
  cases r with
  | error e => trivial
  | ok u =>
    obtain ⟨b, sim, hb, hcreated, hsim, hexec, htimes⟩ := h.2 rfl
    obtain ⟨ids, hids⟩ := Option.isSome_iff_exists.mp (h.1 b hb).2.2
    obtain ⟨ps, hcost⟩ := Simulation.run_costed hsim
    refine ⟨b, ids, sim, ps, hb, hids, hcreated, hsim, hcost, hexec, passTime_eq hids ?_⟩
    rw [htimes]
    exact hcost.2.2

end Session

/-! ### A pass time from an older bake

A run of two passes, then the first removed and the rest baked again, without a run. -/

/-- A bake whose ingestion gives `r` succeeds as its later stages do when they run on `r`. -/
theorem bake_succeeds_of_ingest {bytes : Bytes} {options : BakeOptions} {r : Registry} {β : Type}
    {f : Bake → β} {b : β} (hr : ((Registry.ingest bytes).run.run #[]).1 = .ok r)
    (hrest : ∀ j J, (Registry.ingest bytes).run.run j = (.ok r, J) →
      ((bake bytes options).run.run j).1.toOption.map f = some b) :
    Succeeds (bake bytes options) (f · = b) :=
  Succeeds.of_toOption fun j => hrest j _ (Prod.ext (Registry.ingest_yields hr j) rfl)

/-- A declaration that encodes to `E`, whose stream bakes to graph `G`, bakes as `bake_changed`
needs. -/
theorem encode_bakes {d : Declaration SlotMap} {E : Encoded} {ids : DenseIds} {options : BakeOptions}
    {G : BakedGraph} (hE : Yields d.encode.run (.ok E)) (hids : E.ids = ids)
    (hbake : Succeeds (bake E.bytes options) fun b => b.baked = G) :
    Succeeds d.encode fun E => E.ids = ids ∧ Succeeds (bake E.bytes options) fun b => b.baked = G :=
  (Succeeds.of_yields hE).imp fun _ h => h ▸ ⟨hids, hbake⟩

/-- Two compute passes: `first` writes a buffer, `second` touches nothing. -/
def twoPasses : Declare SlotMap Unit := do
  let a ← Declaration.buffer "a" ⟨64, 0x23, .gpuOnly⟩ .transient
  let first ← Declaration.pass "first" .compute
  let _ ← Declaration.pass "second" .compute
  let _ ← Declaration.write first (.buffer a) 0 Access.computeWrite

/-- What `twoPasses` declares from nothing. -/
def twoPassesDeclared : Declaration SlotMap :=
  match twoPasses.run {} with
  | .ok (_, d) => d
  | .error _ => {}

/-- `twoPassesDeclared`, baked, with `first` (key `⟨0, 1⟩`) removed. -/
def secondDeclared : Declaration SlotMap :=
  match (Declaration.remove (.pass ⟨0, 1⟩)).run twoPassesDeclared.markClean with
  | .ok (_, d) => d
  | .error _ => {}

/-- The registry ingested from `twoPassesDeclared`: `first` writes buffer `a` into its output
alias, buffer 1. -/
def twoPassesRegistry : Registry where
  brief := ⟨2, 0, 2, 0, 0, 0, 0, none, none, ⟨0⟩⟩
  buffers := #[some ⟨"a", ⟨64, 0x23, .gpuOnly⟩, .transient⟩,
    some ⟨"a\x27", ⟨64, 0x23, .gpuOnly⟩, .transient⟩]
  images := #[]
  shaders := #[]
  programs := #[]
  samplers := #[]
  bindless := #[]
  passes := #[⟨0, "first", .compute, none, none, [],
      [⟨.buffer 0, some (.buffer 1), .write, 0, 2048, 17179869184, none⟩], []⟩,
    ⟨1, "second", .compute, none, none, [], [], []⟩]
  passSlots := #[some 0, some 1]
  bufferForest := ⟨.buffer, #[some 0, some 0], #[0, 1], 2⟩
  imageForest := ⟨.image, #[], #[], 1⟩

/-- The registry ingested from `secondDeclared`: the buffers stay, `second` is the only pass. -/
def secondRegistry : Registry :=
  { twoPassesRegistry with
    brief := ⟨2, 0, 1, 0, 0, 0, 0, none, none, ⟨0⟩⟩
    passes := #[⟨0, "second", .compute, none, none, [], [], []⟩]
    passSlots := #[some 0] }

/-- The baked graph of `twoPassesDeclared`: one compute frame running `first`, then `second`. -/
def twoPassesGraph : BakedGraph where
  buckets := [⟨0, .buffer 0, .buffer 64 35 .gpuOnly, false, 2, ⟨2048, 17179869184, 0⟩⟩]
  aliases := [⟨.buffer 1, 0, .buffer 0, 0⟩]
  queues := [⟨.compute, [⟨.compute, 0, 2, [], 2⟩],
    [⟨0, "first", .compute, 0, 0, 0, none,
      [⟨.buffer 0, some (.buffer 1), 0, 0, .write, 2048, 17179869184, none⟩], []⟩,
     ⟨1, "second", .compute, 1, 1, 0, none, [], []⟩]⟩]

/-- The baked graph of `secondDeclared`: one compute frame running `second`, now pass 0. -/
def secondGraph : BakedGraph where
  buckets := []
  aliases := []
  queues := [⟨.compute, [⟨.compute, 0, 1, [], 1⟩], [⟨0, "second", .compute, 0, 0, 0, none, [], []⟩]⟩]

/-- The ids of `twoPassesDeclared`'s stream: `first` is pass 0, `second` pass 1. -/
def twoPassesIds : DenseIds where
  buffers := [(⟨0, 1⟩, 0), (⟨1, 1⟩, 1)]
  passes := [(⟨0, 1⟩, 0), (⟨1, 1⟩, 1)]
  passKeys := [⟨0, 1⟩, ⟨1, 1⟩]

/-- The ids of `secondDeclared`'s stream: `second` is pass 0. -/
def secondIds : DenseIds where
  buffers := [(⟨0, 1⟩, 0), (⟨1, 1⟩, 1)]
  passes := [(⟨1, 1⟩, 0)]
  passKeys := [⟨1, 1⟩]

set_option maxRecDepth 8000 in
theorem twoPasses_bakes : Succeeds twoPassesDeclared.encode fun E => E.ids = twoPassesIds ∧
    Succeeds (bake E.bytes {}) fun b => b.baked = twoPassesGraph := by
  -- ingestion is computed by the kernel, the encoding and the later stages by `cbv`
  refine encode_bakes (E := (twoPassesDeclared.encode.run.run #[]).1.toOption.getD ⟨[], {}⟩)
    (fun _ => by cbv) (by cbv)
    (bake_succeeds_of_ingest (r := twoPassesRegistry) (by decide +kernel) fun j J hI => ?_)
  unfold RenderGraph.bake
  simp only [ExceptT.run_bind, StateT.run_bind, hI]
  cbv

set_option maxRecDepth 8000 in
theorem second_bakes : Succeeds secondDeclared.encode fun E => E.ids = secondIds ∧
    Succeeds (bake E.bytes {}) fun b => b.baked = secondGraph := by
  refine encode_bakes (E := (secondDeclared.encode.run.run #[]).1.toOption.getD ⟨[], {}⟩)
    (fun _ => by cbv) (by cbv)
    (bake_succeeds_of_ingest (r := secondRegistry) (by decide +kernel) fun j J hI => ?_)
  unfold RenderGraph.bake
  simp only [ExceptT.run_bind, StateT.run_bind, hI]
  cbv

set_option maxRecDepth 8000 in
theorem twoPassesGraph_stream :
    Ensures twoPassesGraph.encodeLogged fun bytes => BakedGraph.decode bytes = .ok twoPassesGraph :=
  fun _ => by cbv

set_option maxRecDepth 8000 in
theorem secondGraph_stream :
    Ensures secondGraph.encodeLogged fun bytes => BakedGraph.decode bytes = .ok secondGraph :=
  fun _ => by cbv

set_option maxRecDepth 8000 in
/-- Simulating `twoPassesGraph` runs `first` for 6000 ns, then `second` for 5000 ns. -/
theorem twoPassesGraph_run :
    Yields (Simulation.run twoPassesGraph).run (.ok ⟨[0, 1], [(0, 6000), (1, 5000)], 11000⟩) :=
  fun _ => by cbv

namespace Session

/-- Declaring `twoPasses` and running it bakes it and records its simulation. -/
theorem twoPasses_ran : Performs (· = {}) [.declare twoPasses, .run] fun s =>
    s.declaration = twoPassesDeclared.markClean ∧ s.options = {} ∧ s.ids = some twoPassesIds ∧
      s.backend.timings = [(0, 6000), (1, 5000)] := by
  refine Performs.cons (Op.call_declare_ok (a := ()) (d := twoPassesDeclared) (by cbv))
    (Performs.cons ?_ Performs.nil)
  -- the expected triple fixes the session before `twoPasses_bakes` is matched against it
  refine Triple.imp (run_changed (by cbv) twoPasses_bakes twoPassesGraph_stream twoPassesGraph_run)
    fun r s h => ?_
  obtain ⟨-, b, -, rfl⟩ := h
  exact ⟨rfl, rfl, rfl, rfl⟩

/-- Removing `first` from the baked `twoPassesDeclared` and baking again gives the ids of
`secondDeclared`, and keeps the recorded times. -/
theorem firstRemoved_rebaked (T : List (Nat × Nanos)) :
    Performs (fun s => s.declaration = twoPassesDeclared.markClean ∧ s.options = {} ∧
        s.backend.timings = T)
      [.declare (Declaration.remove (.pass ⟨0, 1⟩)), .bake]
      fun s => s.ids = some secondIds ∧ s.backend.timings = T := by
  refine Performs.cons (Q := fun s => s.declaration = secondDeclared ∧ s.options = {} ∧
    s.backend.timings = T) (Triple.of_eq fun s₀ hs₀ => ?_) (Performs.cons ?_ Performs.nil)
  · obtain ⟨hd, ho, hT⟩ := hs₀
    have hremove :
        (Declaration.remove (.pass ⟨0, 1⟩)).run s₀.declaration = .ok ((), secondDeclared) := by
      rw [hd]
      cbv
    exact (Op.call_declare_ok hremove).imp fun _ s hs => by
      subst hs
      exact ⟨rfl, ho, hT⟩
  · refine Triple.of_eq fun s₀ hs₀ => ?_
    obtain ⟨hd, ho, hT⟩ := hs₀
    have hchanged : secondDeclared.dirty = true := by cbv
    have hbake : Succeeds s₀.declaration.encode fun E => E.ids = secondIds ∧
        Succeeds (RenderGraph.bake E.bytes s₀.options) fun b => b.baked = secondGraph := by
      rw [hd, ho]
      exact second_bakes
    refine (Op.call_bake_changed (by rw [hd, hchanged]; rfl) hbake secondGraph_stream).imp
      fun _ s hs => ?_
    obtain ⟨b, -, rfl⟩ := hs
    exact ⟨rfl, hT⟩

set_option maxRecDepth 8000 in
/-- **A bake keeps the pass times of an older graph.** A client declares `first` (6000 ns) and
`second` (5000 ns) and runs them; the session then reports each pass's time in that run. After
`first` is removed and the declaration baked again, `second` is pass 0 of the new bake, and the
session reports for it the 6000 ns that pass 0 of the old graph, `first`, took. -/
theorem passTime_stale_after_rebake :
    let ran := ((performs {} [.declare twoPasses, .run]).run #[]).1
    let rebaked := ((performs ran [.declare (Declaration.remove (.pass ⟨0, 1⟩)), .bake]).run #[]).1
    ran.passTime ⟨0, 1⟩ = some 6000 ∧ ran.passTime ⟨1, 1⟩ = some 5000 ∧
      rebaked.passTime ⟨1, 1⟩ = some 6000 := by
  -- unfold the two sessions, so that the facts below rewrite them and no session is evaluated
  dsimp only
  obtain ⟨hd, ho, hids, hT⟩ := twoPasses_ran {} #[] rfl
  obtain ⟨hids', hT'⟩ := firstRemoved_rebaked _ _ #[] ⟨hd, ho, hT⟩
  simp only [passTime, DryRun.queryTime, hids, hT, hids', hT']
  decide

end Session

end RenderGraph
