import RenderGraph.Proofs.Sessions
import RenderGraph.Proofs.Codec
/-!
# The bake a session keeps

A session bakes lazily (`Session.bake`): while the declaration is clean and a bake is at hand it
hands that bake back; otherwise it drops the bake, bakes the declaration again and keeps the
result. The kept bake is right only if every change to the declaration that succeeds marks it
dirty, a change that fails leaves it as it was, new options drop the bake, and a bake that fails
keeps none.

## What is proved

* `Declare.Dirties`: a change that leaves the declaration dirty whenever it succeeds. Every call of
  the front end is one (`Declaration.FrontEnd.dirties`): each ends in a step that marks the
  declaration dirty.
* `Session.Fresh`: while the declaration is clean, the session's bake is one that baking the
  declaration's encoded stream with the session's options returns, and the session has that
  stream's ids. Every call keeps it, and the backend in step with it (`Session.Synced`), when its
  changes are calls of the front end (`Session.Op.call_cached`), so every sequence of such calls
  does (`Session.performs_cached`).
* `Session.declare_error`, `Session.bake_error`, `Session.run_submits`: a failed change leaves the
  session as it was, a failed bake leaves no bake, and a run submits once, only after its bake
  succeeded.
* `Session.bake_backend_error`: a bake fails with a backend error only when the graph it baked
  does not fit the words of its output stream (`BakedGraph.Fits`).

What a bake does is read off `Session.BakeStep`, one case for each of its outcomes.
-/

namespace RenderGraph

open Logged

/-! ### Changes that mark the declaration dirty -/

namespace Declare

variable {M : Type → Type} [SlotStore M] {α β : Type}

/-- Whenever `m` succeeds, it leaves the declaration dirty. -/
def Dirties (m : Declare M α) : Prop :=
  ∀ d a d', m.run d = .ok (a, d') → d'.dirty = true

/-- A change whose every continuation marks the declaration dirty does. -/
theorem Dirties.bind {m : Declare M α} {f : α → Declare M β} (hf : ∀ a, (f a).Dirties) :
    (m >>= f).Dirties := by
  intro d b d' h
  rw [StateT.run_bind] at h
  rcases hm : m.run d with _ | ⟨a, d₁⟩
  · rw [hm] at h
    cases h
  · rw [hm] at h
    exact hf a d₁ b d' h

/-- Returning a value after a change that marks the declaration dirty keeps it dirty. -/
theorem Dirties.bind_pure {m : Declare M α} (hm : m.Dirties) (f : α → β) :
    (m >>= fun a => pure (f a)).Dirties := by
  intro d b d' h
  rw [StateT.run_bind] at h
  rcases hrun : m.run d with _ | ⟨a, d₁⟩
  · rw [hrun] at h
    cases h
  · rw [hrun] at h
    obtain ⟨-, rfl⟩ := Prod.mk.inj (Except.ok.inj h)
    exact hm d a d₁ hrun

theorem Dirties.modifyGet {g : Declaration M → α × Declaration M} (hg : ∀ d, (g d).2.dirty = true) :
    (modifyGet g : Declare M α).Dirties := fun d a d' h => by
  have hd := hg d
  rw [show g d = (a, d') from Except.ok.inj h] at hd
  exact hd

theorem Dirties.modify {g : Declaration M → Declaration M} (hg : ∀ d, (g d).dirty = true) :
    (modify g : Declare M PUnit).Dirties := fun d _ d' h => by
  obtain ⟨-, rfl⟩ := Prod.mk.inj (Except.ok.inj h)
  exact hg d

theorem Dirties.set {d₀ : Declaration M} (h : d₀.dirty = true) : (set d₀ : Declare M PUnit).Dirties :=
  fun _ _ d' hrun => by
    obtain ⟨-, rfl⟩ := Prod.mk.inj (Except.ok.inj hrun)
    exact h

theorem Dirties.throw (e : ConfigError) : (throw e : Declare M α).Dirties :=
  fun _ _ _ h => nomatch h

end Declare

namespace Declaration

open Declare

variable {M : Type → Type} [SlotStore M]

/-- The calls of the declaration's front end. -/
inductive FrontEnd : {α : Type} → Declare M α → Prop
  | setRenderExtent (width height : UInt32) (format : Format) :
      FrontEnd (setRenderExtent width height format)
  | buffer (name : String) (desc : BufDesc) (lifetime : Lifetime) :
      FrontEnd (buffer name desc lifetime)
  | image (name : String) (desc : ImgDesc) (lifetime : Lifetime) :
      FrontEnd (image name desc lifetime)
  | shader (path : String) (stage : UInt32) : FrontEnd (shader path stage)
  | program (name : String) (shaders : List Key) : FrontEnd (program name shaders)
  | sampler (name : String) (magFilter minFilter addressMode : Int32) :
      FrontEnd (sampler name magFilter minFilter addressMode)
  | bindlessTable (name : String) (resources : List ResKey) :
      FrontEnd (bindlessTable name resources)
  | pass (name : String) (queue : QueueClass) : FrontEnd (pass name queue)
  | setProgram (pass program : Key) : FrontEnd (setProgram pass program)
  | useBindless (pass table : Key) : FrontEnd (useBindless pass table)
  | read (pass : Key) (resource : ResKey) (binding : UInt32) (access : Access) :
      FrontEnd (read pass resource binding access)
  | write (pass : Key) (resource : ResKey) (binding : UInt32) (access : Access) :
      FrontEnd (write pass resource binding access)
  | aliasOf (base : ResKey) : FrontEnd (aliasOf base)
  | setPresentImage (res : ResKey) : FrontEnd (setPresentImage res)
  | remove (entry : EntryKey) : FrontEnd (remove entry)

/-- **Every call of the front end that succeeds marks the declaration dirty.** Each ends in a
step that sets the flag; the checks before it may fail, but do not matter once it ran. -/
theorem FrontEnd.dirties {α : Type} {m : Declare M α} (h : FrontEnd m) : m.Dirties := by
  cases h with
  | setRenderExtent => exact Dirties.modify fun _ => rfl
  | buffer => exact Dirties.modifyGet fun _ => rfl
  | image =>
    unfold Declaration.image
    dsimp only
    -- a render-sized image with a format fails before the insert
    split
    · exact Dirties.bind fun _ => Dirties.modifyGet fun _ => rfl
    · exact Dirties.modifyGet fun _ => rfl
  | shader => exact Dirties.modifyGet fun _ => rfl
  | program =>
    unfold Declaration.program
    exact Dirties.bind fun _ => Dirties.modifyGet fun _ => rfl
  | sampler => exact Dirties.modifyGet fun _ => rfl
  | bindlessTable => exact Dirties.bind fun _ => Dirties.modifyGet fun _ => rfl
  | pass => exact Dirties.modifyGet fun _ => rfl
  | setProgram =>
    refine Dirties.bind fun _ => ?_
    dsimp only
    split
    · exact Dirties.bind fun _ => Dirties.bind fun _ => Dirties.modify fun _ => rfl
    · exact Dirties.bind fun _ => Dirties.modify fun _ => rfl
  | useBindless =>
    refine Dirties.bind fun _ => ?_
    dsimp only
    split
    · exact Dirties.bind fun _ => Dirties.bind fun _ => Dirties.modify fun _ => rfl
    · exact Dirties.bind fun _ => Dirties.modify fun _ => rfl
  | read => exact Dirties.bind fun _ => Dirties.bind fun _ => Dirties.modify fun _ => rfl
  | write =>
    -- the minted version does not mark the declaration, the recorded write after it does
    exact Dirties.bind fun _ => Dirties.bind fun _ => Dirties.bind fun _ =>
      (Dirties.modify fun _ => rfl).bind_pure _
  | aliasOf => exact Dirties.bind fun _ => Dirties.bind fun _ => (Dirties.modify fun _ => rfl).bind_pure _
  | setPresentImage =>
    refine Dirties.bind fun _ => ?_
    split
    · exact Dirties.modify fun _ => rfl
    · exact Dirties.throw _
  | remove =>
    refine Dirties.bind fun _ => ?_
    dsimp only
    -- every kind of entry, removed or unknown, ends in the same marking `set`
    split <;> split <;> exact Dirties.bind fun _ => Dirties.set rfl

theorem checkRes_run (key : ResKey) (d : Declaration M) :
    (checkRes key).run d = if d.hasRes key then .ok ((), d) else
      .error (.unknownHandle (if key.kind = .buffer then .buffer else .image) key.slot) := by
  cases h : d.hasRes key with
  | false =>
    simp [checkRes, h]
    rfl
  | true =>
    simp [checkRes, h]
    rfl

theorem resourceRef_markClean (d : Declaration M) : d.markClean.resourceRef = d.resourceRef := by
  funext ids key
  unfold resourceRef
  -- the check reads the declaration, and what follows it ignores the state the check leaves
  rw [checkRes_run, checkRes_run, show d.markClean.hasRes key = d.hasRes key from rfl]
  split <;> rfl

theorem records_markClean (d : Declaration M) : d.markClean.records = d.records := by
  have hi : d.markClean.interactionPayload = d.interactionPayload := by
    funext ids i
    unfold interactionPayload
    rw [resourceRef_markClean]
  unfold records
  rw [resourceRef_markClean, hi]
  rfl

/-- Marking a declaration clean does not change what it encodes to. -/
theorem encode_markClean (d : Declaration M) : d.markClean.encode = d.encode := by
  unfold encode
  rw [records_markClean]
  rfl

end Declaration

/-! ### The kept bake is fresh -/

namespace Session

/-- The session's bake is fresh: while the declaration is clean, the bake is one that baking the
declaration's encoded stream with the session's options returns, and the session has that
stream's ids. -/
def Fresh (s : Session) : Prop :=
  ∀ b, s.baked = some b → s.declaration.dirty = false →
    ∃ E, Returns s.declaration.encode E ∧ s.ids = some E.ids ∧
      Returns (RenderGraph.bake E.bytes s.options) b

theorem fresh_of_baked_none {s : Session} (h : s.baked = none) : Fresh s := by
  intro b hb
  rw [h] at hb
  cases hb

/-- A bake keeps the session's bake fresh: it reuses a fresh bake, keeps none, or keeps the bake
it just made of the declaration. -/
theorem bake_fresh : Triple Fresh bake fun _ s => Fresh s :=
  Triple.of_eq fun s₀ h₀ => (bake_step s₀).imp fun r s hstep => by
    cases hstep with
    | reuse => exact h₀
    | rebaked _ hE hb =>
      intro b' hb' _
      obtain rfl := Option.some.inj hb'
      exact ⟨_, by rw [Declaration.encode_markClean]; exact hE, rfl, hb⟩
    | encodeFails | bakeFails | createFails | mismatch => exact fresh_of_baked_none rfl

/-- A change that marks the declaration dirty keeps the bake fresh, whether it fails or not. -/
theorem declare_fresh {α : Type} {m : Declare SlotMap α} (hm : m.Dirties) :
    Triple Fresh (declare m) fun _ s => Fresh s := by
  unfold Session.declare
  refine Triple.get_bind fun s₀ => ?_
  split
  · rename_i a d hrun
    refine Triple.modify_bind (Triple.pure fun s hs => ?_)
    obtain ⟨s', ⟨-, rfl⟩, rfl⟩ := hs
    -- the changed declaration is dirty, so nothing is claimed of the bake
    intro b _ hclean
    rw [show d.dirty = true from hm _ _ _ hrun] at hclean
    cases hclean
  · exact Triple.throw fun s hs => hs.1

/-- New options drop the bake; the same options keep it. -/
theorem setOptions_fresh (options : BakeOptions) :
    Triple Fresh (setOptions options) fun _ s => Fresh s := by
  unfold Session.setOptions
  refine Triple.modify fun s hs => ?_
  split
  · exact hs
  · exact fresh_of_baked_none rfl

/-- A run keeps the bake fresh: it bakes, then changes only the backend. -/
theorem run_fresh : Triple Fresh run fun _ s => Fresh s := by
  unfold Session.run
  refine Triple.bind bake_fresh (fun _ => ?_) fun _ _ hs => hs
  refine Triple.get_bind fun s₀ => ?_
  refine Triple.step_bind (fun _ _ => ?_) fun _ _ s hs => hs.1
  exact Triple.modify fun s hs => hs.1

/-- A call the front end offers: a change is one of the declaration's front-end calls; setting
options, baking and running are calls as they are. -/
def Op.FrontEnd : Op → Prop
  | .declare m => Declaration.FrontEnd m
  | _ => True

/-- The session's bake is fresh, and the backend holds its graph. -/
def Cached (s : Session) : Prop := Synced s ∧ Fresh s

/-- Every front-end call keeps the session's bake fresh. -/
theorem Op.call_fresh {op : Op} (hop : op.FrontEnd) : Triple Fresh op.call fun _ s => Fresh s := by
  cases op with
  | declare m =>
    exact Triple.bind (declare_fresh (Declaration.FrontEnd.dirties hop))
      (fun _ => Triple.pure fun _ hs => hs) fun _ _ hs => hs
  | setOptions options => exact setOptions_fresh options
  | bake => exact Triple.bind bake_fresh (fun _ => Triple.pure fun _ hs => hs) fun _ _ hs => hs
  | run => exact run_fresh

/-- Every front-end call keeps the session's bake fresh and the backend in step with it. -/
theorem Op.call_cached {op : Op} (hop : op.FrontEnd) : Triple Cached op.call fun _ s => Cached s :=
  fun s j hs => ⟨op.call_synced s j hs.1, Op.call_fresh hop s j hs.2⟩

/-- **Every sequence of front-end calls keeps the session's bake fresh and the backend in step
with it.** After each call, a session with a clean declaration and a bake holds one that baking
the declaration's stream with the current options returns, with the stream's ids, and the backend
holds the bake's graph, created and baked. -/
theorem performs_cached (ops : List Op) (hops : ∀ op ∈ ops, op.FrontEnd) :
    Performs Cached ops Cached := by
  induction ops with
  | nil => exact Performs.nil
  | cons op ops ih =>
    exact Performs.cons (Op.call_cached (hops op (List.mem_cons_self ..)))
      (ih fun o ho => hops o (List.mem_cons_of_mem _ ho))

/-! ### Failures -/

/-- A change that fails leaves the session as it was. -/
theorem declare_error {α : Type} (m : Declare SlotMap α) (s₀ : Session) :
    Triple (· = s₀) (declare m) fun r s => ∀ e, r = .error e → s = s₀ := by
  unfold Session.declare
  refine Triple.get_bind_eq ?_
  split
  · exact Triple.modify_bind (Triple.pure fun _ _ _ h => nomatch h)
  · exact Triple.throw fun s hs _ _ => hs

/-- A bake that fails leaves the session without a bake. -/
theorem bake_error (s₀ : Session) :
    Triple (· = s₀) bake fun r s => ∀ e, r = .error e → s.baked = none :=
  (bake_step s₀).imp fun r s hstep e he => by
    subst he
    exact hstep.baked_of_error

/-- **A run submits only after its bake succeeds.** It leaves the backend's count of submits as
it was, or it succeeded, with a bake, after one more submit. So after a failed bake, runs submit
nothing until one of their bakes succeeds. -/
theorem run_submits (s₀ : Session) :
    Triple (· = s₀) run fun r s => s.backend.submits = s₀.backend.submits ∨
      (r = .ok () ∧ s.baked.isSome ∧ s.backend.submits = s₀.backend.submits + 1) := by
  unfold Session.run
  refine Triple.bind (bake_step s₀) (fun b => ?_) fun e s hstep => .inl hstep.submits
  refine Triple.get_bind fun s₁ => ?_
  refine Triple.step_bind (fun backend hsubmit => ?_) fun _ _ _ hs => ?_
  · refine Triple.modify fun s hs => .inr ⟨rfl, ?_, ?_⟩
    · obtain ⟨hstep, rfl⟩ := hs
      simp [hstep.baked_of_ok]
    · obtain ⟨hstep, rfl⟩ := hs
      obtain ⟨g, sim, -, -, -, rfl⟩ := DryRun.submit_returns hsubmit
      exact congrArg (· + 1) hstep.submits
  · obtain ⟨hstep, rfl⟩ := hs
    exact .inl hstep.submits

/-- **A bake fails with a backend error only for a graph that does not fit its output stream.**
The declaration encoded and its stream baked, but the baked graph does not fit the words of its
output stream; for every graph that fits, the backend reads the stream back and accepts it. -/
theorem bake_backend_error (s₀ : Session) :
    Triple (· = s₀) bake fun r _ => ∀ e, r = .error (.backend e) →
      ∃ E b, Returns s₀.declaration.encode E ∧ Returns (RenderGraph.bake E.bytes s₀.options) b ∧
        ¬b.baked.Fits :=
  (bake_step s₀).imp fun r s hstep e he => by
    cases hstep with
    | reuse => cases he
    | encodeFails => cases he
    | bakeFails => cases he
    | createFails _ hE hb hdec =>
      refine ⟨_, _, hE, hb, fun hfit => ?_⟩
      rw [BakedGraph.decode_encode hfit] at hdec
      cases hdec
    | mismatch _ hE hb hg hne =>
      refine ⟨_, _, hE, hb, fun hfit => hne ?_⟩
      rw [BakedGraph.decode_encode hfit] at hg
      exact (Except.ok.inj hg).symm
    | rebaked => cases he

end Session

end RenderGraph
