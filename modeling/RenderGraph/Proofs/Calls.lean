import RenderGraph.Proofs.Logged
import RenderGraph.Backend
/-!
# Calls on a dry-run backend

A client drives a dry-run backend with three calls: `create` with an output stream, `bake` with
a graph, and `submit`. `DryRun.call` makes one call the way a backend that is changed in place
takes it: a `create` or a `submit` that fails leaves the backend as it was, and `bake` records
its outcome in the baked flag either way. `DryRun.calls` makes a sequence of calls, each on the
backend the one before it left.

## What is proved

`call_law`: every call on every backend obeys `CallLaw`.

* `create` succeeds exactly when the stream decodes. The backend then holds the decoded graph,
  not yet baked; otherwise it is unchanged.
* `bake g` succeeds exactly when the created graph is `g`, and the baked flag becomes that
  outcome.
* `submit` fails with `NotBaked` unless a graph is created and baked. It fails with the
  simulation's error when the simulation fails, leaving the backend unchanged. Otherwise it
  holds the simulation's results and counts one more submit.

So only a successful submit changes the results of the last run or the count of submits
(`lastRun_call`, `submits_call`). Over any sequence of calls, the count grows by the number of
successful submits, and a sequence without one keeps the last run's results (`calls_submits`,
`calls_lastRun`). `calls_obey_laws` gathers both.
-/

namespace RenderGraph.DryRun

/-- A call a client makes on a dry-run backend. -/
inductive Call where
  | create (bytes : Bytes)
  | bake (g : BakedGraph)
  | submit

/-- Whether a call with its outcome is a submit that succeeded. -/
def Call.submitted : Call → Except BackendError Unit → Bool
  | .submit, .ok () => true
  | _, _ => false

/-- Makes one call: its outcome, and the backend after it. A failed create or submit leaves the
backend as it was. -/
def call (b : DryRun) : Call → Logged (Except BackendError Unit × DryRun)
  | .create bytes => do
    match ← (b.create bytes).run with
    | .ok b' => pure (.ok (), b')
    | .error e => pure (.error e, b)
  | .bake g => pure (b.bake g)
  | .submit => do
    match ← b.submit.run with
    | .ok b' => pure (.ok (), b')
    | .error e => pure (.error e, b)

/-- Makes calls one after the other: the outcome of each, and the backend after the last. -/
def calls (b : DryRun) : List Call → Logged (List (Except BackendError Unit) × DryRun)
  | [] => pure ([], b)
  | c :: cs => do
    let (res, b) ← b.call c
    let (rest, b) ← b.calls cs
    pure (res :: rest, b)

/-- The results of the last run: the executed passes, their timings and the frame time. -/
def lastRun (b : DryRun) : List Nat × List (Nat × Nanos) × Nanos :=
  (b.executed, b.timings, b.frameTime)

/-- What a call `c` on backend `b`, started from journal `j`, may do: `res` is its outcome and
`b'` the backend after it. -/
def CallLaw (b : DryRun) (j : Journal) : Call → Except BackendError Unit → DryRun → Prop
  | .create bytes, res, b' =>
    (∃ g, BakedGraph.decode bytes = .ok g ∧ res = .ok () ∧
      b' = { b with created := some g, baked := false }) ∨
    (∃ e, BakedGraph.decode bytes = .error e ∧ res = .error (.stream e) ∧ b' = b)
  | .bake g, res, b' =>
    (res = .ok () ↔ b.created = some g) ∧ b' = { b with baked := decide (b.created = some g) }
  | .submit, res, b' =>
    ((∀ g, b.created = some g → b.baked = false) ∧ res = .error .notBaked ∧ b' = b) ∨
    (∃ g e, b.created = some g ∧ b.baked = true ∧ ((Simulation.run g).run.run j).1 = .error e ∧
      res = .error e ∧ b' = b) ∨
    (∃ g sim, b.created = some g ∧ b.baked = true ∧ ((Simulation.run g).run.run j).1 = .ok sim ∧
      res = .ok () ∧ b' = { b with executed := sim.executed, timings := sim.timings, frameTime := sim.frameTime, submits := b.submits + 1 })

/-! ### One call -/

section OneCall

variable (b : DryRun) (j : Journal)

theorem call_create (bytes : Bytes) :
    ((b.call (.create bytes)).run j).1 =
      match BakedGraph.decode bytes with
      | .ok g => (.ok (), { b with created := some g, baked := false })
      | .error e => (.error (.stream e), b) := by
  cases h : BakedGraph.decode bytes with
  | ok g => simp only [call, create, h]; rfl
  | error e => simp only [call, create, h]; rfl

theorem call_submit :
    ((b.call .submit).run j).1 =
      match b.created, b.baked with
      | some g, true =>
        match ((Simulation.run g).run.run j).1 with
        | .ok sim => (.ok (), { b with executed := sim.executed, timings := sim.timings, frameTime := sim.frameTime, submits := b.submits + 1 })
        | .error e => (.error e, b)
      | _, _ => (.error .notBaked, b) := by
  rcases b with ⟨_ | g, _ | _, _, _, _, _⟩
  all_goals try rfl
  simp only [call, submit, ExceptT.run_bind, StateT.run_bind]
  -- the outcome of the simulation decides the outcome of the submit
  rcases (Simulation.run g).run.run j with ⟨_ | sim, j'⟩
  all_goals rfl

/-- **Every call obeys its law.** -/
theorem call_law (c : Call) :
    CallLaw b j c ((b.call c).run j).1.1 ((b.call c).run j).1.2 := by
  cases c with
  | create bytes =>
    rw [call_create]
    cases h : BakedGraph.decode bytes with
    | ok g => exact .inl ⟨g, h, rfl, rfl⟩
    | error e => exact .inr ⟨e, h, rfl, rfl⟩
  | bake g =>
    show CallLaw b j (.bake g) (b.bake g).1 (b.bake g).2
    unfold bake
    by_cases hg : b.created = some g
    · simp [CallLaw, hg]
    · simp [CallLaw, hg]
  | submit =>
    rw [call_submit]
    rcases b with ⟨_ | g, _ | _, executed, timings, frameTime, submits⟩
    · -- nothing created
      refine .inl ⟨?_, rfl, rfl⟩
      intro g hg
      cases hg
    · refine .inl ⟨?_, rfl, rfl⟩
      intro g hg
      cases hg
    · -- created, not baked
      exact .inl ⟨fun _ _ => rfl, rfl, rfl⟩
    · dsimp only
      cases hs : ((Simulation.run g).run.run j).1 with
      | error e => exact .inr (.inl ⟨g, e, rfl, rfl, hs, rfl, rfl⟩)
      | ok sim => exact .inr (.inr ⟨g, sim, rfl, rfl, hs, rfl, rfl⟩)

/-- A fresh backend has nothing to submit. -/
example : ((({} : DryRun).call .submit).run #[]).1.1 = .error .notBaked := rfl

variable {b j}

/-- A call that is not a successful submit keeps the results of the last run. -/
theorem lastRun_call {c : Call} (h : c.submitted ((b.call c).run j).1.1 = false) :
    ((b.call c).run j).1.2.lastRun = b.lastRun := by
  have hlaw := call_law b j c
  generalize ((b.call c).run j).1.1 = res at h hlaw
  generalize ((b.call c).run j).1.2 = b' at hlaw
  cases c with
  | create bytes =>
    rcases hlaw with ⟨g, -, -, rfl⟩ | ⟨e, -, -, rfl⟩ <;> rfl
  | bake g =>
    rw [hlaw.2]
    rfl
  | submit =>
    rcases hlaw with ⟨-, -, rfl⟩ | ⟨g, e, -, -, -, -, rfl⟩ | ⟨g, sim, -, -, -, rfl, -⟩
    · rfl
    · rfl
    · cases h

/-- A call adds one to the count of submits when it is a successful submit, and nothing
otherwise. -/
theorem submits_call (c : Call) :
    ((b.call c).run j).1.2.submits =
      b.submits + if c.submitted ((b.call c).run j).1.1 then 1 else 0 := by
  have hlaw := call_law b j c
  generalize ((b.call c).run j).1.1 = res at hlaw ⊢
  generalize ((b.call c).run j).1.2 = b' at hlaw
  cases c with
  | create bytes =>
    rcases hlaw with ⟨g, -, rfl, rfl⟩ | ⟨e, -, rfl, rfl⟩ <;> rfl
  | bake g =>
    rw [hlaw.2]
    simp [Call.submitted]
  | submit =>
    rcases hlaw with ⟨-, rfl, rfl⟩ | ⟨g, e, -, -, -, rfl, rfl⟩ | ⟨g, sim, -, -, -, rfl, rfl⟩ <;> rfl

end OneCall

/-! ### Sequences of calls -/

section Sequences

/-- The successful submits among calls with their outcomes. -/
def submittedCount (cs : List Call) (rs : List (Except BackendError Unit)) : Nat :=
  ((cs.zip rs).filter fun p => p.1.submitted p.2).length

theorem calls_cons (b : DryRun) (c : Call) (cs : List Call) (j : Journal) :
    ((b.calls (c :: cs)).run j) =
      let first := (b.call c).run j
      let rest := (first.1.2.calls cs).run first.2
      ((first.1.1 :: rest.1.1, rest.1.2), rest.2) := rfl

/-- After any sequence of calls, the count of submits has grown by the number of successful
submits among them. -/
theorem calls_submits (cs : List Call) :
    ∀ (b : DryRun) (j : Journal),
      ((b.calls cs).run j).1.2.submits =
        b.submits + submittedCount cs ((b.calls cs).run j).1.1 := by
  induction cs with
  | nil => intro b j; rfl
  | cons c cs ih =>
    intro b j
    rw [calls_cons]
    dsimp only
    rw [ih, submits_call]
    unfold submittedCount
    simp only [List.zip_cons_cons, List.filter_cons]
    -- the first call counts once when it is a successful submit
    cases c.submitted ((b.call c).run j).1.1
    · simp only [Bool.false_eq_true, if_false]
      omega
    · simp only [if_true, List.length_cons]
      omega

/-- A sequence of calls none of which is a successful submit keeps the results of the last
run. -/
theorem calls_lastRun (cs : List Call) :
    ∀ (b : DryRun) (j : Journal),
      (∀ p ∈ cs.zip ((b.calls cs).run j).1.1, p.1.submitted p.2 = false) →
        ((b.calls cs).run j).1.2.lastRun = b.lastRun := by
  induction cs with
  | nil => intro b j _; rfl
  | cons c cs ih =>
    intro b j h
    rw [calls_cons] at h ⊢
    dsimp only at h ⊢
    rw [List.zip_cons_cons] at h
    rw [ih _ _ fun p hp => h p (List.mem_cons_of_mem _ hp)]
    exact lastRun_call (h _ List.mem_cons_self)

end Sequences

/-- **The calls of a dry-run backend obey their laws**: every call on every backend does what
`CallLaw` says, so a failed create or submit changes nothing and a bake records its outcome in
the baked flag; and over every sequence of calls only the successful submits count, and only
they change the results of the last run. -/
theorem calls_obey_laws :
    (∀ (b : DryRun) (j : Journal) (c : Call),
      CallLaw b j c ((b.call c).run j).1.1 ((b.call c).run j).1.2) ∧
    ∀ (b : DryRun) (j : Journal) (cs : List Call),
      ((b.calls cs).run j).1.2.submits = b.submits + submittedCount cs ((b.calls cs).run j).1.1 ∧
      ((∀ p ∈ cs.zip ((b.calls cs).run j).1.1, p.1.submitted p.2 = false) →
        ((b.calls cs).run j).1.2.lastRun = b.lastRun) :=
  ⟨fun b j c => call_law b j c, fun b j cs => ⟨calls_submits cs b j, calls_lastRun cs b j⟩⟩

end RenderGraph.DryRun
