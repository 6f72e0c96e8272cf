import Mathlib
import RenderGraph.Log
/-!
# Values of logged computations

A logged computation appends records to its journal and never reads them, so its value does not
depend on where the journal stood when it started. `Logged.Yields m a` says that `m` has the
value `a` from every journal. The lemmas below build such facts for `pure`, `log`, binds and
`for` loops, so that a stage written as a loop with log calls is shown to compute a plain fold.

`Logged.Ensures m P` says that every value `m` may have satisfies `P`; with `Ensures.foldlM` it
carries an invariant through a logged fold.

A stage that may fail runs in `ExceptT ε Logged`. `Logged.Returns m a` says that `m` returns `a`
from some journal; it is how the statements of this library take a successful run as a
hypothesis. A successful bind splits into successful parts (`Returns.bind`), and a computation
that always yields `.ok a'` returns nothing but `a'` (`Returns.eq_of_yields`).

`Logged.Fails m e` says that `m` fails with `e` from some journal, and `Logged.Succeeds m P` that
it returns a value satisfying `P` from every journal. A failing bind failed in its first part or
in the rest (`Fails.bind`), and a computation that always succeeds never fails
(`Succeeds.not_fails`): this is how a stage is shown never to raise an error.

`Logged.Determined m` says that `m` has one value whatever journal it starts from, without
naming it; binds, folds, logs and throws of determined parts are determined. With it, a value
computed from the empty journal is the value from every journal (`Determined.yields`).

A pure fold that may fail keeps an invariant kept by each successful step (`Except.foldlM_inv`),
and succeeds when each of its steps does (`Except.foldlM_all`).
-/

namespace RenderGraph

namespace Logged

variable {ε α β : Type}

/-- `m` has the value `a`, whatever journal it starts from. -/
def Yields (m : Logged α) (a : α) : Prop := ∀ j, (m.run j).1 = a

/-- Every value `m` has, whatever journal it starts from, satisfies `P`. -/
def Ensures (m : Logged α) (P : α → Prop) : Prop := ∀ j, P (m.run j).1

/-- `m` returns `a` when started from some journal. -/
def Returns (m : ExceptT ε Logged α) (a : α) : Prop := ∃ j, (m.run.run j).1 = .ok a

theorem Yields.pure (a : α) : Yields (Pure.pure a : Logged α) a := fun _ => rfl

theorem Yields.log (level : Level) (target text : String) :
    Yields (RenderGraph.log level target text) () := fun _ => rfl

theorem Yields.bind {m : Logged α} {f : α → Logged β} {a : α} {b : β} (hm : Yields m a)
    (hf : Yields (f a) b) : Yields (m >>= f) b := by
  intro j
  rw [StateT.run_bind]
  rcases hr : m.run j with ⟨a', j'⟩
  obtain rfl : a' = a := by rw [← hm j, hr]
  exact hf j'

/-- A loop whose body yields the next state of a fold computes that fold. -/
theorem Yields.forIn {xs : List α} {b : β} {f : α → β → Logged (ForInStep β)} {step : β → α → β}
    (hf : ∀ a b, Yields (f a b) (.yield (step b a))) : Yields (ForIn.forIn xs b f) (xs.foldl step b) := by
  induction xs generalizing b with
  | nil => exact Yields.pure b
  | cons a rest ih =>
    rw [List.forIn_cons]
    exact Yields.bind (hf a b) ih

theorem Ensures.pure {a : α} {P : α → Prop} (h : P a) : Ensures (Pure.pure a : Logged α) P :=
  fun _ => h

theorem Ensures.bind {m : Logged α} {f : α → Logged β} {Q : α → Prop} {P : β → Prop}
    (hm : Ensures m Q) (hf : ∀ a, Q a → Ensures (f a) P) : Ensures (m >>= f) P := by
  intro j
  rw [StateT.run_bind]
  exact hf _ (hm j) _

/-- A log record followed by `f` ensures what `f` ensures. -/
theorem Ensures.log_bind {level : Level} {target text : String} {f : Unit → Logged β}
    {P : β → Prop} (hf : Ensures (f ()) P) :
    Ensures (RenderGraph.log level target text >>= f) P :=
  Ensures.bind (Q := fun _ => True) (fun _ => trivial) fun _ _ => hf

/-- A fold whose every step keeps an invariant ends in a state satisfying it. -/
theorem Ensures.foldlM {xs : List α} {f : β → α → Logged β} {I : β → Prop} {init : β}
    (hinit : I init) (hstep : ∀ acc x, x ∈ xs → I acc → Ensures (f acc x) I) :
    Ensures (xs.foldlM f init) I := by
  induction xs generalizing init with
  | nil => exact Ensures.pure hinit
  | cons x rest ih =>
    rw [List.foldlM_cons]
    refine Ensures.bind (hstep init x List.mem_cons_self hinit) fun acc hacc => ?_
    exact ih hacc fun acc y hy => hstep acc y (List.mem_cons_of_mem x hy)

theorem Yields.run_pure (a : α) : Yields (Pure.pure a : ExceptT ε Logged α).run (.ok a) :=
  fun _ => rfl

theorem Yields.run_lift {m : Logged α} {a : α} (h : Yields m a) :
    Yields (liftM m : ExceptT ε Logged α).run (.ok a) := by
  show Yields (m >>= fun a => Pure.pure (Except.ok a)) _
  exact Yields.bind h (Yields.pure _)

theorem Yields.run_bind {m : ExceptT ε Logged α} {f : α → ExceptT ε Logged β} {a : α}
    {e : Except ε β} (hm : Yields m.run (.ok a)) (hf : Yields (f a).run e) :
    Yields (m >>= f).run e := by
  rw [ExceptT.run_bind]
  exact Yields.bind hm hf

/-- A failing loop whose body yields the next state of a fold computes that fold. -/
theorem Yields.run_forIn {xs : List α} {b : β} {f : α → β → ExceptT ε Logged (ForInStep β)}
    {step : β → α → β} (hf : ∀ a b, Yields (f a b).run (.ok (.yield (step b a)))) :
    Yields (ForIn.forIn xs b f).run (.ok (xs.foldl step b)) := by
  induction xs generalizing b with
  | nil => exact Yields.run_pure b
  | cons a rest ih =>
    rw [List.forIn_cons]
    exact Yields.run_bind (hf a b) ih

/-- A successful bind is a successful first part followed by a successful rest. -/
theorem Returns.bind {m : ExceptT ε Logged α} {f : α → ExceptT ε Logged β} {b : β}
    (h : Returns (m >>= f) b) : ∃ a, Returns m a ∧ Returns (f a) b := by
  obtain ⟨j, hj⟩ := h
  rw [ExceptT.run_bind, StateT.run_bind] at hj
  rcases hr : m.run.run j with ⟨r, j'⟩
  rw [hr] at hj
  cases r with
  | ok a => exact ⟨a, ⟨j, by rw [hr]⟩, ⟨j', hj⟩⟩
  | error e => cases hj

theorem Returns.eq_of_yields {m : ExceptT ε Logged α} {a a' : α} (h : Returns m a)
    (hy : Yields m.run (.ok a')) : a = a' := by
  obtain ⟨j, hj⟩ := h
  rw [hy j] at hj
  exact (Except.ok.inj hj).symm

/-- A computation that yields `.ok a` from every journal returns `a`. -/
theorem Returns.of_yields {m : ExceptT ε Logged α} {a : α} (h : Yields m.run (.ok a)) :
    Returns m a :=
  ⟨#[], h #[]⟩

theorem Returns.not_throw {e : ε} {a : α} : ¬Returns (throw e : ExceptT ε Logged α) a := by
  rintro ⟨j, hj⟩
  cases hj

/-- A successful loop ends in a state that satisfies an invariant kept by every successful run
of its body. -/
theorem Returns.forIn {xs : List α} {init out : β} {f : α → β → ExceptT ε Logged (ForInStep β)}
    {I : β → Prop} (h : Returns (ForIn.forIn xs init f) out) (hinit : I init)
    (hstep : ∀ x ∈ xs, ∀ acc step, I acc → Returns (f x acc) step → I step.value) : I out := by
  induction xs generalizing init with
  | nil =>
    obtain rfl := h.eq_of_yields (Yields.run_pure init)
    exact hinit
  | cons x rest ih =>
    rw [List.forIn_cons] at h
    obtain ⟨step, hx, hrest⟩ := h.bind
    have hI := hstep x List.mem_cons_self init step hinit hx
    cases step with
    | done b =>
      obtain rfl := hrest.eq_of_yields (Yields.run_pure b)
      exact hI
    | yield b => exact ih hrest hI fun y hy => hstep y (List.mem_cons_of_mem x hy)

/-- A lifted logged computation returns what it computes from some journal. -/
theorem Returns.lift {m : Logged α} {a : α} (h : Returns (liftM m : ExceptT ε Logged α) a) :
    ∃ j, (m.run j).1 = a := by
  obtain ⟨j, hj⟩ := h
  exact ⟨j, Except.ok.inj hj⟩

/-- A successful fold ends in a state that satisfies an invariant kept by every successful step. -/
theorem Returns.foldlM {xs : List α} {f : β → α → ExceptT ε Logged β} {I : β → Prop}
    {init out : β} (h : Returns (xs.foldlM f init) out) (hinit : I init)
    (hstep : ∀ acc x b, x ∈ xs → I acc → Returns (f acc x) b → I b) : I out := by
  induction xs generalizing init with
  | nil =>
    obtain rfl := h.eq_of_yields (Yields.run_pure init)
    exact hinit
  | cons x rest ih =>
    rw [List.foldlM_cons] at h
    obtain ⟨b, hx, hrest⟩ := h.bind
    exact ih hrest (hstep init x b List.mem_cons_self hinit hx)
      fun acc y c hy => hstep acc y c (List.mem_cons_of_mem x hy)

/-- What each step of a fold establishes for its element, and every later step keeps, holds of
every element at the end. -/
theorem Ensures.foldlM_all {xs : List α} {f : β → α → Logged β} {P : α → β → Prop} {init : β}
    (hstep : ∀ acc x, x ∈ xs → Ensures (f acc x) (P x))
    (hkeep : ∀ acc x y, x ∈ xs → P y acc → Ensures (f acc x) (P y)) :
    Ensures (xs.foldlM f init) fun out => ∀ x ∈ xs, P x out := by
  induction xs generalizing init with
  | nil => exact Ensures.pure (by simp)
  | cons x rest ih =>
    rw [List.foldlM_cons]
    refine Ensures.bind (hstep init x List.mem_cons_self) fun acc hx j => ?_
    -- the rest of the fold keeps what this step established, and establishes the rest
    have hkept := Ensures.foldlM (I := P x) hx
      (fun acc' y hy h => hkeep acc' y x (List.mem_cons_of_mem x hy) h) j
    have hrest : Ensures (rest.foldlM f acc) _ :=
      ih (fun acc' y hy => hstep acc' y (List.mem_cons_of_mem x hy))
        fun acc' y z hy h => hkeep acc' y z (List.mem_cons_of_mem x hy) h
    have hrest := hrest j
    intro y hy
    rcases List.mem_cons.mp hy with rfl | hy
    · exact hkept
    · exact hrest y hy

/-! ### Failing and succeeding runs -/

/-- `m` fails with `e` when started from some journal. -/
def Fails (m : ExceptT ε Logged α) (e : ε) : Prop := ∃ j, (m.run.run j).1 = .error e

/-- `m` returns a value satisfying `P`, whatever journal it starts from. -/
def Succeeds (m : ExceptT ε Logged α) (P : α → Prop) : Prop :=
  ∀ j, ∃ a, (m.run.run j).1 = .ok a ∧ P a

/-- A failing bind failed in its first part, or in its rest after the first part returned. -/
theorem Fails.bind {m : ExceptT ε Logged α} {f : α → ExceptT ε Logged β} {e : ε}
    (h : Fails (m >>= f) e) : Fails m e ∨ ∃ a, Returns m a ∧ Fails (f a) e := by
  obtain ⟨j, hj⟩ := h
  rw [ExceptT.run_bind, StateT.run_bind] at hj
  rcases hr : m.run.run j with ⟨r, j'⟩
  rw [hr] at hj
  cases r with
  | ok a => exact .inr ⟨a, ⟨j, by rw [hr]⟩, ⟨j', hj⟩⟩
  | error e' =>
    cases hj
    exact .inl ⟨j, by rw [hr]⟩

theorem Fails.throw {e e' : ε} (h : Fails (throw e' : ExceptT ε Logged α) e) : e = e' := by
  obtain ⟨j, hj⟩ := h
  cases hj
  rfl

theorem Succeeds.pure {a : α} {P : α → Prop} (h : P a) :
    Succeeds (Pure.pure a : ExceptT ε Logged α) P :=
  fun _ => ⟨a, rfl, h⟩

theorem Succeeds.of_yields {m : ExceptT ε Logged α} {a : α} (h : Yields m.run (.ok a)) :
    Succeeds m (· = a) :=
  fun j => ⟨a, h j, rfl⟩

theorem Succeeds.lift {m : Logged α} {P : α → Prop} (h : Ensures m P) :
    Succeeds (liftM m : ExceptT ε Logged α) P :=
  fun j => ⟨(m.run j).1, rfl, h j⟩

theorem Succeeds.bind {m : ExceptT ε Logged α} {f : α → ExceptT ε Logged β} {Q : α → Prop}
    {P : β → Prop} (hm : Succeeds m Q) (hf : ∀ a, Q a → Succeeds (f a) P) :
    Succeeds (m >>= f) P := by
  intro j
  obtain ⟨a, ha, hQ⟩ := hm j
  rw [ExceptT.run_bind, StateT.run_bind]
  rcases hr : m.run.run j with ⟨r, j'⟩
  rw [hr] at ha
  cases ha
  exact hf a hQ j'

/-- A logged line followed by `f` succeeds as `f` does. -/
theorem Succeeds.log_bind {level : Level} {target text : String} {f : Unit → ExceptT ε Logged β}
    {P : β → Prop} (hf : Succeeds (f ()) P) :
    Succeeds (liftM (RenderGraph.log level target text) >>= f) P :=
  Succeeds.bind (Q := fun _ => True) (Succeeds.lift fun _ => trivial) fun _ _ => hf

theorem Succeeds.not_fails {m : ExceptT ε Logged α} {P : α → Prop} (h : Succeeds m P) {e : ε} :
    ¬Fails m e := by
  rintro ⟨j, hj⟩
  obtain ⟨a, ha, -⟩ := h j
  rw [ha] at hj
  cases hj

/-- A pure computation does not fail. -/
theorem Fails.not_pure {a : α} {e : ε} : ¬Fails (Pure.pure a : ExceptT ε Logged α) e :=
  (Succeeds.pure (P := fun _ => True) trivial).not_fails

/-- What a computation that always succeeds returns satisfies its promise. -/
theorem Succeeds.of_returns {m : ExceptT ε Logged α} {P : α → Prop} (h : Succeeds m P) {a : α}
    (ha : Returns m a) : P a := by
  obtain ⟨j, hj⟩ := ha
  obtain ⟨a', ha', hP⟩ := h j
  rw [hj] at ha'
  cases ha'
  exact hP

/-- A run that returns, followed by one that always succeeds, returns. -/
theorem Returns.bind_succeeds {m : ExceptT ε Logged α} {f : α → ExceptT ε Logged β} {a : α}
    {P : β → Prop} (hm : Returns m a) (hf : Succeeds (f a) P) : ∃ b, Returns (m >>= f) b ∧ P b := by
  obtain ⟨j, hj⟩ := hm
  rcases hr : m.run.run j with ⟨r, j'⟩
  rw [hr] at hj
  cases hj
  obtain ⟨b, hb, hP⟩ := hf j'
  refine ⟨b, ⟨j, ?_⟩, hP⟩
  rw [ExceptT.run_bind, StateT.run_bind, hr]
  exact hb

theorem Succeeds.imp {m : ExceptT ε Logged α} {P Q : α → Prop} (h : Succeeds m P)
    (hPQ : ∀ a, P a → Q a) : Succeeds m Q := by
  intro j
  obtain ⟨a, ha, hP⟩ := h j
  exact ⟨a, ha, hPQ a hP⟩

/-- Two promises of a computation that always succeeds hold of the one value it returns. -/
theorem Succeeds.and {m : ExceptT ε Logged α} {P Q : α → Prop} (hP : Succeeds m P)
    (hQ : Succeeds m Q) : Succeeds m fun a => P a ∧ Q a := by
  intro j
  obtain ⟨a, ha, hPa⟩ := hP j
  obtain ⟨a', ha', hQa⟩ := hQ j
  rw [ha] at ha'
  cases ha'
  exact ⟨a, ha, hPa, hQa⟩

/-- A computation whose value, from every journal, is a success that `f` maps to `b` succeeds with
a value that `f` maps to `b`. -/
theorem Succeeds.of_toOption {m : ExceptT ε Logged α} {f : α → β} {b : β}
    (h : ∀ j, (m.run.run j).1.toOption.map f = some b) : Succeeds m (f · = b) := by
  intro j
  have hj := h j
  cases hr : (m.run.run j).1 with
  | error e =>
    rw [hr] at hj
    cases hj
  | ok a =>
    rw [hr] at hj
    exact ⟨a, rfl, Option.some.inj hj⟩

/-- A loop whose body always continues, establishing something of its element that later steps
keep, succeeds with it for every element, and keeps what held before it. -/
theorem Succeeds.forIn_all {xs : List α} {init : β} {f : α → β → ExceptT ε Logged (ForInStep β)}
    {P : α → β → Prop}
    (hstep : ∀ x ∈ xs, ∀ acc, Succeeds (f x acc) fun step =>
      ∃ b, step = .yield b ∧ P x b ∧ ∀ y, P y acc → P y b) :
    Succeeds (ForIn.forIn xs init f) fun out => (∀ y, P y init → P y out) ∧ ∀ x ∈ xs, P x out := by
  induction xs generalizing init with
  | nil => exact Succeeds.pure ⟨fun _ h => h, by simp⟩
  | cons x rest ih =>
    rw [List.forIn_cons]
    refine Succeeds.bind (hstep x List.mem_cons_self init) fun step ⟨b, hb, hx, hkeep⟩ => ?_
    subst hb
    -- the rest of the loop keeps what this step established, and establishes the rest
    have hrest : Succeeds (ForIn.forIn rest b f) _ :=
      ih fun y hy => hstep y (List.mem_cons_of_mem x hy)
    intro j
    obtain ⟨out, hout, hkept, hall⟩ := hrest j
    refine ⟨out, hout, fun y hy => hkept y (hkeep y hy), fun y hy => ?_⟩
    rcases List.mem_cons.mp hy with rfl | hy
    · exact hkept y hx
    · exact hall y hy

/-- A fold over `0, ..., n - 1` whose step at `i` takes an invariant at `i` to the invariant at
`i + 1` succeeds with the invariant at `n`. -/
theorem Succeeds.foldlM_range {n : Nat} {f : β → Nat → ExceptT ε Logged β} {I : Nat → β → Prop}
    {init : β} (hinit : I 0 init) (hstep : ∀ acc i, i < n → I i acc → Succeeds (f acc i) (I (i + 1))) :
    Succeeds ((List.range n).foldlM f init) (I n) := by
  induction n with
  | zero => exact Succeeds.pure hinit
  | succ n ih =>
    rw [List.range_succ, List.foldlM_append]
    refine Succeeds.bind (ih fun acc i hi => hstep acc i (by omega)) fun acc hacc => ?_
    rw [List.foldlM_cons]
    exact Succeeds.bind (hstep acc n (by omega) hacc) fun _ hb => Succeeds.pure hb

/-! ### Values that do not depend on the journal -/

/-- `m` has one value, whatever journal it starts from. -/
def Determined (m : Logged α) : Prop := ∃ a, Yields m a

/-- A determined computation has, from every journal, the value it has from the empty one. -/
theorem Determined.yields {m : Logged α} (h : Determined m) : Yields m (m.run #[]).1 := by
  obtain ⟨a, ha⟩ := h
  intro j
  rw [ha j, ha #[]]

theorem Determined.pure (a : α) : Determined (Pure.pure a : Logged α) := ⟨a, Yields.pure a⟩

theorem Determined.bind {m : Logged α} {f : α → Logged β} (hm : Determined m)
    (hf : ∀ a, Determined (f a)) : Determined (m >>= f) := by
  obtain ⟨a, ha⟩ := hm
  obtain ⟨b, hb⟩ := hf a
  exact ⟨b, ha.bind hb⟩

theorem Determined.run_pure (a : α) : Determined (Pure.pure a : ExceptT ε Logged α).run :=
  ⟨_, Yields.run_pure a⟩

theorem Determined.run_throw (e : ε) : Determined (throw e : ExceptT ε Logged α).run :=
  ⟨.error e, fun _ => rfl⟩

theorem Determined.run_throw_bind {f : α → ExceptT ε Logged β} (e : ε) :
    Determined (throw e >>= f : ExceptT ε Logged β).run :=
  ⟨.error e, fun _ => rfl⟩

theorem Determined.run_log (level : Level) (target text : String) :
    Determined (liftM (RenderGraph.log level target text) : ExceptT ε Logged Unit).run :=
  ⟨_, (Yields.log level target text).run_lift⟩

theorem Determined.run_bind {m : ExceptT ε Logged α} {f : α → ExceptT ε Logged β}
    (hm : Determined m.run) (hf : ∀ a, Determined (f a).run) : Determined (m >>= f).run := by
  rw [ExceptT.run_bind]
  refine hm.bind fun r => ?_
  cases r with
  | ok a => exact hf a
  | error e => exact Determined.pure _

theorem Determined.run_foldlM {xs : List α} {f : β → α → ExceptT ε Logged β} {init : β}
    (hf : ∀ b a, Determined (f b a).run) : Determined (xs.foldlM f init).run := by
  induction xs generalizing init with
  | nil => exact Determined.run_pure init
  | cons x rest ih =>
    rw [List.foldlM_cons]
    exact (hf init x).run_bind fun _ => ih

end Logged

/-! ### Folds that may fail -/

theorem Except.exists_of_bind_eq_ok {ε α β : Type} {x : Except ε α} {f : α → Except ε β} {b : β}
    (h : x >>= f = .ok b) : ∃ a, x = .ok a ∧ f a = .ok b := by
  cases x with
  | error e => cases h
  | ok a => exact ⟨a, rfl, h⟩

/-- A fold that may fail ends, when it succeeds, in a state satisfying an invariant that each
successful step keeps. -/
theorem Except.foldlM_inv {ε α β : Type} {f : β → α → Except ε β} {I : β → Prop} {xs : List α}
    {init out : β} (h : xs.foldlM f init = .ok out) (hinit : I init)
    (hstep : ∀ acc x b, x ∈ xs → I acc → f acc x = .ok b → I b) : I out := by
  induction xs generalizing init with
  | nil =>
    cases h
    exact hinit
  | cons x rest ih =>
    rw [List.foldlM_cons] at h
    obtain ⟨b, hx, hrest⟩ := Except.exists_of_bind_eq_ok h
    exact ih hrest (hstep init x b List.mem_cons_self hinit hx)
      fun acc y c hy => hstep acc y c (List.mem_cons_of_mem x hy)

/-- A fold whose every step succeeds succeeds; what each step establishes for its element and
every later step keeps holds of every element at the end. -/
theorem Except.foldlM_all {ε α β : Type} {f : β → α → Except ε β} {P : α → β → Prop} {xs : List α}
    (init : β) (hstep : ∀ acc x, x ∈ xs → ∃ b, f acc x = .ok b ∧ P x b ∧ ∀ y, P y acc → P y b) :
    ∃ out, xs.foldlM f init = .ok out ∧ (∀ y, P y init → P y out) ∧ ∀ x ∈ xs, P x out := by
  induction xs generalizing init with
  | nil => exact ⟨init, rfl, fun _ h => h, by simp⟩
  | cons x rest ih =>
    obtain ⟨b, hb, hx, hkeep⟩ := hstep init x List.mem_cons_self
    obtain ⟨out, hout, hkept, hall⟩ := ih b fun acc y hy => hstep acc y (List.mem_cons_of_mem x hy)
    refine ⟨out, by rw [List.foldlM_cons, hb]; exact hout, fun y hy => hkept y (hkeep y hy),
      fun y hy => ?_⟩
    rcases List.mem_cons.mp hy with rfl | hy
    · exact hkept y hx
    · exact hall y hy

/-- A map whose every step succeeds succeeds. -/
theorem Except.mapM_ok {ε α β : Type} {f : α → Except ε β} :
    ∀ {xs : List α}, (∀ x ∈ xs, ∃ y, f x = .ok y) → ∃ ys, xs.mapM f = .ok ys
  | [], _ => ⟨[], rfl⟩
  | x :: xs, h => by
    obtain ⟨y, hy⟩ := h x List.mem_cons_self
    obtain ⟨ys, hys⟩ := Except.mapM_ok fun z hz => h z (List.mem_cons_of_mem x hz)
    exact ⟨y :: ys, by rw [List.mapM_cons, hy, hys]; rfl⟩

/-- A successful map in `Except` relates the two lists entry by entry. -/
theorem Except.forall₂_of_mapM {ε α β : Type} {f : α → Except ε β} :
    ∀ {xs : List α} {ys : List β}, xs.mapM f = .ok ys → List.Forall₂ (fun x y => f x = .ok y) xs ys
  | [], ys, h => by
    obtain rfl : [] = ys := Except.ok.inj h
    exact .nil
  | x :: xs, ys, h => by
    rw [List.mapM_cons] at h
    obtain ⟨y, hy, h⟩ := Except.exists_of_bind_eq_ok h
    obtain ⟨ys', hys, h⟩ := Except.exists_of_bind_eq_ok h
    obtain rfl : y :: ys' = ys := Except.ok.inj h
    exact .cons hy (Except.forall₂_of_mapM hys)

end RenderGraph
