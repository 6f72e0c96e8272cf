import RenderGraph.Proofs.Dependencies
import RenderGraph.Proofs.Forests
import RenderGraph.Registry.Ingest
/-!
# What an ingested registry has registered

Every registry that `Registry.ingest` returns is well formed (`ingest_wf`): its alias forests
are forests that ingestion builds (`Forest.Reachable`) and register only registered resources, so
the root of every alias chain is a registered resource (`Wf.contains_baseOf`); and every
resource a pass reads or writes is registered. Later stages rely on both: the memory plan
describes the base of every registered resource, and the baked graph finds a bucket for every
resource a live pass touches.

Ingestion checks each handle when its record is read, and never unregisters anything. The proof
follows the records: a buffer or an image registers a free id as the root of a chain of its own
(`Wf.register`), a link or a look-up registers no other id (`Wf.link`, `Wf.setForest_find`), a
pass only names resources that were registered when it was read (`decodeInteractions_contains`),
the other records leave resources and forests alone, and the final flattening registers the same
ids (`Wf.flattenForests`).

Ingestion only appends to the journal, so what a stream ingests to does not depend on the journal
(`ingest_determined`): the registry computed from the empty journal is the one from every journal
(`ingest_yields`).
-/

namespace RenderGraph

open Logged

theorem Returns.bind_throw {α β : Type} {e : BakeError} {f : α → BakeM β} {b : β} :
    ¬Returns (throw e >>= f) b := by
  intro h
  obtain ⟨_, h, -⟩ := h.bind
  exact Returns.not_throw h

/-- A step that may fail with an alias error returns only what it computed. -/
theorem BakeM.eq_of_returns_ofAlias {α : Type} {e : Except AliasError α} {a : α}
    (h : Returns (BakeM.ofAlias e) a) : e = .ok a := by
  cases e with
  | ok a' => exact congrArg Except.ok (h.eq_of_yields (Yields.run_pure a')).symm
  | error err => exact absurd h Returns.not_throw

namespace Registry

/-- What ingestion keeps true of a registry: its forests are forests that ingestion builds and
register only registered resources, and every resource a pass reads or writes is registered. -/
structure Wf (r : Registry) : Prop where
  reachable : ∀ k, (r.forest k).Reachable
  registered : ∀ (k : ResKind) (id : Nat), (r.forest k).isRegistered id = true →
    r.contains (Res.mk k id) = true
  interaction_contains : ∀ p ∈ r.passes, ∀ i ∈ p.interactions, r.contains i.resource = true

variable {r r' : Registry}

/-- The base of a registered resource is registered: the root of an id a forest registers is
registered there, and an id it does not register is its own root. -/
theorem Wf.contains_baseOf (h : r.Wf) {res : Res} (hres : r.contains res = true) :
    r.contains (r.baseOf res) = true := by
  unfold baseOf
  cases hreg : (r.forest res.kind).isRegistered res.id with
  | true => exact h.registered _ _ ((h.reachable _).wf.isRegistered_root hreg)
  | false =>
    rw [Forest.root_of_fixed (Forest.up_of_not_registered hreg), Res.mk_kind_id]
    exact hres

/-- A registry whose forests are built by ingestion and register only registered resources, that
registers at least what a well-formed one registers and has its passes, is well formed. -/
theorem Wf.of_forests (h : r.Wf) (hreach : ∀ k, (r'.forest k).Reachable)
    (hreg : ∀ (k : ResKind) (id : Nat), (r'.forest k).isRegistered id = true →
      r'.contains (Res.mk k id) = true)
    (hcontains : ∀ res, r.contains res = true → r'.contains res = true)
    (hpasses : r'.passes = r.passes) : r'.Wf :=
  ⟨hreach, hreg, fun p hp i hi => hcontains _ (h.interaction_contains p (hpasses ▸ hp) i hi)⟩

/-- Well-formedness reads only the resource tables, the forests and the passes. -/
theorem Wf.of_eq (h : r.Wf) (hb : r'.buffers = r.buffers) (hi : r'.images = r.images)
    (hbf : r'.bufferForest = r.bufferForest) (hif : r'.imageForest = r.imageForest)
    (hp : r'.passes = r.passes) : r'.Wf := by
  have hf : ∀ k, r'.forest k = r.forest k := by
    intro k
    cases k <;> simp [forest, hbf, hif]
  have hc : ∀ res, r'.contains res = r.contains res := by
    intro res
    cases res <;> simp [contains, buffer?, image?, hb, hi]
  refine h.of_forests (fun k => hf k ▸ h.reachable k) (fun k id hid => ?_)
    (fun res hres => (hc res).trans hres) hp
  rw [hc]
  rw [hf] at hid
  exact h.registered k id hid

/-! ### Records -/

theorem contains_setForest (k : ResKind) (f : Forest) (res : Res) :
    (r.setForest k f).contains res = r.contains res := by
  cases k <;> cases res <;> rfl

theorem passes_setForest (k : ResKind) (f : Forest) : (r.setForest k f).passes = r.passes := by
  cases k <;> rfl

theorem forest_setForest (k : ResKind) (f : Forest) (k' : ResKind) :
    (r.setForest k f).forest k' = if k' = k then f else r.forest k' := by
  cases k <;> cases k' <;> rfl

/-- Replacing a forest by one that ingestion builds and that registers the same ids keeps a
registry well formed. -/
theorem Wf.setForest (h : r.Wf) {k : ResKind} {f : Forest} (hreach : f.Reachable)
    (hreg : ∀ y, f.isRegistered y = (r.forest k).isRegistered y) : (r.setForest k f).Wf := by
  refine h.of_forests (fun k' => ?_) (fun k' id hid => ?_)
    (fun res hres => by rw [contains_setForest]; exact hres) (passes_setForest _ _)
  · rw [forest_setForest]
    split
    · exact hreach
    · exact h.reachable k'
  · rw [contains_setForest]
    rw [forest_setForest] at hid
    split at hid
    · rename_i hk
      subst hk
      rw [hreg] at hid
      exact h.registered _ _ hid
    · exact h.registered _ _ hid

/-- Linking keeps a registry well formed, and changes neither its resources nor its passes. -/
theorem Wf.link (h : r.Wf) {base member : Res} (hl : Returns (r.link base member) r') :
    r'.Wf ∧ (∀ res, r'.contains res = r.contains res) ∧ r'.passes = r.passes := by
  unfold Registry.link at hl
  generalize hp : (r.forest base.kind).link base.id member.id = p at hl
  obtain ⟨result, f⟩ := p
  obtain ⟨_, -, hl⟩ := hl.bind
  obtain ⟨_, -, hl⟩ := hl.bind
  dsimp only at hl
  split at hl
  · obtain rfl := hl.eq_of_yields (Yields.run_pure _)
    obtain rfl : f = ((r.forest base.kind).link base.id member.id).2 := by rw [hp]
    exact ⟨h.setForest (.link _ _ (h.reachable _)) (h.reachable _).wf.isRegistered_link,
      contains_setForest _ _, passes_setForest _ _⟩
  · exact absurd hl Returns.not_throw

/-- A free resource is free in its forest too, or it would be a registered resource. -/
theorem Wf.not_isRegistered (h : r.Wf) {k : ResKind} {id : Nat}
    (hfree : r.contains (Res.mk k id) = false) : (r.forest k).isRegistered id = false := by
  cases hid : (r.forest k).isRegistered id with
  | false => rfl
  | true =>
    have := h.registered k id hid
    rw [hfree] at this
    cases this

/-- Registering a free resource as the root of its own chain keeps a registry well formed. -/
theorem Wf.register (h : r.Wf) (k : ResKind) (id : Nat)
    (hforest : ∀ k', r'.forest k' = if k' = k then (r.forest k).register id else r.forest k')
    (hfree : r.contains (Res.mk k id) = false)
    (hnew : r'.contains (Res.mk k id) = true)
    (hcontains : ∀ res, r.contains res = true → r'.contains res = true)
    (hpasses : r'.passes = r.passes) : r'.Wf := by
  have hfree' := h.not_isRegistered hfree
  refine h.of_forests (fun k' => ?_) (fun k' j hj => ?_) hcontains hpasses
  · rw [hforest]
    split
    · exact .register (h.reachable k) hfree'
    · exact h.reachable k'
  · rw [hforest] at hj
    split at hj
    · rename_i hk
      subst hk
      rw [Forest.isRegistered_register] at hj
      rcases Bool.or_eq_true_iff.mp hj with hj | hj
      · rw [(of_decide_eq_true hj).1]
        exact hnew
      · exact hcontains _ (h.registered _ _ hj)
    · exact hcontains _ (h.registered _ _ hj)

theorem getElem?_of_claim {α : Type} {t : Array (Option α)} {kind : EntryKind} {id : Nat}
    (h : claim t kind id = .ok ()) : t[id]? = some none := by
  unfold claim at h
  split at h
  · cases h
  · cases h
  · assumption

/-- A claimed id lies inside its table. -/
theorem lt_of_claim {α : Type} {t : Array (Option α)} {kind : EntryKind} {id : Nat}
    (h : claim t kind id = .ok ()) : id < t.size := by
  unfold claim at h
  split at h
  · cases h
  · rename_i hsome
    exact (Array.getElem?_eq_some_iff.mp hsome).1
  · rename_i hsome
    exact (Array.getElem?_eq_some_iff.mp hsome).1

/-- Filling an entry of a table keeps every filled entry filled and fills that one. -/
theorem join_isSome_set! {α : Type} {t : Array (Option α)} {id : Nat} (hid : id < t.size) (a : α)
    (i : Nat) : ((t.set! id (some a))[i]?).join.isSome = (decide (i = id) || (t[i]?).join.isSome) := by
  simp only [Array.set!_eq_setIfInBounds, Array.getElem?_setIfInBounds]
  by_cases hi : i = id
  · subst hi
    simp [hid]
  · simp [hi, Ne.symm hi]

theorem addBuffer_wf (h : r.Wf) {rec : Stream.Record} (hr : Returns (r.addBuffer rec) r') :
    r'.Wf := by
  unfold addBuffer at hr
  obtain ⟨p, -, hr⟩ := hr.bind
  obtain ⟨_, hclaim, hr⟩ := hr.bind
  have hid := lt_of_claim (BakeM.eq_of_returns_ofConfig hclaim)
  have hfree := getElem?_of_claim (BakeM.eq_of_returns_ofConfig hclaim)
  obtain ⟨_, -, hr⟩ := hr.bind
  obtain ⟨_, -, hr⟩ := hr.bind
  obtain ⟨_, -, hr⟩ := hr.bind
  -- a warning about an empty buffer does not change what is registered
  dsimp only at hr
  obtain rfl : r' = _ := by
    split at hr
    · obtain ⟨_, -, hr⟩ := hr.bind
      exact hr.eq_of_yields (Yields.run_pure _)
    · exact hr.eq_of_yields (Yields.run_pure _)
  refine h.register .buffer p.id.toNat (fun k' => by cases k' <;> rfl) ?_ ?_ ?_ rfl
  · show (r.buffers[p.id.toNat]?).join.isSome = false
    simp [hfree]
  · show ((r.buffers.set! p.id.toNat _)[p.id.toNat]?).join.isSome = true
    rw [join_isSome_set! hid]
    simp
  · intro res hres
    cases res with
    | buffer i =>
      show ((r.buffers.set! p.id.toNat _)[i]?).join.isSome = true
      rw [join_isSome_set! hid]
      exact Bool.or_eq_true_iff.mpr (.inr hres)
    | image i => exact hres

theorem addImage_wf (h : r.Wf) {rec : Stream.Record} (hr : Returns (r.addImage rec) r') :
    r'.Wf := by
  unfold addImage at hr
  obtain ⟨p, -, hr⟩ := hr.bind
  obtain ⟨_, hclaim, hr⟩ := hr.bind
  have hid := lt_of_claim (BakeM.eq_of_returns_ofConfig hclaim)
  have hfree := getElem?_of_claim (BakeM.eq_of_returns_ofConfig hclaim)
  obtain ⟨_, -, hr⟩ := hr.bind
  obtain ⟨_, -, hr⟩ := hr.bind
  -- every way of sizing the image that does not fail ends in the same registration
  obtain ⟨info, rfl⟩ : ∃ info, r' = { r with
      images := r.images.set! p.id.toNat (some info)
      imageForest := r.imageForest.register p.id.toNat } := by
    dsimp only at hr
    split at hr
    · obtain ⟨_, hx, hr⟩ := hr.bind
      obtain rfl := hx.eq_of_yields (Yields.run_pure _)
      exact ⟨_, hr.eq_of_yields (Yields.run_pure _)⟩
    · split at hr
      · obtain ⟨_, hx, -⟩ := hr.bind
        exact absurd hx Returns.not_throw
      · split at hr
        · obtain ⟨_, hx, -⟩ := hr.bind
          exact absurd hx Returns.not_throw
        · obtain ⟨_, hx, hr⟩ := hr.bind
          obtain rfl := hx.eq_of_yields (Yields.run_pure _)
          exact ⟨_, hr.eq_of_yields (Yields.run_pure _)⟩
    · obtain ⟨_, hx, -⟩ := hr.bind
      exact absurd hx Returns.not_throw
  refine h.register .image p.id.toNat (fun k' => by cases k' <;> rfl) ?_ ?_ ?_ rfl
  · show (r.images[p.id.toNat]?).join.isSome = false
    simp [hfree]
  · show ((r.images.set! p.id.toNat _)[p.id.toNat]?).join.isSome = true
    rw [join_isSome_set! hid]
    simp
  · intro res hres
    cases res with
    | buffer i => exact hres
    | image i =>
      show ((r.images.set! p.id.toNat _)[i]?).join.isSome = true
      rw [join_isSome_set! hid]
      exact Bool.or_eq_true_iff.mpr (.inr hres)

theorem addShader_wf (h : r.Wf) {rec : Stream.Record} (hr : Returns (r.addShader rec) r') :
    r'.Wf := by
  unfold addShader at hr
  obtain ⟨_, -, hr⟩ := hr.bind
  obtain ⟨_, -, hr⟩ := hr.bind
  obtain ⟨_, -, hr⟩ := hr.bind
  obtain rfl := hr.eq_of_yields (Yields.run_pure _)
  exact h.of_eq rfl rfl rfl rfl rfl

theorem addProgram_wf (h : r.Wf) {rec : Stream.Record} (hr : Returns (r.addProgram rec) r') :
    r'.Wf := by
  unfold addProgram at hr
  obtain ⟨_, -, hr⟩ := hr.bind
  obtain ⟨_, -, hr⟩ := hr.bind
  obtain ⟨⟨_, _⟩, -, hr⟩ := hr.bind
  obtain ⟨_, -, hr⟩ := hr.bind
  obtain rfl := hr.eq_of_yields (Yields.run_pure _)
  exact h.of_eq rfl rfl rfl rfl rfl

theorem addSampler_wf (h : r.Wf) {rec : Stream.Record} (hr : Returns (r.addSampler rec) r') :
    r'.Wf := by
  unfold addSampler at hr
  obtain ⟨_, -, hr⟩ := hr.bind
  obtain ⟨_, -, hr⟩ := hr.bind
  obtain ⟨_, -, hr⟩ := hr.bind
  obtain rfl := hr.eq_of_yields (Yields.run_pure _)
  exact h.of_eq rfl rfl rfl rfl rfl

theorem addBindless_wf (h : r.Wf) {rec : Stream.Record} (hr : Returns (r.addBindless rec) r') :
    r'.Wf := by
  unfold addBindless at hr
  obtain ⟨_, -, hr⟩ := hr.bind
  obtain ⟨_, -, hr⟩ := hr.bind
  obtain ⟨⟨_, _⟩, -, hr⟩ := hr.bind
  obtain ⟨_, -, hr⟩ := hr.bind
  obtain rfl := hr.eq_of_yields (Yields.run_pure _)
  exact h.of_eq rfl rfl rfl rfl rfl

theorem addForceAlias_wf (h : r.Wf) {kind : ResKind} {rec : Stream.Record}
    (hr : Returns (r.addForceAlias kind rec) r') : r'.Wf := by
  unfold addForceAlias at hr
  obtain ⟨_, -, hr⟩ := hr.bind
  obtain ⟨_, -, hr⟩ := hr.bind
  exact (h.link hr).1

/-! ### Passes -/

theorem contains_of_resourceRef {kind id : UInt32} {res : Res}
    (h : r.resourceRef kind id = .ok res) : r.contains res = true := by
  unfold resourceRef at h
  obtain ⟨k, -, h⟩ := Except.exists_of_bind_eq_ok h
  dsimp only at h
  split at h
  · cases h
    assumption
  · cases h

theorem contains_of_interaction {raw : Stream.InteractionPayload} {mode : AccessMode}
    {pass : PassRef} {i : Interaction} (h : r.interaction raw mode pass = .ok i) :
    r.contains i.resource = true := by
  unfold interaction at h
  obtain ⟨res, hres, h⟩ := Except.exists_of_bind_eq_ok h
  have hres := contains_of_resourceRef hres
  -- every branch that does not throw builds the interaction on the decoded resource
  dsimp only at h
  split at h
  · cases h
    exact hres
  · cases h
  · cases h
  · split at h
    · cases h
    · split at h
      · cases h
      · cases h
        exact hres

/-- Every interaction a pass record decodes names a registered resource. -/
theorem decodeInteractions_contains {pass : PassRef} {mode : AccessMode} :
    ∀ {used : List Nat} {raws : List Stream.InteractionPayload} {is : List Interaction}
      {used' : List Nat}, r.decodeInteractions pass mode used raws = .ok (is, used') →
      ∀ i ∈ is, r.contains i.resource = true
  | _, [], _, _, h => by
    cases h
    simp
  | used, raw :: rest, _, _, h => by
    unfold decodeInteractions at h
    dsimp only at h
    split at h
    · cases h
    obtain ⟨i, hi, h⟩ := Except.exists_of_bind_eq_ok h
    obtain ⟨⟨is', used''⟩, hrest, h⟩ := Except.exists_of_bind_eq_ok h
    cases h
    intro x hx
    rcases List.mem_cons.mp hx with rfl | hx
    · exact contains_of_interaction hi
    · exact decodeInteractions_contains hrest x hx

/-- The look-ups that put a write's output into a chain change neither the registered ids nor
the roots, so they keep a registry well formed. -/
theorem Wf.setForest_find (h : r.Wf) (k : ResKind) (a b : Nat) :
    (r.setForest k (((r.forest k).find a).2.find b).2).Wf := by
  have hw := (h.reachable k).wf
  obtain ⟨-, hw1, hk1, -⟩ := hw.find a
  obtain ⟨-, -, hk2, -⟩ := hw1.find b
  exact h.setForest (.find b (.find a (h.reachable k))) fun y => by
    rw [hk2.isRegistered, hk1.isRegistered]

/-- Putting a write's output into a chain keeps a registry well formed, and changes neither its
resources nor its passes. -/
theorem Wf.chainOutput (h : r.Wf) {pass : PassRef} {w : Interaction}
    (hr : Returns (r.chainOutput pass w) r') :
    r'.Wf ∧ (∀ res, r'.contains res = r.contains res) ∧ r'.passes = r.passes := by
  unfold Registry.chainOutput at hr
  split at hr
  · obtain rfl := hr.eq_of_yields (Yields.run_pure _)
    exact ⟨h, fun _ => rfl, rfl⟩
  · rename_i output _
    have h2 := h.setForest_find w.resource.kind w.resource.id output.id
    dsimp only at hr
    split at hr
    · obtain rfl := hr.eq_of_yields (Yields.run_pure _)
      exact ⟨h2, contains_setForest _ _, passes_setForest _ _⟩
    · split at hr
      · exact absurd hr Returns.not_throw
      · obtain ⟨hw, hc, hp⟩ := h2.link hr
        exact ⟨hw, fun res => (hc res).trans (contains_setForest _ _ _),
          hp.trans (passes_setForest _ _)⟩

theorem addPass_wf (h : r.Wf) {rec : Stream.Record} (hr : Returns (r.addPass rec) r') :
    r'.Wf := by
  unfold addPass at hr
  obtain ⟨p, -, hr⟩ := hr.bind
  dsimp only at hr
  -- a pass id outside the table or already taken fails
  split at hr
  · exact absurd hr Returns.bind_throw
  · exact absurd hr Returns.bind_throw
  obtain ⟨⟨reads, writes, name⟩, -, hr⟩ := hr.bind
  obtain ⟨_, -, hr⟩ := hr.bind
  -- the checks of the program and of the bindless table change nothing
  obtain hr : Returns _ r' := by
    split at hr
    · obtain ⟨⟨⟩, -, hr⟩ := hr.bind
      exact hr
    · exact hr
  obtain hr : Returns _ r' := by
    split at hr
    · obtain ⟨⟨⟩, -, hr⟩ := hr.bind
      exact hr
    · exact hr
  obtain ⟨⟨reads', used⟩, hreads, hr⟩ := hr.bind
  obtain ⟨⟨writes', _⟩, hwrites, hr⟩ := hr.bind
  obtain ⟨r1, hr1, hr⟩ := hr.bind
  obtain ⟨_, -, hr⟩ := hr.bind
  obtain rfl := hr.eq_of_yields (Yields.run_pure _)
  have hreads := decodeInteractions_contains (BakeM.eq_of_returns_ofConfig hreads)
  have hwrites := decodeInteractions_contains (BakeM.eq_of_returns_ofConfig hwrites)
  -- linking the outputs keeps the registry well formed and registers the same resources
  obtain ⟨hw1, hc1, -⟩ := Returns.foldlM
    (I := fun r1 => r1.Wf ∧ (∀ res, r1.contains res = r.contains res) ∧ r1.passes = r.passes) hr1
    ⟨h, fun _ => rfl, rfl⟩ fun acc w b _ ⟨hacc, hc, hp⟩ hb => by
      obtain ⟨hb, hc', hp'⟩ := hacc.chainOutput hb
      exact ⟨hb, fun res => (hc' res).trans (hc res), hp'.trans hp⟩
  refine ⟨hw1.reachable, hw1.registered, fun q hq i hi => ?_⟩
  rcases Array.mem_push.mp hq with hq | rfl
  · exact hw1.interaction_contains q hq i hi
  · show r1.contains i.resource = true
    rw [hc1]
    rcases List.mem_append.mp hi with hi | hi
    · exact hreads i hi
    · exact hwrites i hi

/-! ### The stream -/

theorem addRecord_wf (h : r.Wf) {rec : Stream.Record} (hr : Returns (r.addRecord rec) r') :
    r'.Wf := by
  unfold addRecord at hr
  split at hr
  · exact absurd hr Returns.not_throw
  · exact addShader_wf h hr
  · exact addProgram_wf h hr
  · exact addBuffer_wf h hr
  · exact addImage_wf h hr
  · exact addSampler_wf h hr
  · exact addBindless_wf h hr
  · exact addForceAlias_wf h hr
  · exact addForceAlias_wf h hr
  · exact addPass_wf h hr
  · exact absurd hr Returns.not_throw

/-- Reading records one after the other keeps a registry well formed. -/
theorem addRecords_wf : ∀ (fuel : Nat) {r r' : Registry} {rd : Stream.Reader}, r.Wf →
    Returns (r.addRecords fuel rd) r' → r'.Wf
  | 0, _, _, _, h, hr => by
    obtain rfl := hr.eq_of_yields (Yields.run_pure _)
    exact h
  | fuel + 1, _, _, _, h, hr => by
    unfold addRecords at hr
    obtain ⟨⟨rec, rd'⟩, -, hr⟩ := hr.bind
    dsimp only at hr
    split at hr
    · obtain rfl := hr.eq_of_yields (Yields.run_pure _)
      exact h
    · obtain ⟨r1, h1, hr⟩ := hr.bind
      exact addRecords_wf fuel (addRecord_wf h h1) hr

/-- The empty registry of a brief is well formed: its forests are empty, and it has no pass. -/
theorem ofBrief_wf (b : Stream.BriefPayload) : (ofBrief b).Wf := by
  refine ⟨fun k => ?_, fun k id hid => ?_, fun p hp => by simp [ofBrief] at hp⟩
  · cases k <;> exact .empty _ _
  · cases k <;> simp [ofBrief, forest, Forest.isRegistered_empty] at hid

theorem forest_flattenForests (k : ResKind) : r.flattenForests.forest k = (r.forest k).flatten := by
  cases k <;> rfl

/-- Flattening the forests keeps a registry well formed. -/
theorem Wf.flattenForests (h : r.Wf) : r.flattenForests.Wf := by
  refine h.of_forests (fun k => ?_) (fun k id hid => ?_) (fun res hres => hres) rfl
  · rw [forest_flattenForests]
    exact .flatten (h.reachable k)
  · rw [forest_flattenForests, (h.reachable k).wf.flatten.2.1.isRegistered] at hid
    exact h.registered k id hid

/-- **Every registry `Registry.ingest` returns is well formed.** -/
theorem ingest_wf {bytes : Bytes} (h : Returns (Registry.ingest bytes) r) : r.Wf := by
  unfold ingest at h
  obtain ⟨_, -, h⟩ := h.bind
  obtain ⟨⟨first, rd⟩, -, h⟩ := h.bind
  dsimp only at h
  -- a stream that does not start with the brief fails
  split at h
  · exact absurd h Returns.bind_throw
  obtain ⟨brief, -, h⟩ := h.bind
  obtain ⟨_, -, h⟩ := h.bind
  obtain ⟨_, -, h⟩ := h.bind
  obtain ⟨_, -, h⟩ := h.bind
  obtain ⟨r1, h1, h⟩ := h.bind
  have hw := addRecords_wf _ (ofBrief_wf brief) h1
  -- the check of the present image and the summary change nothing
  obtain h : Returns _ r := by
    split at h
    · obtain ⟨⟨⟩, -, h⟩ := h.bind
      exact h
    · exact h
  obtain ⟨_, -, h⟩ := h.bind
  obtain rfl := h.eq_of_yields (Yields.run_pure _)
  exact hw.flattenForests

end Registry

/-! ### Ingestion reads no journal -/

theorem BakeM.determined_ofStream {α : Type} (e : Except Stream.Error α) :
    Determined (BakeM.ofStream e).run := by
  cases e with
  | ok a => exact Determined.run_pure a
  | error e => exact Determined.run_throw _

theorem BakeM.determined_ofConfig {α : Type} (e : Except ConfigError α) :
    Determined (BakeM.ofConfig e).run := by
  cases e with
  | ok a => exact Determined.run_pure a
  | error e => exact Determined.run_throw _

theorem BakeM.determined_ofAlias {α : Type} (e : Except AliasError α) :
    Determined (BakeM.ofAlias e).run := by
  cases e with
  | ok a => exact Determined.run_pure a
  | error e => exact Determined.run_throw _

namespace Registry

theorem link_determined (r : Registry) (base member : Res) : Determined (r.link base member).run := by
  unfold link
  generalize (r.forest base.kind).link base.id member.id = p
  obtain ⟨result, f⟩ := p
  refine (BakeM.determined_ofAlias _).run_bind fun rootId => ?_
  refine (Determined.run_log _ _ _).run_bind fun _ => ?_
  dsimp only
  split
  · exact Determined.run_pure _
  · exact Determined.run_throw _

theorem chainOutput_determined (r : Registry) (pass : PassRef) (w : Interaction) :
    Determined (r.chainOutput pass w).run := by
  unfold chainOutput
  split
  · exact Determined.run_pure _
  · dsimp only
    split
    · exact Determined.run_pure _
    · split
      · exact Determined.run_throw _
      · exact link_determined _ _ _

/-- Registering a record reads no journal. Each step of a record is a read of the stream, a check,
a log line or a throw, and the do-blocks of images and passes branch before they bind, so the
rules take every branch apart along its binds; `with_reducible` keeps a rule from unfolding a
step it does not match. -/
theorem addRecord_determined (r : Registry) (rec : Stream.Record) :
    Determined (r.addRecord rec).run := by
  unfold addRecord addShader addProgram addBuffer addImage addSampler addBindless addForceAlias
    addPass
  repeat' first
    | with_reducible apply link_determined
    | with_reducible apply chainOutput_determined
    | with_reducible apply Determined.run_bind
    | (intro)
    | split
    | dsimp only
    | with_reducible apply Determined.run_pure
    | with_reducible apply Determined.run_throw
    | with_reducible apply Determined.run_log
    | with_reducible apply BakeM.determined_ofStream
    | with_reducible apply BakeM.determined_ofConfig
    | with_reducible apply Determined.run_foldlM

theorem addRecords_determined (r : Registry) (fuel : Nat) (rd : Stream.Reader) :
    Determined (r.addRecords fuel rd).run := by
  induction fuel generalizing r rd with
  | zero => exact Determined.run_pure r
  | succ fuel ih =>
    unfold addRecords
    refine (BakeM.determined_ofStream _).run_bind fun x => ?_
    obtain ⟨rec, rd⟩ := x
    dsimp only
    split
    · exact Determined.run_pure r
    · exact (addRecord_determined r rec).run_bind fun r' => ih r' rd

/-- **Ingestion reads no journal**: a stream ingests to the same registry, or fails with the same
error, whatever the journal holds. -/
theorem ingest_determined (bytes : Bytes) : Determined (ingest bytes).run := by
  unfold ingest
  refine (BakeM.determined_ofStream _).run_bind fun rd => ?_
  refine (BakeM.determined_ofStream _).run_bind fun x => ?_
  obtain ⟨first, rd⟩ := x
  dsimp only
  split
  · exact Determined.run_throw_bind _
  refine (BakeM.determined_ofStream _).run_bind fun brief => ?_
  refine (BakeM.determined_ofStream _).run_bind fun _ => (BakeM.determined_ofConfig _).run_bind fun _ => ?_
  refine (Determined.run_log _ _ _).run_bind fun _ => (addRecords_determined _ _ _).run_bind fun r => ?_
  -- the check of the present image, then the summary
  split
  · exact (BakeM.determined_ofConfig _).run_bind fun _ =>
      (Determined.run_log _ _ _).run_bind fun _ => Determined.run_pure _
  · exact (Determined.run_log _ _ _).run_bind fun _ => Determined.run_pure _

/-- What a stream ingests to from the empty journal, it ingests to from every journal. -/
theorem ingest_yields {bytes : Bytes} {r : Registry} (h : ((ingest bytes).run.run #[]).1 = .ok r) :
    Yields (ingest bytes).run (.ok r) :=
  fun j => ((ingest_determined bytes).yields j).trans h

end Registry

end RenderGraph
