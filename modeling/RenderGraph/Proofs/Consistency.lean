import RenderGraph.Proofs.Registered
import RenderGraph.Proofs.Codec
import RenderGraph.Stream.Writer
/-!
# The laws of an ingested registry

Every registry that `Registry.ingest` returns is consistent (`ingest_consistent`):

* every resource a pass reads or writes is registered, a read has no output, and a write's
  output is another registered resource of the same kind in the written resource's chain;
* the binding slots of a pass are pairwise distinct;
* pass ids are distinct and below the pass count, and each finds its own pass;
* every registered resource fits the base of its chain: a buffer is no larger than the base and
  in its memory class, an image has the base's shape;
* every program's shaders, every pass's program and bindless table, every resource of a bindless
  table and the present image are registered.

Records arrive in any order, and a forced alias read after a pass may hang a whole chain under
another root, so each law must survive every later link. Linking never re-roots a tree: it
relabels the root `member` to the root of `base` (`baseOf_link`), and look-ups and flattening
move no resource to another root (`baseOf_setForest_of_root`). Resources that share a base
therefore keep sharing one, and a resource that fitted `member` fits the new root, since `member`
itself fits it (`Fits.trans`). `Grows` says what a step keeps of the registry before it; the laws
of a pass are kept by every step that grows the registry (`PassInfo.Consistent.mono`).
-/

namespace RenderGraph

open Logged

/-- What each step of a fold establishes for its element, and every later step keeps, holds of
every element at the end, together with an invariant of the accumulator. -/
theorem Returns.foldlM_all {ε α β : Type} {xs : List α} {f : β → α → ExceptT ε Logged β}
    {I : β → Prop} {P : α → β → Prop} {init out : β} (h : Returns (xs.foldlM f init) out)
    (hinit : I init)
    (hstep : ∀ acc x b, x ∈ xs → I acc → Returns (f acc x) b →
      I b ∧ P x b ∧ ∀ y ∈ xs, P y acc → P y b) :
    I out ∧ ∀ x ∈ xs, P x out := by
  induction xs generalizing init with
  | nil =>
    obtain rfl := h.eq_of_yields (Yields.run_pure init)
    exact ⟨hinit, by simp⟩
  | cons x rest ih =>
    rw [List.foldlM_cons] at h
    obtain ⟨b, hx, hrest⟩ := h.bind
    obtain ⟨hb, hPx, -⟩ := hstep init x b List.mem_cons_self hinit hx
    -- the rest of the fold keeps what this step established for `x`
    have hkept := Returns.foldlM (I := fun acc => I acc ∧ P x acc) hrest ⟨hb, hPx⟩
      fun acc y c hy hacc hc =>
        ⟨(hstep acc y c (List.mem_cons_of_mem x hy) hacc.1 hc).1,
          (hstep acc y c (List.mem_cons_of_mem x hy) hacc.1 hc).2.2 x List.mem_cons_self hacc.2⟩
    obtain ⟨hout, hall⟩ := ih hrest hb fun acc y c hy hacc hc =>
      let ⟨hIc, hPc, hkeep⟩ := hstep acc y c (List.mem_cons_of_mem x hy) hacc hc
      ⟨hIc, hPc, fun z hz => hkeep z (List.mem_cons_of_mem x hz)⟩
    refine ⟨hout, fun y hy => ?_⟩
    rcases List.mem_cons.mp hy with rfl | hy
    · exact hkept.2
    · exact hall y hy

namespace Registry

variable {r r' r'' : Registry}

/-! ### Fitting a chain -/

/-- `member` fits the memory of `base`: both are registered, and a buffer is no larger than the
base and in its memory class, an image has the base's shape. -/
def Fits (r : Registry) : Res → Res → Prop
  | .buffer a, .buffer b => ∃ x y, r.buffer? a = some x ∧ r.buffer? b = some y ∧
      y.desc.size ≤ x.desc.size ∧ y.desc.memory = x.desc.memory
  | .image a, .image b => ∃ x y, r.image? a = some x ∧ r.image? b = some y ∧ x.shape = y.shape
  | _, _ => False

/-- The check made at every link decides `Fits`. -/
theorem compatible_iff_fits {root member : Res} :
    r.compatible root member = true ↔ r.Fits root member := by
  cases root with
  | buffer a =>
    cases member with
    | buffer b =>
      simp only [compatible, Fits]
      cases r.buffer? a <;> cases r.buffer? b <;> simp
    | image b => simp [compatible, Fits]
  | image a =>
    cases member with
    | buffer b => simp [compatible, Fits]
    | image b =>
      simp only [compatible, Fits]
      cases r.image? a <;> cases r.image? b <;> simp

theorem Fits.kind_eq {a b : Res} (h : r.Fits a b) : b.kind = a.kind := by
  cases a <;> cases b <;> first | rfl | exact h.elim

theorem Fits.trans {a b c : Res} (hab : r.Fits a b) (hbc : r.Fits b c) : r.Fits a c := by
  cases a <;> cases b <;> cases c <;> simp only [Fits] at hab hbc ⊢
  case buffer.buffer.buffer =>
    obtain ⟨x, y, hx, hy, hsize, hmem⟩ := hab
    obtain ⟨y', z, hy', hz, hsize', hmem'⟩ := hbc
    obtain rfl : y = y' := Option.some.inj (hy.symm.trans hy')
    exact ⟨x, z, hx, hz, UInt64.le_trans hsize' hsize, hmem'.trans hmem⟩
  case image.image.image =>
    obtain ⟨x, y, hx, hy, hshape⟩ := hab
    obtain ⟨y', z, hy', hz, hshape'⟩ := hbc
    obtain rfl : y = y' := Option.some.inj (hy.symm.trans hy')
    exact ⟨x, z, hx, hz, hshape.trans hshape'⟩

theorem fits_self {res : Res} (h : r.contains res = true) : r.Fits res res := by
  cases res with
  | buffer i =>
    obtain ⟨b, hb⟩ := Option.isSome_iff_exists.mp h
    exact ⟨b, b, hb, hb, UInt64.le_refl _, rfl⟩
  | image i =>
    obtain ⟨x, hx⟩ := Option.isSome_iff_exists.mp h
    exact ⟨x, x, hx, hx, rfl⟩

/-! ### What a step keeps -/

/-- `r'` keeps what `r` registered: the brief, every filled entry of the resource, program and
bindless tables with its value, every filled shader entry, and the sharing of bases among
registered resources. -/
structure Grows (r r' : Registry) : Prop where
  brief : r'.brief = r.brief
  buffer : ∀ i b, r.buffer? i = some b → r'.buffer? i = some b
  image : ∀ i x, r.image? i = some x → r'.image? i = some x
  shader : ∀ i, (r.shader? i).isSome = true → (r'.shader? i).isSome = true
  program : ∀ i p, r.program? i = some p → r'.program? i = some p
  bindlessTable : ∀ i t, r.bindlessTable? i = some t → r'.bindlessTable? i = some t
  baseOf : ∀ a b, r.contains a = true → r.contains b = true → r.baseOf a = r.baseOf b →
    r'.baseOf a = r'.baseOf b

theorem Grows.contains (h : r.Grows r') {res : Res} (hres : r.contains res = true) :
    r'.contains res = true := by
  cases res with
  | buffer i =>
    obtain ⟨b, hb⟩ := Option.isSome_iff_exists.mp hres
    exact Option.isSome_iff_exists.mpr ⟨b, h.buffer i b hb⟩
  | image i =>
    obtain ⟨x, hx⟩ := Option.isSome_iff_exists.mp hres
    exact Option.isSome_iff_exists.mpr ⟨x, h.image i x hx⟩

theorem Grows.isSome_program (h : r.Grows r') {i : Nat} (hi : (r.program? i).isSome = true) :
    (r'.program? i).isSome = true := by
  obtain ⟨p, hp⟩ := Option.isSome_iff_exists.mp hi
  exact Option.isSome_iff_exists.mpr ⟨p, h.program i p hp⟩

theorem Grows.isSome_bindlessTable (h : r.Grows r') {i : Nat}
    (hi : (r.bindlessTable? i).isSome = true) : (r'.bindlessTable? i).isSome = true := by
  obtain ⟨t, ht⟩ := Option.isSome_iff_exists.mp hi
  exact Option.isSome_iff_exists.mpr ⟨t, h.bindlessTable i t ht⟩

theorem Grows.fits (h : r.Grows r') {a b : Res} (hab : r.Fits a b) : r'.Fits a b := by
  cases a <;> cases b <;> simp only [Fits] at hab ⊢
  case buffer.buffer =>
    obtain ⟨x, y, hx, hy, hs⟩ := hab
    exact ⟨x, y, h.buffer _ _ hx, h.buffer _ _ hy, hs⟩
  case image.image =>
    obtain ⟨x, y, hx, hy, hs⟩ := hab
    exact ⟨x, y, h.image _ _ hx, h.image _ _ hy, hs⟩

theorem Grows.refl (r : Registry) : r.Grows r :=
  ⟨rfl, fun _ _ h => h, fun _ _ h => h, fun _ h => h, fun _ _ h => h, fun _ _ h => h,
    fun _ _ _ _ h => h⟩

theorem Grows.trans (h : r.Grows r') (h' : r'.Grows r'') : r.Grows r'' where
  brief := h'.brief.trans h.brief
  buffer i b hb := h'.buffer i b (h.buffer i b hb)
  image i x hx := h'.image i x (h.image i x hx)
  shader i hi := h'.shader i (h.shader i hi)
  program i p hp := h'.program i p (h.program i p hp)
  bindlessTable i t ht := h'.bindlessTable i t (h.bindlessTable i t ht)
  baseOf a b ha hb hab := h'.baseOf a b (h.contains ha) (h.contains hb) (h.baseOf a b ha hb hab)

end Registry

/-! ### The laws of a pass -/

/-- What decoding an access checks: its resource is registered; a read has no output, and a
write's output is another registered resource of the same kind. -/
def Interaction.Checked (r : Registry) (mode : AccessMode) (i : Interaction) : Prop :=
  r.contains i.resource = true ∧
    match mode with
    | .read => i.output = none
    | .write => ∃ o, i.output = some o ∧ o ≠ i.resource ∧ o.kind = i.resource.kind ∧
        r.contains o = true

theorem Interaction.Checked.read_output {r : Registry} {i : Interaction}
    (h : i.Checked r .read) : i.output = none := h.2

theorem Interaction.Checked.write_output {r : Registry} {i : Interaction}
    (h : i.Checked r .write) :
    ∃ o, i.output = some o ∧ o ≠ i.resource ∧ o.kind = i.resource.kind ∧
      r.contains o = true :=
  h.2

namespace PassInfo

/-- The laws of a registered pass, against the registry that holds it. -/
structure Consistent (r : Registry) (p : PassInfo) : Prop where
  /-- Every resource the pass reads or writes is registered. -/
  contains : ∀ i ∈ p.interactions, r.contains i.resource = true
  /-- A read has no output. -/
  read_output : ∀ i ∈ p.reads, i.output = none
  /-- A write's output is another registered resource of the same kind, in the chain of the
  written resource. -/
  write_output : ∀ i ∈ p.writes, ∃ o, i.output = some o ∧ o ≠ i.resource ∧
    o.kind = i.resource.kind ∧ r.contains o = true ∧ r.baseOf o = r.baseOf i.resource
  /-- No binding slot is used twice. -/
  bindings_nodup : (p.interactions.map (·.binding)).Nodup
  program : ∀ prog, p.program = some prog → (r.program? prog).isSome = true
  bindless : ∀ b, p.bindless = some b → (r.bindlessTable? b).isSome = true
  bindlessReads : ∀ res ∈ p.bindlessReads, r.contains res = true

variable {r r' : Registry} {p : PassInfo}

/-- The laws of a pass survive every step that grows its registry. -/
theorem Consistent.mono (h : p.Consistent r) (hg : r.Grows r') : p.Consistent r' where
  contains i hi := hg.contains (h.contains i hi)
  read_output := h.read_output
  write_output i hi := by
    obtain ⟨o, ho, hne, hkind, hcontains, hbase⟩ := h.write_output i hi
    have hres := h.contains i (List.mem_append_right _ hi)
    exact ⟨o, ho, hne, hkind, hg.contains hcontains, hg.baseOf _ _ hcontains hres hbase⟩
  bindings_nodup := h.bindings_nodup
  program prog hprog := hg.isSome_program (h.program prog hprog)
  bindless b hb := hg.isSome_bindlessTable (h.bindless b hb)
  bindlessReads res hres := hg.contains (h.bindlessReads res hres)

end PassInfo

namespace Registry

variable {r r' r'' : Registry}

/-! ### The laws of a registry -/

/-- The laws of a registry: resources fit the bases of their chains, programs and bindless
tables name registered entries, the pass slots index the passes by id, and every pass keeps the
laws of a pass. -/
structure Consistent (r : Registry) : Prop where
  /-- Every registered resource fits the base of its chain. -/
  fits : ∀ res, r.contains res = true → r.Fits (r.baseOf res) res
  program_shaders : ∀ id prog, r.program? id = some prog → ∀ s ∈ prog.shaders,
    (r.shader? s).isSome = true
  bindless_contains : ∀ id t, r.bindlessTable? id = some t → ∀ res ∈ t.resources,
    r.contains res = true
  passSlots_size : r.passSlots.size = r.brief.passCount
  /-- The slot of a pass id holds the index of the pass with that id, and only that. -/
  passIndex : ∀ id k, r.passIndex? id = some k ↔ ∃ p, r.passes[k]? = some p ∧ p.id = id
  passes : ∀ p ∈ r.passes, p.Consistent r

/-- A step that grows a registry, keeps its passes and slots, and keeps the laws of resources,
programs and bindless tables keeps it consistent. -/
theorem Consistent.of_grows (h : r.Consistent) (hg : r.Grows r')
    (hfits : ∀ res, r'.contains res = true → r'.Fits (r'.baseOf res) res)
    (hprograms : ∀ id prog, r'.program? id = some prog → ∀ s ∈ prog.shaders,
      (r'.shader? s).isSome = true)
    (hbindless : ∀ id t, r'.bindlessTable? id = some t → ∀ res ∈ t.resources,
      r'.contains res = true)
    (hpasses : r'.passes = r.passes) (hslots : r'.passSlots = r.passSlots) : r'.Consistent where
  fits := hfits
  program_shaders := hprograms
  bindless_contains := hbindless
  passSlots_size := by rw [hslots, hg.brief]; exact h.passSlots_size
  passIndex id k := by
    unfold passIndex?
    rw [hslots, hpasses]
    exact h.passIndex id k
  passes q hq := (h.passes q (hpasses ▸ hq)).mono hg

theorem Consistent.passIndex_self (h : r.Consistent) {k : Nat} (hk : k < r.passes.size) :
    r.passIndex? r.passes[k].id = some k :=
  (h.passIndex _ k).mpr ⟨_, Array.getElem?_eq_getElem hk, rfl⟩

/-- Every pass is found by its id. -/
theorem Consistent.pass?_id (h : r.Consistent) {p : PassInfo} (hp : p ∈ r.passes) :
    r.pass? p.id = some p := by
  obtain ⟨k, hk, rfl⟩ := Array.getElem_of_mem hp
  simp [pass?, h.passIndex_self hk, hk]

/-- Every pass id lies below the pass count. -/
theorem Consistent.id_lt (h : r.Consistent) {p : PassInfo} (hp : p ∈ r.passes) :
    p.id < r.brief.passCount := by
  obtain ⟨k, hk, rfl⟩ := Array.getElem_of_mem hp
  have hslot := h.passIndex_self hk
  unfold passIndex? at hslot
  rw [← h.passSlots_size]
  by_contra hge
  rw [Array.getElem?_eq_none (Nat.le_of_not_lt hge)] at hslot
  cases hslot

/-- No two passes share an id. -/
theorem Consistent.nodup_ids (h : r.Consistent) : (r.passes.toList.map PassInfo.id).Nodup := by
  rw [List.nodup_iff_getElem?_ne_getElem?]
  intro i j hij hj heq
  simp only [List.length_map, Array.length_toList] at hj
  simp only [List.getElem?_map, Array.getElem?_toList, Array.getElem?_eq_getElem hj,
    Array.getElem?_eq_getElem (Nat.lt_trans hij hj), Option.map_some, Option.some.injEq] at heq
  have hi := h.passIndex_self (Nat.lt_trans hij hj)
  rw [heq, h.passIndex_self hj] at hi
  exact absurd (Option.some.inj hi) (Nat.ne_of_gt hij)

/-! ### Tables -/

/-- Filling a free entry of a table changes that entry only. -/
theorem join_set!_of_free {α : Type} {t : Array (Option α)} {id : Nat} (h : t[id]? = some none)
    (a : α) (i : Nat) :
    ((t.set! id (some a))[i]?).join = if i = id then some a else (t[i]?).join := by
  have hid := (Array.getElem?_eq_some_iff.mp h).1
  simp only [Array.set!_eq_setIfInBounds, Array.getElem?_setIfInBounds]
  by_cases hi : i = id
  · subst hi
    simp [hid]
  · simp [hi, Ne.symm hi]

/-- Filling a free entry keeps every filled entry with its value. -/
theorem join_set!_of_filled {α : Type} {t : Array (Option α)} {id : Nat} (h : t[id]? = some none)
    (a : α) {i : Nat} {b : α} (hb : (t[i]?).join = some b) :
    ((t.set! id (some a))[i]?).join = some b := by
  rw [join_set!_of_free h, if_neg]
  · exact hb
  · rintro rfl
    simp [h] at hb

/-- After a free entry is filled, a filled entry is that one or was filled before. -/
theorem isSome_set!_of_free {α : Type} {t : Array (Option α)} {id : Nat} (h : t[id]? = some none)
    (a : α) {i : Nat} (hi : ((t.set! id (some a))[i]?).join.isSome = true) :
    i = id ∨ (t[i]?).join.isSome = true := by
  rw [join_set!_of_free h] at hi
  by_cases hid : i = id
  · exact .inl hid
  · rw [if_neg hid] at hi
    exact .inr hi

theorem known_isSome {α : Type} {t : Array (Option α)} {kind : EntryKind} {id : Nat}
    (h : known t kind id = .ok ()) : (t[id]?).join.isSome = true := by
  unfold known at h
  split at h
  · assumption
  · cases h

theorem known_forM_isSome {α : Type} {t : Array (Option α)} {kind : EntryKind} :
    ∀ {ids : List Nat}, ids.forM (known t kind) = .ok () →
      ∀ i ∈ ids, (t[i]?).join.isSome = true
  | [], _, _, hi => absurd hi List.not_mem_nil
  | id :: rest, h, i, hi => by
    obtain ⟨⟨⟩, hid, hrest⟩ := Except.exists_of_bind_eq_ok
      (show (known t kind id >>= fun _ => rest.forM (known t kind)) = .ok () from h)
    rcases List.mem_cons.mp hi with rfl | hi
    · exact known_isSome hid
    · exact known_forM_isSome hrest i hi

theorem mapM_resourceRef_contains {refs : List Stream.ResourceRefPayload} :
    ∀ {rs : List Res}, refs.mapM (fun x => r.resourceRef x.kind x.id) = .ok rs →
      ∀ res ∈ rs, r.contains res = true := by
  induction refs with
  | nil =>
    intro rs h res hres
    obtain rfl : [] = rs := Except.ok.inj h
    exact absurd hres List.not_mem_nil
  | cons x rest ih =>
    intro rs h res hres
    rw [List.mapM_cons] at h
    obtain ⟨y, hy, h⟩ := Except.exists_of_bind_eq_ok h
    obtain ⟨ys, hys, h⟩ := Except.exists_of_bind_eq_ok h
    obtain rfl : y :: ys = rs := Except.ok.inj h
    rcases List.mem_cons.mp hres with rfl | hres
    · exact contains_of_resourceRef hy
    · exact ih hys res hres

/-! ### Forests in a registry -/

section SetForest

variable (k : ResKind) (f : Forest)

@[simp] theorem brief_setForest : (r.setForest k f).brief = r.brief := by cases k <;> rfl
@[simp] theorem passSlots_setForest : (r.setForest k f).passSlots = r.passSlots := by
  cases k <;> rfl
@[simp] theorem buffer?_setForest (i : Nat) : (r.setForest k f).buffer? i = r.buffer? i := by
  cases k <;> rfl
@[simp] theorem image?_setForest (i : Nat) : (r.setForest k f).image? i = r.image? i := by
  cases k <;> rfl
@[simp] theorem shader?_setForest (i : Nat) : (r.setForest k f).shader? i = r.shader? i := by
  cases k <;> rfl
@[simp] theorem program?_setForest (i : Nat) : (r.setForest k f).program? i = r.program? i := by
  cases k <;> rfl
@[simp] theorem bindlessTable?_setForest (i : Nat) :
    (r.setForest k f).bindlessTable? i = r.bindlessTable? i := by
  cases k <;> rfl
theorem compatible_setForest (a b : Res) :
    (r.setForest k f).compatible a b = r.compatible a b := by
  cases k <;> rfl
theorem fits_setForest (a b : Res) : (r.setForest k f).Fits a b ↔ r.Fits a b := by
  cases k <;> rfl

end SetForest

/-- Replacing a forest grows a registry when resources that shared a base keep sharing one. -/
theorem Grows.setForest {k : ResKind} {f : Forest}
    (hbase : ∀ a b, r.baseOf a = r.baseOf b →
      (r.setForest k f).baseOf a = (r.setForest k f).baseOf b) :
    r.Grows (r.setForest k f) where
  brief := brief_setForest _ _
  buffer i b hb := by rw [buffer?_setForest]; exact hb
  image i x hx := by rw [image?_setForest]; exact hx
  shader i hi := by rw [shader?_setForest]; exact hi
  program i p hp := by rw [program?_setForest]; exact hp
  bindlessTable i t ht := by rw [bindlessTable?_setForest]; exact ht
  baseOf a b _ _ hab := hbase a b hab

/-- A forest with the roots of the one it replaces gives every resource the same base. -/
theorem baseOf_setForest_of_root {k : ResKind} {f : Forest}
    (hroot : ∀ y, f.root y = (r.forest k).root y) (res : Res) :
    (r.setForest k f).baseOf res = r.baseOf res := by
  unfold baseOf
  rw [forest_setForest]
  split
  · rename_i hk
    rw [hroot, hk]
  · rfl

/-- After `member` is linked under `base`, a resource whose base was `member` has the root of
`base` as its base, and every other resource keeps its base. -/
theorem baseOf_link {base member : Res} {x : Nat} (hw : (r.forest base.kind).Wf)
    (hok : ((r.forest base.kind).link base.id member.id).1 = .ok x)
    (hkind : member.kind = base.kind) (res : Res) :
    (r.setForest base.kind ((r.forest base.kind).link base.id member.id).2).baseOf res =
      if r.baseOf res = member then Res.mk base.kind x else r.baseOf res := by
  unfold baseOf
  rw [forest_setForest]
  by_cases hk : res.kind = base.kind
  · rw [if_pos hk, hk, hw.root_link hok]
    -- within the kind of `base`, a base is `member` exactly when its id is
    have hmember : ∀ n, Res.mk base.kind n = member ↔ n = member.id := by
      intro n
      constructor
      · rintro rfl
        simp
      · rintro rfl
        rw [← hkind, Res.mk_kind_id]
    by_cases hm : (r.forest base.kind).root res.id = member.id
    · rw [if_pos hm, if_pos ((hmember _).mpr hm)]
    · rw [if_neg hm, if_neg (mt (hmember _).mp hm)]
  · rw [if_neg hk, if_neg]
    intro h
    exact hk (by rw [← hkind, ← h, Res.mk_kind])

/-- Registering a free id as the root of a chain of its own: the new resource is its own base,
and every other resource keeps its base. -/
theorem baseOf_of_register {k : ResKind} {id : Nat} (hw : (r.forest k).Wf)
    (hfree : (r.forest k).isRegistered id = false)
    (hforest : ∀ k', r'.forest k' = if k' = k then (r.forest k).register id else r.forest k')
    (res : Res) : r'.baseOf res = if res = Res.mk k id then res else r.baseOf res := by
  have hsame : r'.baseOf res = r.baseOf res := by
    unfold baseOf
    rw [hforest]
    split
    · rename_i hk
      subst hk
      rw [(hw.register hfree).2.1]
    · rfl
  rw [hsame]
  split
  · -- an id its forest does not register is its own root
    rename_i hres
    subst hres
    unfold baseOf
    rw [Res.mk_kind, Res.mk_id, Forest.root_of_fixed (Forest.up_of_not_registered hfree)]
  · rfl

/-! ### Steps -/

/-- Linking keeps a registry consistent, grows it, leaves its passes alone, and puts `member`
into the chain of `base`. -/
theorem Consistent.link (h : r.Consistent) (hw : r.Wf) {base member : Res}
    (hl : Returns (r.link base member) r') :
    r'.Consistent ∧ r.Grows r' ∧ r'.passes = r.passes ∧ r'.passSlots = r.passSlots ∧
      r'.baseOf member = r'.baseOf base := by
  unfold Registry.link at hl
  generalize hp : (r.forest base.kind).link base.id member.id = p at hl
  obtain ⟨result, f⟩ := p
  obtain ⟨x, hf, hl⟩ := hl.bind
  have hok : ((r.forest base.kind).link base.id member.id).1 = .ok x := by
    rw [hp]
    exact BakeM.eq_of_returns_ofAlias hf
  have hwf := (hw.reachable base.kind).wf
  obtain ⟨-, hmember, hne, hx⟩ := hwf.link_allowed hok
  obtain ⟨_, -, hl⟩ := hl.bind
  dsimp only at hl
  split at hl
  swap
  · exact absurd hl Returns.not_throw
  rename_i hcompat
  obtain rfl := hl.eq_of_yields (Yields.run_pure _)
  have hfeq : ((r.forest base.kind).link base.id member.id).2 = f := by rw [hp]
  -- the fit is checked on the new forest, against tables the link leaves alone
  have hfits : r.Fits (Res.mk base.kind x) member := by
    rw [← compatible_iff_fits, ← compatible_setForest base.kind f]
    exact hcompat
  have hkind : member.kind = base.kind := by simpa using hfits.kind_eq
  have hbase := baseOf_link hwf hok hkind
  rw [hfeq] at hbase
  have hg : r.Grows (r.setForest base.kind f) :=
    Grows.setForest fun a b hab => by rw [hbase, hbase, hab]
  refine ⟨h.of_grows hg (fun res hres => ?_) (fun id prog hp s hs => ?_)
    (fun id t ht res hres => ?_) (passes_setForest _ _) (passSlots_setForest _ _), hg,
    passes_setForest _ _, passSlots_setForest _ _, ?_⟩
  · -- a resource whose base was `member` fits `member`, which fits the new base
    rw [contains_setForest] at hres
    rw [fits_setForest, hbase]
    split_ifs with hb
    · exact hfits.trans (hb ▸ h.fits res hres)
    · exact h.fits res hres
  · rw [program?_setForest] at hp
    rw [shader?_setForest]
    exact h.program_shaders id prog hp s hs
  · rw [bindlessTable?_setForest] at ht
    rw [contains_setForest]
    exact h.bindless_contains id t ht res hres
  · -- `member` was a root, and the root of `base` is another node
    have hmem : r.baseOf member = member := by
      unfold baseOf
      rw [hkind, Forest.root_of_fixed (Forest.isRoot_iff_up.mp hmember).2, ← hkind, Res.mk_kind_id]
    have hbb : r.baseOf base = Res.mk base.kind x := by
      unfold baseOf
      rw [hx]
    have hne' : Res.mk base.kind x ≠ member := by
      intro hxm
      apply hne
      rw [← hxm, Res.mk_id, hx]
    rw [hbase, hbase, hmem, hbb, if_pos rfl, if_neg hne']

/-- Registering a free resource as the root of a chain of its own keeps a registry consistent,
when the registry after it fills only that resource's entry. -/
theorem Consistent.register (h : r.Consistent) (hw : r.Wf) {k : ResKind} {id : Nat}
    (hforest : ∀ k', r'.forest k' = if k' = k then (r.forest k).register id else r.forest k')
    (hfree : r.contains (Res.mk k id) = false)
    (hbuffer : ∀ i b, r.buffer? i = some b → r'.buffer? i = some b)
    (himage : ∀ i x, r.image? i = some x → r'.image? i = some x)
    (hcontains : ∀ res, r'.contains res = true → res = Res.mk k id ∨ r.contains res = true)
    (hrest : r'.brief = r.brief ∧ r'.shaders = r.shaders ∧ r'.programs = r.programs ∧
      r'.bindless = r.bindless ∧ r'.passes = r.passes ∧ r'.passSlots = r.passSlots) :
    r'.Consistent := by
  obtain ⟨hbrief, hshaders, hprograms, hbindless, hpasses, hslots⟩ := hrest
  have hbase := baseOf_of_register (hw.reachable k).wf (hw.not_isRegistered hfree) hforest
  have hold : ∀ res, r.contains res = true → res ≠ Res.mk k id := by
    rintro res hres rfl
    rw [hfree] at hres
    cases hres
  have hg : r.Grows r' :=
    { brief := hbrief
      buffer := hbuffer
      image := himage
      shader := fun i hi => by unfold shader?; rw [hshaders]; exact hi
      program := fun i p hp => by unfold program?; rw [hprograms]; exact hp
      bindlessTable := fun i t ht => by unfold bindlessTable?; rw [hbindless]; exact ht
      baseOf := fun a b ha hb hab => by
        rw [hbase, hbase, if_neg (hold a ha), if_neg (hold b hb), hab] }
  refine h.of_grows hg (fun res hres => ?_) (fun i prog hp s hs => ?_) (fun i t ht res hres => ?_)
    hpasses hslots
  · rcases hcontains res hres with rfl | hres'
    · rw [hbase, if_pos rfl]
      exact fits_self hres
    · rw [hbase, if_neg (hold res hres')]
      exact hg.fits (h.fits res hres')
  · unfold program? at hp
    rw [hprograms] at hp
    exact hg.shader s (h.program_shaders i prog hp s hs)
  · unfold bindlessTable? at ht
    rw [hbindless] at ht
    exact hg.contains (h.bindless_contains i t ht res hres)

theorem addBuffer_consistent (h : r.Consistent) (hw : r.Wf) {rec : Stream.Record}
    (hr : Returns (r.addBuffer rec) r') : r'.Consistent := by
  unfold addBuffer at hr
  obtain ⟨p, -, hr⟩ := hr.bind
  obtain ⟨_, hclaim, hr⟩ := hr.bind
  have hfree := getElem?_of_claim (BakeM.eq_of_returns_ofConfig hclaim)
  obtain ⟨_, -, hr⟩ := hr.bind
  obtain ⟨_, -, hr⟩ := hr.bind
  obtain ⟨_, -, hr⟩ := hr.bind
  -- a warning about an empty buffer does not change what is registered
  dsimp only at hr
  obtain rfl : r' = _ := by
    split at hr
    · obtain ⟨_, -, hr⟩ := hr.bind
      exact hr.eq_of_yields (Yields.run_pure _)
    · exact hr.eq_of_yields (Yields.run_pure _)
  refine h.register hw (k := .buffer) (fun k' => by cases k' <;> rfl) ?_
    (fun i b hb => join_set!_of_filled hfree _ hb) (fun _ _ hx => hx) (fun res hres => ?_)
    ⟨rfl, rfl, rfl, rfl, rfl, rfl⟩
  · show (r.buffers[p.id.toNat]?).join.isSome = false
    simp [hfree]
  · cases res with
    | buffer i => exact (isSome_set!_of_free hfree _ hres).imp (fun hid => by rw [hid]; rfl) id
    | image i => exact .inr hres

theorem addImage_consistent (h : r.Consistent) (hw : r.Wf) {rec : Stream.Record}
    (hr : Returns (r.addImage rec) r') : r'.Consistent := by
  unfold addImage at hr
  obtain ⟨p, -, hr⟩ := hr.bind
  obtain ⟨_, hclaim, hr⟩ := hr.bind
  have hfree := getElem?_of_claim (BakeM.eq_of_returns_ofConfig hclaim)
  obtain ⟨_, -, hr⟩ := hr.bind
  obtain ⟨_, -, hr⟩ := hr.bind
  -- every way of sizing the image that does not fail ends in the same registration
  obtain ⟨info, rfl⟩ : ∃ info, r' = { r with
      images := r.images.set! p.id.toNat (some info)
      imageForest := r.imageForest.register p.id.toNat } := by
    dsimp only at hr
    split at hr
    · obtain ⟨_, hx, hr⟩ := hr.bind
      obtain rfl := hx.eq_of_yields (Yields.run_pure _)
      exact ⟨_, hr.eq_of_yields (Yields.run_pure _)⟩
    · split at hr
      · obtain ⟨_, hx, -⟩ := hr.bind
        exact absurd hx Returns.not_throw
      · split at hr
        · obtain ⟨_, hx, -⟩ := hr.bind
          exact absurd hx Returns.not_throw
        · obtain ⟨_, hx, hr⟩ := hr.bind
          obtain rfl := hx.eq_of_yields (Yields.run_pure _)
          exact ⟨_, hr.eq_of_yields (Yields.run_pure _)⟩
    · obtain ⟨_, hx, -⟩ := hr.bind
      exact absurd hx Returns.not_throw
  refine h.register hw (k := .image) (fun k' => by cases k' <;> rfl) ?_ (fun _ _ hb => hb)
    (fun i x hx => join_set!_of_filled hfree _ hx) (fun res hres => ?_)
    ⟨rfl, rfl, rfl, rfl, rfl, rfl⟩
  · show (r.images[p.id.toNat]?).join.isSome = false
    simp [hfree]
  · cases res with
    | buffer i => exact .inr hres
    | image i => exact (isSome_set!_of_free hfree _ hres).imp (fun hid => by rw [hid]; rfl) id

theorem addShader_consistent (h : r.Consistent) {rec : Stream.Record}
    (hr : Returns (r.addShader rec) r') : r'.Consistent := by
  unfold addShader at hr
  obtain ⟨p, -, hr⟩ := hr.bind
  obtain ⟨_, hclaim, hr⟩ := hr.bind
  have hfree := getElem?_of_claim (BakeM.eq_of_returns_ofConfig hclaim)
  obtain ⟨path, -, hr⟩ := hr.bind
  obtain rfl := hr.eq_of_yields (Yields.run_pure _)
  -- a new shader leaves every other entry alone
  have hshader : ∀ i, (r.shader? i).isSome = true →
      ((r.shaders.set! p.id.toNat (some ⟨path, p.stage⟩))[i]?).join.isSome = true := by
    intro i hi
    rw [join_set!_of_free hfree]
    split_ifs
    · rfl
    · exact hi
  exact h.of_grows
    ⟨rfl, fun _ _ h => h, fun _ _ h => h, hshader, fun _ _ h => h, fun _ _ h => h,
      fun _ _ _ _ h => h⟩
    h.fits (fun id prog hp s hs => hshader s (h.program_shaders id prog hp s hs))
    h.bindless_contains rfl rfl

theorem addProgram_consistent (h : r.Consistent) {rec : Stream.Record}
    (hr : Returns (r.addProgram rec) r') : r'.Consistent := by
  unfold addProgram at hr
  obtain ⟨p, -, hr⟩ := hr.bind
  obtain ⟨_, hclaim, hr⟩ := hr.bind
  have hfree := getElem?_of_claim (BakeM.eq_of_returns_ofConfig hclaim)
  obtain ⟨⟨shaders, name⟩, -, hr⟩ := hr.bind
  obtain ⟨_, hknown, hr⟩ := hr.bind
  have hknown := known_forM_isSome (BakeM.eq_of_returns_ofConfig hknown)
  obtain rfl := hr.eq_of_yields (Yields.run_pure _)
  refine h.of_grows
    ⟨rfl, fun _ _ h => h, fun _ _ h => h, fun _ h => h,
      fun _ _ hp => join_set!_of_filled hfree _ hp, fun _ _ h => h, fun _ _ _ _ h => h⟩
    h.fits (fun id prog hp s hs => ?_) h.bindless_contains rfl rfl
  -- the new program's shaders were checked; every other program is an old one
  have hp' : (if id = p.id.toNat then some _ else r.program? id) = some prog :=
    (join_set!_of_free hfree _ id).symm.trans hp
  split_ifs at hp' with hid
  · cases hp'
    exact hknown s hs
  · exact h.program_shaders id prog hp' s hs

theorem addSampler_consistent (h : r.Consistent) {rec : Stream.Record}
    (hr : Returns (r.addSampler rec) r') : r'.Consistent := by
  unfold addSampler at hr
  obtain ⟨_, -, hr⟩ := hr.bind
  obtain ⟨_, -, hr⟩ := hr.bind
  obtain ⟨_, -, hr⟩ := hr.bind
  obtain rfl := hr.eq_of_yields (Yields.run_pure _)
  exact h.of_grows
    ⟨rfl, fun _ _ h => h, fun _ _ h => h, fun _ h => h, fun _ _ h => h, fun _ _ h => h,
      fun _ _ _ _ h => h⟩
    h.fits h.program_shaders h.bindless_contains rfl rfl

theorem addBindless_consistent (h : r.Consistent) {rec : Stream.Record}
    (hr : Returns (r.addBindless rec) r') : r'.Consistent := by
  unfold addBindless at hr
  obtain ⟨p, -, hr⟩ := hr.bind
  obtain ⟨_, hclaim, hr⟩ := hr.bind
  have hfree := getElem?_of_claim (BakeM.eq_of_returns_ofConfig hclaim)
  obtain ⟨⟨refs, name⟩, -, hr⟩ := hr.bind
  obtain ⟨resources, hres, hr⟩ := hr.bind
  have hres := mapM_resourceRef_contains (BakeM.eq_of_returns_ofConfig hres)
  obtain rfl := hr.eq_of_yields (Yields.run_pure _)
  refine h.of_grows
    ⟨rfl, fun _ _ h => h, fun _ _ h => h, fun _ h => h, fun _ _ h => h,
      fun _ _ ht => join_set!_of_filled hfree _ ht, fun _ _ _ _ h => h⟩
    h.fits h.program_shaders (fun id t ht res hres' => ?_) rfl rfl
  -- the new table's resources were checked; every other table is an old one
  have ht' : (if id = p.id.toNat then some _ else r.bindlessTable? id) = some t :=
    (join_set!_of_free hfree _ id).symm.trans ht
  split_ifs at ht' with hid
  · cases ht'
    exact hres res hres'
  · exact h.bindless_contains id t ht' res hres'

theorem addForceAlias_consistent (h : r.Consistent) (hw : r.Wf) {kind : ResKind} {rec : Stream.Record}
    (hr : Returns (r.addForceAlias kind rec) r') : r'.Consistent := by
  unfold addForceAlias at hr
  obtain ⟨_, -, hr⟩ := hr.bind
  obtain ⟨_, -, hr⟩ := hr.bind
  exact (h.link hw hr).1

/-! ### Passes -/

theorem interaction_checked {raw : Stream.InteractionPayload} {mode : AccessMode}
    {pass : PassRef} {i : Interaction} (h : r.interaction raw mode pass = .ok i) :
    i.Checked r mode ∧ i.binding = raw.binding.toNat := by
  unfold interaction at h
  obtain ⟨res, hres, h⟩ := Except.exists_of_bind_eq_ok h
  have hres := contains_of_resourceRef hres
  dsimp only at h
  split at h
  · cases h
    exact ⟨⟨hres, rfl⟩, rfl⟩
  · cases h
  · cases h
  · rename_i o _
    split at h
    · cases h
    · rename_i hne
      split at h
      · cases h
      · rename_i hcontains
        cases h
        exact ⟨⟨hres, _, rfl, hne, Res.mk_kind _ _, by simpa using hcontains⟩, rfl⟩

/-- Decoding the reads or the writes of a pass checks each of them, records each binding slot
in front of the slots already used, and refuses a slot used before. -/
theorem decodeInteractions_eq_ok {pass : PassRef} {mode : AccessMode} :
    ∀ {used : List Nat} {raws : List Stream.InteractionPayload} {is : List Interaction}
      {used' : List Nat}, r.decodeInteractions pass mode used raws = .ok (is, used') →
      used' = (is.map (·.binding)).reverse ++ used ∧ (used.Nodup → used'.Nodup) ∧
        ∀ i ∈ is, i.Checked r mode
  | _, [], _, _, h => by
    cases h
    simp
  | used, raw :: rest, _, _, h => by
    unfold decodeInteractions at h
    dsimp only at h
    split at h
    · cases h
    rename_i hfresh
    obtain ⟨i, hi, h⟩ := Except.exists_of_bind_eq_ok h
    obtain ⟨⟨is', used''⟩, hrest, h⟩ := Except.exists_of_bind_eq_ok h
    cases h
    obtain ⟨hchecked, hbinding⟩ := interaction_checked hi
    obtain ⟨hused, hnodup, hall⟩ := decodeInteractions_eq_ok hrest
    refine ⟨by simp [hused, hbinding], fun hu => hnodup (List.nodup_cons.mpr ⟨?_, hu⟩), ?_⟩
    · simpa using hfresh
    · intro x hx
      rcases List.mem_cons.mp hx with rfl | hx
      · exact hchecked
      · exact hall x hx

/-- Replacing a forest by one with the same roots keeps a registry consistent and grows it. -/
theorem Consistent.setForest (h : r.Consistent) {k : ResKind} {f : Forest}
    (hroot : ∀ y, f.root y = (r.forest k).root y) :
    (r.setForest k f).Consistent ∧ r.Grows (r.setForest k f) := by
  have hbase := baseOf_setForest_of_root hroot
  have hg : r.Grows (r.setForest k f) := Grows.setForest fun a b hab => by rw [hbase, hbase, hab]
  refine ⟨h.of_grows hg (fun res hres => ?_) (fun id prog hp s hs => ?_)
    (fun id t ht res hres => ?_) (passes_setForest _ _) (passSlots_setForest _ _), hg⟩
  · rw [contains_setForest] at hres
    rw [fits_setForest, hbase]
    exact h.fits res hres
  · rw [program?_setForest] at hp
    rw [shader?_setForest]
    exact h.program_shaders id prog hp s hs
  · rw [bindlessTable?_setForest] at ht
    rw [contains_setForest]
    exact h.bindless_contains id t ht res hres

/-- Putting a write's output into the chain of the written resource keeps a registry consistent,
grows it, leaves its passes alone, and leaves the output in that chain. -/
theorem Consistent.chainOutput (h : r.Consistent) (hw : r.Wf) {pass : PassRef} {w : Interaction}
    (hkind : ∀ o, w.output = some o → o.kind = w.resource.kind)
    (hr : Returns (r.chainOutput pass w) r') :
    r'.Consistent ∧ r.Grows r' ∧ r'.passes = r.passes ∧ r'.passSlots = r.passSlots ∧
      ∀ o, w.output = some o → r'.baseOf o = r'.baseOf w.resource := by
  unfold Registry.chainOutput at hr
  split at hr
  · rename_i hnone
    obtain rfl := hr.eq_of_yields (Yields.run_pure _)
    refine ⟨h, Grows.refl _, rfl, rfl, fun o ho => ?_⟩
    rw [hnone] at ho
    cases ho
  · rename_i o hsome
    -- the two look-ups move no resource to another base
    have hwf := (hw.reachable w.resource.kind).wf
    obtain ⟨-, hw1, hk1, -⟩ := hwf.find w.resource.id
    obtain ⟨-, -, hk2, -⟩ := hw1.find o.id
    have hroot : ∀ y, (((r.forest w.resource.kind).find w.resource.id).2.find o.id).2.root y =
        (r.forest w.resource.kind).root y := fun y => by rw [hk2.root, hk1.root]
    obtain ⟨hc2, hg2⟩ := h.setForest hroot
    have hbase2 := baseOf_setForest_of_root hroot
    dsimp only at hr
    split at hr
    · -- both already share a root
      rename_i hroots
      obtain rfl := hr.eq_of_yields (Yields.run_pure _)
      refine ⟨hc2, hg2, passes_setForest _ _, passSlots_setForest _ _, fun o' ho' => ?_⟩
      rw [hsome] at ho'
      cases ho'
      rw [hbase2, hbase2]
      unfold baseOf
      rw [hkind o hsome]
      change (r.forest w.resource.kind).root w.resource.id =
        ((r.forest w.resource.kind).find w.resource.id).2.root o.id at hroots
      rw [hroots, hk1.root]
    · split at hr
      · exact absurd hr Returns.not_throw
      · obtain ⟨hc, hg, hp, hs, hb⟩ := hc2.link (hw.setForest_find _ _ _) hr
        refine ⟨hc, hg2.trans hg, hp.trans (passes_setForest _ _),
          hs.trans (passSlots_setForest _ _), fun o' ho' => ?_⟩
        rw [hsome] at ho'
        cases ho'
        exact hb

/-- Linking the outputs of a pass's writes one after the other keeps a registry consistent, grows
it and leaves its pass slots alone; at the end every output lies in the chain of the resource its
write overwrites. -/
theorem Consistent.chainOutputs (h : r.Consistent) (hw : r.Wf) {pass : PassRef}
    {writes : List Interaction} (hwrites : ∀ w ∈ writes, w.Checked r .write)
    (hr : Returns (writes.foldlM (fun r w => r.chainOutput pass w) r) r') :
    r'.Consistent ∧ r.Grows r' ∧ r'.passSlots = r.passSlots ∧
      ∀ w ∈ writes, ∀ o, w.output = some o → r'.baseOf o = r'.baseOf w.resource := by
  -- the invariant is carried by the fold; an output chained by one link stays chained through
  -- the later ones, since resources that share a base keep sharing one
  obtain ⟨⟨-, h', hg, hslots⟩, hchained⟩ := Returns.foldlM_all
    (I := fun acc => acc.Wf ∧ acc.Consistent ∧ r.Grows acc ∧ acc.passSlots = r.passSlots)
    (P := fun w acc => ∀ o, w.output = some o → acc.baseOf o = acc.baseOf w.resource) hr
    ⟨hw, h, Grows.refl r, rfl⟩ fun acc w b hw' hacc hb => by
      obtain ⟨hwacc, hcacc, hgacc, hsacc⟩ := hacc
      have hkind : ∀ o, w.output = some o → o.kind = w.resource.kind := by
        intro o ho
        obtain ⟨o', ho', -, hk, -⟩ := (hwrites w hw').write_output
        rw [ho] at ho'
        cases ho'
        exact hk
      obtain ⟨hcb, hgb, -, hsb, hchain⟩ := hcacc.chainOutput hwacc hkind hb
      refine ⟨⟨(hwacc.chainOutput hb).1, hcb, hgacc.trans hgb, hsb.trans hsacc⟩, hchain,
        fun y hy hPy o ho => ?_⟩
      obtain ⟨o', ho', -, -, hco⟩ := (hwrites y hy).write_output
      rw [ho] at ho'
      cases ho'
      exact hgb.baseOf _ _ (hgacc.contains hco) (hgacc.contains (hwrites y hy).1) (hPy o ho)
  exact ⟨h', hg, hslots, hchained⟩

/-- The binding slots of the reads and then the writes of one pass record are pairwise distinct:
the slots of the writes are decoded against those the reads used. -/
theorem bindings_nodup_of_decode {pass : PassRef} {raws raws' : List Stream.InteractionPayload}
    {reads writes : List Interaction} {used used' : List Nat}
    (hreads : r.decodeInteractions pass .read [] raws = .ok (reads, used))
    (hwrites : r.decodeInteractions pass .write used raws' = .ok (writes, used')) :
    ((reads ++ writes).map (·.binding)).Nodup := by
  obtain ⟨hused, hnodup, -⟩ := decodeInteractions_eq_ok hreads
  obtain ⟨hused', hnodup', -⟩ := decodeInteractions_eq_ok hwrites
  -- the slots of the writes went in front of those of the reads
  have hall := hnodup' (hnodup List.nodup_nil)
  rw [hused', hused, List.append_nil, ← List.reverse_append, ← List.map_append,
    List.nodup_reverse] at hall
  exact hall

/-- The resources of a registered bindless table are registered. -/
theorem Consistent.contains_of_table (h : r.Consistent) {b : Option Nat} {res : Res}
    (hres : res ∈ ((b.bind r.bindlessTable?).map (·.resources)).getD []) :
    r.contains res = true := by
  cases b with
  | none => simp at hres
  | some b =>
    cases ht : r.bindlessTable? b with
    | none => simp [ht] at hres
    | some t =>
      simp only [Option.bind_some, ht, Option.map_some, Option.getD_some] at hres
      exact h.bindless_contains b t ht res hres

/-- Appending a pass under the free slot of its id keeps a registry consistent, when the pass
keeps the laws of a pass. -/
theorem Consistent.push (h : r.Consistent) {P : PassInfo} (hfree : r.passSlots[P.id]? = some none)
    (hP : P.Consistent r) :
    ({ r with passSlots := r.passSlots.set! P.id (some r.passes.size)
              passes := r.passes.push P } : Registry).Consistent where
  fits := h.fits
  program_shaders := h.program_shaders
  bindless_contains := h.bindless_contains
  passSlots_size := by simp [h.passSlots_size]
  passIndex id k := by
    show ((r.passSlots.set! P.id (some r.passes.size))[id]?).join = some k ↔
      ∃ q, (r.passes.push P)[k]? = some q ∧ q.id = id
    rw [join_set!_of_free hfree, Array.getElem?_push]
    by_cases hid : id = P.id
    · -- the new slot holds the new pass, and no old pass has its id
      rw [if_pos hid]
      constructor
      · rintro ⟨⟩
        exact ⟨P, by simp, hid.symm⟩
      · rintro ⟨q, hq, rfl⟩
        split at hq
        · rename_i hk
          exact congrArg some hk.symm
        · have hold := (h.passIndex _ k).mpr ⟨q, hq, rfl⟩
          unfold passIndex? at hold
          rw [hid, hfree] at hold
          cases hold
    · rw [if_neg hid]
      refine (h.passIndex id k).trans ⟨?_, ?_⟩
      · rintro ⟨q, hq, rfl⟩
        refine ⟨q, ?_, rfl⟩
        rw [if_neg]
        · exact hq
        · rintro rfl
          simp at hq
      · rintro ⟨q, hq, rfl⟩
        split at hq
        · cases hq
          exact absurd rfl hid
        · exact ⟨q, hq, rfl⟩
  passes q hq := by
    refine PassInfo.Consistent.mono (r := r) ?_
      ⟨rfl, fun _ _ h => h, fun _ _ h => h, fun _ h => h, fun _ _ h => h, fun _ _ h => h,
        fun _ _ _ _ h => h⟩
    rcases Array.mem_push.mp hq with hq | rfl
    · exact h.passes q hq
    · exact hP

theorem addPass_consistent (h : r.Consistent) (hw : r.Wf) {rec : Stream.Record}
    (hr : Returns (r.addPass rec) r') : r'.Consistent := by
  unfold addPass at hr
  obtain ⟨p, -, hr⟩ := hr.bind
  dsimp only at hr
  -- a pass id outside the table or already taken fails
  split at hr
  · exact absurd hr Returns.bind_throw
  · exact absurd hr Returns.bind_throw
  rename_i hfree
  obtain ⟨⟨reads, writes, name⟩, -, hr⟩ := hr.bind
  obtain ⟨queue, -, hr⟩ := hr.bind
  -- the program and the bindless table, if any, must be registered
  obtain ⟨hprog, hr⟩ : (∀ prog, Stream.idOfWord p.program = some prog →
      (r.program? prog).isSome = true) ∧ Returns _ r' := by
    split at hr
    · rename_i prog hsome
      obtain ⟨⟨⟩, hknown, hr⟩ := hr.bind
      refine ⟨fun prog' h' => ?_, hr⟩
      rw [hsome] at h'
      cases h'
      exact known_isSome (BakeM.eq_of_returns_ofConfig hknown)
    · rename_i hnone
      exact ⟨fun prog' h' => absurd h' (hnone prog'), hr⟩
  obtain ⟨hbindless, hr⟩ : (∀ b, Stream.idOfWord p.bindless = some b →
      (r.bindlessTable? b).isSome = true) ∧ Returns _ r' := by
    split at hr
    · rename_i b hsome
      obtain ⟨⟨⟩, hknown, hr⟩ := hr.bind
      refine ⟨fun b' h' => ?_, hr⟩
      rw [hsome] at h'
      cases h'
      exact known_isSome (BakeM.eq_of_returns_ofConfig hknown)
    · rename_i hnone
      exact ⟨fun b' h' => absurd h' (hnone b'), hr⟩
  obtain ⟨⟨reads', used⟩, hreads, hr⟩ := hr.bind
  obtain ⟨⟨writes', used'⟩, hwrites, hr⟩ := hr.bind
  obtain ⟨r1, hr1, hr⟩ := hr.bind
  obtain ⟨_, -, hr⟩ := hr.bind
  obtain rfl := hr.eq_of_yields (Yields.run_pure _)
  have hnodup := bindings_nodup_of_decode (BakeM.eq_of_returns_ofConfig hreads)
    (BakeM.eq_of_returns_ofConfig hwrites)
  obtain ⟨-, -, hreads⟩ := decodeInteractions_eq_ok (BakeM.eq_of_returns_ofConfig hreads)
  obtain ⟨-, -, hwrites⟩ := decodeInteractions_eq_ok (BakeM.eq_of_returns_ofConfig hwrites)
  obtain ⟨h1, hg, hslots, hchained⟩ := h.chainOutputs hw hwrites hr1
  refine h1.push (by rw [hslots]; exact hfree) ⟨?_, ?_, ?_, hnodup, ?_, ?_, ?_⟩
  · intro i hi
    rcases List.mem_append.mp hi with hi | hi
    · exact hg.contains (hreads i hi).1
    · exact hg.contains (hwrites i hi).1
  · exact fun i hi => (hreads i hi).read_output
  · intro i hi
    obtain ⟨o, ho, hne, hk, hco⟩ := (hwrites i hi).write_output
    exact ⟨o, ho, hne, hk, hg.contains hco, hchained i hi o ho⟩
  · exact fun prog hp => hg.isSome_program (hprog prog hp)
  · exact fun b hb => hg.isSome_bindlessTable (hbindless b hb)
  · exact fun res hres => h1.contains_of_table hres

/-! ### The stream -/

theorem addRecord_consistent (h : r.Consistent) (hw : r.Wf) {rec : Stream.Record}
    (hr : Returns (r.addRecord rec) r') : r'.Consistent := by
  unfold addRecord at hr
  split at hr
  · exact absurd hr Returns.not_throw
  · exact addShader_consistent h hr
  · exact addProgram_consistent h hr
  · exact addBuffer_consistent h hw hr
  · exact addImage_consistent h hw hr
  · exact addSampler_consistent h hr
  · exact addBindless_consistent h hr
  · exact addForceAlias_consistent h hw hr
  · exact addForceAlias_consistent h hw hr
  · exact addPass_consistent h hw hr
  · exact absurd hr Returns.not_throw

/-- Reading records one after the other keeps a registry consistent. -/
theorem addRecords_consistent : ∀ (fuel : Nat) {r r' : Registry} {rd : Stream.Reader},
    r.Consistent → r.Wf → Returns (r.addRecords fuel rd) r' → r'.Consistent
  | 0, _, _, _, h, _, hr => by
    obtain rfl := hr.eq_of_yields (Yields.run_pure _)
    exact h
  | fuel + 1, _, _, _, h, hw, hr => by
    unfold addRecords at hr
    obtain ⟨⟨rec, rd'⟩, -, hr⟩ := hr.bind
    dsimp only at hr
    split at hr
    · obtain rfl := hr.eq_of_yields (Yields.run_pure _)
      exact h
    · obtain ⟨r1, h1, hr⟩ := hr.bind
      exact addRecords_consistent fuel (addRecord_consistent h hw h1) (addRecord_wf hw h1) hr

theorem join_replicate_none {α : Type} (n i : Nat) :
    ((Array.replicate n (none : Option α))[i]?).join = none := by
  rw [Array.getElem?_replicate]
  split <;> rfl

/-- The empty registry of a brief is consistent: it registers nothing, and its pass slots are
sized by the pass count. -/
theorem ofBrief_consistent (b : Stream.BriefPayload) : (ofBrief b).Consistent where
  fits res hres := by
    cases res <;> simp [ofBrief, contains, buffer?, image?, join_replicate_none] at hres
  program_shaders id prog hp := by simp [ofBrief, program?, join_replicate_none] at hp
  bindless_contains id t ht := by simp [ofBrief, bindlessTable?, join_replicate_none] at ht
  passSlots_size := by simp [ofBrief]
  passIndex id k := by simp [ofBrief, passIndex?, join_replicate_none]
  passes p hp := by simp [ofBrief] at hp

/-- Flattening the forests keeps a registry consistent: it moves no resource to another base. -/
theorem Consistent.flattenForests (h : r.Consistent) (hw : r.Wf) : r.flattenForests.Consistent := by
  have hk : ∀ k, Forest.Keeps (r.forest k) (r.forest k).flatten := fun k =>
    (hw.reachable k).wf.flatten.2.1
  obtain ⟨h1, -⟩ := h.setForest (k := .buffer) (hk .buffer).root
  exact (h1.setForest (k := .image) (hk .image).root).1

/-- A registry that ingestion returns is consistent, and its present image is registered. -/
theorem consistent_of_ingest {bytes : Bytes} (h : Returns (Registry.ingest bytes) r) :
    r.Consistent ∧ ∀ img, r.presentImage = some img → r.contains (.image img) = true := by
  unfold ingest at h
  obtain ⟨_, -, h⟩ := h.bind
  obtain ⟨⟨first, rd⟩, -, h⟩ := h.bind
  dsimp only at h
  -- a stream that does not start with the brief fails
  split at h
  · exact absurd h Returns.bind_throw
  obtain ⟨brief, -, h⟩ := h.bind
  obtain ⟨_, -, h⟩ := h.bind
  obtain ⟨_, -, h⟩ := h.bind
  obtain ⟨_, -, h⟩ := h.bind
  obtain ⟨r1, h1, h⟩ := h.bind
  have hc := addRecords_consistent _ (ofBrief_consistent brief) (ofBrief_wf brief) h1
  have hw := addRecords_wf _ (ofBrief_wf brief) h1
  -- the present image, if any, must be registered once the records are read
  obtain ⟨hpresent, h⟩ : (∀ img, r1.brief.presentImage = some img →
      r1.contains (.image img) = true) ∧ Returns _ r := by
    split at h
    · rename_i img himg
      obtain ⟨⟨⟩, hknown, h⟩ := h.bind
      refine ⟨fun img' h' => ?_, h⟩
      rw [himg] at h'
      cases h'
      exact known_isSome (BakeM.eq_of_returns_ofConfig hknown)
    · rename_i hnone
      exact ⟨fun img' h' => absurd h' (hnone img'), h⟩
  obtain ⟨_, -, h⟩ := h.bind
  obtain rfl := h.eq_of_yields (Yields.run_pure _)
  exact ⟨hc.flattenForests hw, hpresent⟩

/-- **Every registry that `Registry.ingest` returns is consistent**: resources fit the bases of
their chains, passes keep the laws of a pass, programs and bindless tables name registered
entries; pass ids are distinct, lie below the pass count and find their own passes; and the
present image is registered. -/
theorem ingest_consistent {bytes : Bytes} (h : Returns (Registry.ingest bytes) r) :
    r.Consistent ∧ (r.passes.toList.map PassInfo.id).Nodup ∧
      (∀ p ∈ r.passes, p.id < r.brief.passCount ∧ r.pass? p.id = some p) ∧
      ∀ img, r.presentImage = some img → r.contains (.image img) = true := by
  obtain ⟨hc, hpresent⟩ := consistent_of_ingest h
  exact ⟨hc, hc.nodup_ids, fun p hp => ⟨hc.id_lt hp, hc.pass?_id hp⟩, hpresent⟩

/-- Three buffers; buffer 2 is forced into the chain of buffer 0, and a pass reads buffer 2 and
writes buffer 0 into buffer 1, which puts buffer 1 into that chain too. -/
def chainedStream : Bytes :=
  let buffer (size : UInt64) (id : UInt32) : Stream.Record :=
    Stream.Record.ofPayload .registerBuffer
      ({ size, id, usage := 0x23, memory := 0, lifetime := 0, nameLen := 0, reserved := 0 } :
        Stream.BufferPayload) []
  Stream.write Stream.inputMagic
    [Stream.Record.ofPayload .setBrief
        ({ bufferCount := 3, imageCount := 0, passCount := 1, programCount := 0,
           shaderCount := 0, samplerCount := 0, bindlessCount := 0, presentImage := Stream.noneId,
           renderWidth := 0, renderHeight := 0, renderFormat := 0, reserved := 0 } :
          Stream.BriefPayload) [],
     buffer 256 0, buffer 128 1, buffer 64 2,
     Stream.Record.ofPayload .forceAliasBuffer
        ({ base := 0, member := 2 } : Stream.ForceAliasPayload) [],
     Stream.Record.ofPayload .registerPass
        ({ id := 0, queue := 0, program := Stream.noneId, bindless := Stream.noneId, readCount := 1,
           writeCount := 1, nameLen := 0, reserved := 0 } : Stream.PassPayload)
        (Stream.Tail.ofItems
          [({ stage := 1, access := 1, resourceKind := 0, resource := 2, output := Stream.noneId,
              binding := 0, layout := 0, reserved := 0 } : Stream.InteractionPayload),
           { stage := 1, access := 2, resourceKind := 0, resource := 0, output := 1, binding := 1,
              layout := 0, reserved := 0 }])]

/-- Ingesting `chainedStream` succeeds with one pass and all three buffers in one chain. -/
theorem chainedStream_consistent : ∃ r, Returns (Registry.ingest chainedStream) r ∧
    r.passes.size = 1 ∧ r.baseOf (.buffer 1) = .buffer 0 ∧ r.baseOf (.buffer 2) = .buffer 0 ∧
    r.Consistent ∧ (r.passes.toList.map PassInfo.id).Nodup ∧
      (∀ p ∈ r.passes, p.id < r.brief.passCount ∧ r.pass? p.id = some p) ∧
      ∀ img, r.presentImage = some img → r.contains (.image img) = true := by
  have hrun : (((Registry.ingest chainedStream).run.run #[]).1.toOption.map fun r =>
      (r.passes.size, r.baseOf (.buffer 1), r.baseOf (.buffer 2))) =
        some (1, .buffer 0, .buffer 0) := by
    decide +kernel
  cases hres : ((Registry.ingest chainedStream).run.run #[]).1 with
  | error e =>
    rw [hres] at hrun
    simp [Except.toOption] at hrun
  | ok r =>
    rw [hres] at hrun
    obtain ⟨h1, h2, h3⟩ : r.passes.size = 1 ∧ r.baseOf (.buffer 1) = .buffer 0 ∧
        r.baseOf (.buffer 2) = .buffer 0 := by
      simpa [Except.toOption] using hrun
    exact ⟨r, ⟨#[], hres⟩, h1, h2, h3, ingest_consistent ⟨#[], hres⟩⟩

end Registry

end RenderGraph
