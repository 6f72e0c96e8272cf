import RenderGraph.Proofs.Caching
import RenderGraph.Proofs.Tables
import RenderGraph.Proofs.SlotMaps
/-!
# Well-formed declarations

The front end only builds declarations of one shape (`Declaration.Wf`):

* its slot stores are well formed, and the pass order lists every live pass once;
* a render-sized image carries no format of its own;
* every recorded alias shares memory with its base: both are live resources of one kind and one
  description; a later pair's alias is neither the base nor the alias of an earlier pair;
* a read has no output; a write has one, recorded as an alias of the written resource while both
  are live;
* the binding slots of a pass are distinct, and no two writes have the same output;
* every resource a pair or a pass names was handed out by its slot store.

Each kind of change the front end makes keeps it, one lemma each (`Wf.insertBuffer`,
`Wf.addWrite`, `Wf.removeImage`, ...), so every call of the front end does (`FrontEnd.wf`), and
every sequence of front-end calls on a new session leaves the session's declaration well formed,
whatever the calls return (`Session.performs_wf`).

Nothing here reads how a slot store keeps its values: the front-end facts hold over any store
that keeps the laws of `LawfulSlotStore`, and a session's declaration, which uses `SlotMap`, is
one instance.
-/

namespace RenderGraph

namespace Declaration

variable {M : Type → Type} [SlotStore M] [LawfulSlotStore M] {d : Declaration M}

/-- Whether the slot store of a resource key's kind handed the key out. -/
def Issued (d : Declaration M) : ResKey → Prop
  | .buffer k => LawfulSlotStore.Issued d.buffers k
  | .image k => LawfulSlotStore.Issued d.images k

/-- Two distinct declared resources of one kind and one memory description, as the base and the
alias of a recorded pair are. -/
def SharesMemory (d : Declaration M) : ResKey → ResKey → Prop
  | .buffer a, .buffer b =>
    a ≠ b ∧ ∃ A B, SlotStore.get? d.buffers a = some A ∧ SlotStore.get? d.buffers b = some B ∧ A.desc = B.desc
  | .image a, .image b =>
    a ≠ b ∧ ∃ A B, SlotStore.get? d.images a = some A ∧ SlotStore.get? d.images b = some B ∧ A.desc = B.desc
  | _, _ => False

/-- A resource key that a recorded pair, or a read or write of a declared pass, names. -/
def Mentions (d : Declaration M) (x : ResKey) : Prop :=
  (∃ q ∈ d.aliases, x = q.1 ∨ x = q.2) ∨
    ∃ k p, SlotStore.get? d.passes k = some p ∧ ∃ i ∈ p.reads ++ p.writes, x = i.resource ∨ i.output = some x

/-- What the front end keeps of every declaration it builds. -/
structure Wf (d : Declaration M) : Prop where
  buffers : LawfulSlotStore.Wf d.buffers
  images : LawfulSlotStore.Wf d.images
  shaders : LawfulSlotStore.Wf d.shaders
  programs : LawfulSlotStore.Wf d.programs
  samplers : LawfulSlotStore.Wf d.samplers
  bindless : LawfulSlotStore.Wf d.bindless
  passes : LawfulSlotStore.Wf d.passes
  /-- The pass order lists every declared pass once. -/
  passOrder_nodup : d.passOrder.Nodup
  mem_passOrder : ∀ k, k ∈ d.passOrder ↔ SlotStore.contains d.passes k = true
  /-- A render-sized image takes the render format. -/
  renderSized : ∀ k img, SlotStore.get? d.images k = some img → img.desc.isRenderSized = true →
    img.desc.format = .undefined
  /-- The base and the alias of a recorded pair share their memory. -/
  pairs : ∀ q ∈ d.aliases, d.SharesMemory q.1 q.2
  /-- An alias is minted for its pair: no earlier pair names it. -/
  pairs_fresh : d.aliases.Pairwise fun q q' => q'.2 ≠ q.1 ∧ q'.2 ≠ q.2
  reads : ∀ k p, SlotStore.get? d.passes k = some p → ∀ x ∈ p.reads, x.output = none
  /-- A write mints its output as an alias of the written resource, recorded while both exist. -/
  writes : ∀ k p, SlotStore.get? d.passes k = some p → ∀ x ∈ p.writes, ∃ o, x.output = some o ∧
    (d.hasRes x.resource = true → d.hasRes o = true → (x.resource, o) ∈ d.aliases)
  bindings : ∀ k p, SlotStore.get? d.passes k = some p → ((p.reads ++ p.writes).map (·.binding)).Nodup
  /-- Every resource key named anywhere was handed out, so a new key is named nowhere. -/
  issued : ∀ x, d.Mentions x → d.Issued x
  /-- One write mints each output. -/
  outputs : ∀ k₁ k₂ p₁ p₂ (i₁ i₂ : Nat) (w₁ w₂ : InteractionDecl), SlotStore.get? d.passes k₁ = some p₁ →
    SlotStore.get? d.passes k₂ = some p₂ → p₁.writes[i₁]? = some w₁ → p₂.writes[i₂]? = some w₂ →
    w₁.output = w₂.output → k₁ = k₂ ∧ i₁ = i₂

theorem issued_of_hasRes {x : ResKey} (h : d.hasRes x = true) : d.Issued x := by
  cases x with
  | buffer k => exact LawfulSlotStore.issued_of_get? (Option.isSome_iff_exists.mp h).choose_spec
  | image k => exact LawfulSlotStore.issued_of_get? (Option.isSome_iff_exists.mp h).choose_spec

omit [LawfulSlotStore M] in
theorem SharesMemory.hasRes {x y : ResKey} (h : d.SharesMemory x y) :
    d.hasRes x = true ∧ d.hasRes y = true := by
  cases x <;> cases y <;> simp only [SharesMemory] at h
  all_goals
    obtain ⟨-, A, B, hA, hB, -⟩ := h
    simp [Declaration.hasRes, SlotStore.contains, hA, hB]

/-- Changing only the tables that name no resource and no pass keeps the invariant. -/
theorem Wf.setTables (h : d.Wf) {s : M ShaderDecl} {p : M ProgramDecl}
    {sa : M SamplerDecl} {b : M BindlessDecl} (hs : LawfulSlotStore.Wf s)
    (hp : LawfulSlotStore.Wf p) (hsa : LawfulSlotStore.Wf sa) (hb : LawfulSlotStore.Wf b)
    (present : Option Key) (extent : Option (UInt32 × UInt32)) (format : Format) (dirty : Bool) :
    { d with
        shaders := s, programs := p, samplers := sa, bindless := b, present,
        renderExtent := extent, renderFormat := format, dirty }.Wf :=
  { h with shaders := hs, programs := hp, samplers := hsa, bindless := hb }

/-- Whether the declaration changed since its last bake does not matter to the invariant. -/
theorem Wf.setDirty (h : d.Wf) (dirty : Bool) : ({ d with dirty } : Declaration M).Wf := { h with }

/-! ### Declaring a resource -/

section Insert

variable {B : BufferDecl} {I : ImageDecl} {k : Key} {mb : M BufferDecl}
  {mi : M ImageDecl}

theorem issued_insertBuffer (h : d.Wf) (hins : SlotStore.insert d.buffers B = (k, mb)) (dirty : Bool)
    {x : ResKey} (hx : d.Issued x) : ({ d with buffers := mb, dirty } : Declaration M).Issued x := by
  cases x with
  | buffer k' =>
    have := LawfulSlotStore.issued_insert B h.buffers hx
    rwa [hins] at this
  | image k' => exact hx

theorem hasRes_insertBuffer (h : d.Wf) (hins : SlotStore.insert d.buffers B = (k, mb)) (dirty : Bool)
    {x : ResKey} (hx : d.Issued x) : ({ d with buffers := mb, dirty } : Declaration M).hasRes x = d.hasRes x := by
  cases x with
  | buffer k' =>
    have := SlotStore.get?_insert_of_issued h.buffers B hx
    rw [hins] at this
    simp only [hasRes, SlotStore.contains, this]
  | image k' => rfl

theorem SharesMemory.insertBuffer (h : d.Wf) (hins : SlotStore.insert d.buffers B = (k, mb)) (dirty : Bool)
    {x y : ResKey} (hxy : d.SharesMemory x y) : ({ d with buffers := mb, dirty } : Declaration M).SharesMemory x y := by
  cases x <;> cases y <;> simp only [SharesMemory] at hxy ⊢
  · obtain ⟨hne, A, A', hA, hA', hdesc⟩ := hxy
    have e := SlotStore.get?_insert_of_issued h.buffers B (LawfulSlotStore.issued_of_get? hA)
    have e' := SlotStore.get?_insert_of_issued h.buffers B (LawfulSlotStore.issued_of_get? hA')
    rw [hins] at e e'
    exact ⟨hne, A, A', e.trans hA, e'.trans hA', hdesc⟩
  · exact hxy

/-- Declaring a buffer keeps the invariant: its key is new, so nothing names it yet. -/
theorem Wf.insertBuffer (h : d.Wf) (hins : SlotStore.insert d.buffers B = (k, mb)) (dirty : Bool) :
    ({ d with buffers := mb, dirty } : Declaration M).Wf :=
  { h with
    buffers := by
      have := LawfulSlotStore.wf_insert B h.buffers
      rwa [hins] at this
    pairs := fun q hq => (h.pairs q hq).insertBuffer h hins dirty
    writes := fun k' p hp x hx => by
      obtain ⟨o, ho, hpair⟩ := h.writes k' p hp x hx
      -- the written resource and its output are named, so neither is the new key
      have hres : d.Issued x.resource := h.issued _ (.inr ⟨k', p, hp, x, List.mem_append_right _ hx, .inl rfl⟩)
      have hout : d.Issued o := h.issued _ (.inr ⟨k', p, hp, x, List.mem_append_right _ hx, .inr ho⟩)
      refine ⟨o, ho, fun h1 h2 => hpair ?_ ?_⟩
      · rwa [← hasRes_insertBuffer h hins dirty hres]
      · rwa [← hasRes_insertBuffer h hins dirty hout]
    issued := fun x hx => issued_insertBuffer h hins dirty (h.issued x hx) }

theorem issued_insertImage (h : d.Wf) (hins : SlotStore.insert d.images I = (k, mi)) (dirty : Bool)
    {x : ResKey} (hx : d.Issued x) : ({ d with images := mi, dirty } : Declaration M).Issued x := by
  cases x with
  | buffer k' => exact hx
  | image k' =>
    have := LawfulSlotStore.issued_insert I h.images hx
    rwa [hins] at this

theorem hasRes_insertImage (h : d.Wf) (hins : SlotStore.insert d.images I = (k, mi)) (dirty : Bool)
    {x : ResKey} (hx : d.Issued x) : ({ d with images := mi, dirty } : Declaration M).hasRes x = d.hasRes x := by
  cases x with
  | buffer k' => rfl
  | image k' =>
    have := SlotStore.get?_insert_of_issued h.images I hx
    rw [hins] at this
    simp only [hasRes, SlotStore.contains, this]

theorem SharesMemory.insertImage (h : d.Wf) (hins : SlotStore.insert d.images I = (k, mi)) (dirty : Bool)
    {x y : ResKey} (hxy : d.SharesMemory x y) : ({ d with images := mi, dirty } : Declaration M).SharesMemory x y := by
  cases x <;> cases y <;> simp only [SharesMemory] at hxy ⊢
  · exact hxy
  · obtain ⟨hne, A, A', hA, hA', hdesc⟩ := hxy
    have e := SlotStore.get?_insert_of_issued h.images I (LawfulSlotStore.issued_of_get? hA)
    have e' := SlotStore.get?_insert_of_issued h.images I (LawfulSlotStore.issued_of_get? hA')
    rw [hins] at e e'
    exact ⟨hne, A, A', e.trans hA, e'.trans hA', hdesc⟩

/-- Declaring an image that takes the render format when render-sized keeps the invariant. -/
theorem Wf.insertImage (h : d.Wf) (hins : SlotStore.insert d.images I = (k, mi))
    (hI : I.desc.isRenderSized = true → I.desc.format = .undefined) (dirty : Bool) :
    ({ d with images := mi, dirty } : Declaration M).Wf :=
  { h with
    images := by
      have := LawfulSlotStore.wf_insert I h.images
      rwa [hins] at this
    renderSized := fun k' img himg => by
      have e := LawfulSlotStore.get?_insert I k' h.images
      rw [hins] at e
      dsimp only at himg
      rw [e] at himg
      split at himg
      · obtain rfl := Option.some.inj himg
        exact hI
      · exact h.renderSized k' img himg
    pairs := fun q hq => (h.pairs q hq).insertImage h hins dirty
    writes := fun k' p hp x hx => by
      obtain ⟨o, ho, hpair⟩ := h.writes k' p hp x hx
      have hres : d.Issued x.resource := h.issued _ (.inr ⟨k', p, hp, x, List.mem_append_right _ hx, .inl rfl⟩)
      have hout : d.Issued o := h.issued _ (.inr ⟨k', p, hp, x, List.mem_append_right _ hx, .inr ho⟩)
      refine ⟨o, ho, fun h1 h2 => hpair ?_ ?_⟩
      · rwa [← hasRes_insertImage h hins dirty hres]
      · rwa [← hasRes_insertImage h hins dirty hout]
    issued := fun x hx => issued_insertImage h hins dirty (h.issued x hx) }

/-- The key of a new buffer is named nowhere. -/
theorem not_mentions_insertBuffer (h : d.Wf) (hins : SlotStore.insert d.buffers B = (k, mb)) :
    ¬d.Mentions (.buffer k) := fun hm => by
  have := LawfulSlotStore.not_issued_insert B h.buffers
  rw [hins] at this
  exact this (h.issued _ hm)

theorem not_mentions_insertImage (h : d.Wf) (hins : SlotStore.insert d.images I = (k, mi)) :
    ¬d.Mentions (.image k) := fun hm => by
  have := LawfulSlotStore.not_issued_insert I h.images
  rw [hins] at this
  exact this (h.issued _ hm)

end Insert

/-! ### Changing a pass -/

section Passes

variable {k : Key} {f : PassDecl → PassDecl}

/-- Changing a pass but not its reads and writes keeps the invariant. -/
theorem Wf.modifyPass (h : d.Wf) (hf : ∀ p, (f p).reads = p.reads ∧ (f p).writes = p.writes)
    (dirty : Bool) : ({ d with passes := SlotStore.modify d.passes k f, dirty } : Declaration M).Wf := by
  -- each pass of the changed map is a pass of the old one, with the same reads and writes
  have hview : ∀ k' p', SlotStore.get? (SlotStore.modify d.passes k f) k' = some p' →
      ∃ p, SlotStore.get? d.passes k' = some p ∧ p'.reads = p.reads ∧ p'.writes = p.writes := by
    intro k' p' hp'
    rcases SlotStore.get?_modify_eq_some hp' with ⟨rfl, p, hp, rfl⟩ | ⟨-, hp⟩
    · exact ⟨p, hp, hf p⟩
    · exact ⟨p', hp, rfl, rfl⟩
  have hmentions : ∀ x, ({ d with passes := SlotStore.modify d.passes k f, dirty } : Declaration M).Mentions x →
      d.Mentions x := by
    rintro x (hx | ⟨k', p', hp', i, hi, hx⟩)
    · exact .inl hx
    · obtain ⟨p, hp, hr, hw⟩ := hview k' p' hp'
      rw [hr, hw] at hi
      exact .inr ⟨k', p, hp, i, hi, hx⟩
  exact
    { h with
      passes := LawfulSlotStore.wf_modify k f h.passes
      mem_passOrder := fun k' => by
        rw [h.mem_passOrder]
        exact iff_of_eq (congrArg (· = true) (SlotStore.contains_modify k f k').symm)
      reads := fun k' p' hp' => by
        obtain ⟨p, hp, hr, -⟩ := hview k' p' hp'
        rw [hr]
        exact h.reads k' p hp
      writes := fun k' p' hp' => by
        obtain ⟨p, hp, -, hw⟩ := hview k' p' hp'
        rw [hw]
        exact h.writes k' p hp
      bindings := fun k' p' hp' => by
        obtain ⟨p, hp, hr, hw⟩ := hview k' p' hp'
        rw [hr, hw]
        exact h.bindings k' p hp
      issued := fun x hx => h.issued x (hmentions x hx)
      outputs := fun k₁ k₂ p₁ p₂ i₁ i₂ w₁ w₂ hp₁ hp₂ hw₁ hw₂ ho => by
        obtain ⟨q₁, hq₁, -, e₁⟩ := hview k₁ p₁ hp₁
        obtain ⟨q₂, hq₂, -, e₂⟩ := hview k₂ p₂ hp₂
        rw [e₁] at hw₁
        rw [e₂] at hw₂
        exact h.outputs k₁ k₂ q₁ q₂ i₁ i₂ w₁ w₂ hq₁ hq₂ hw₁ hw₂ ho }

theorem not_mem_bindings {p : PassDecl} {binding : UInt32} (h : p.usesBinding binding = false) :
    binding ∉ (p.reads ++ p.writes).map (·.binding) := by
  intro hb
  obtain ⟨x, hx, rfl⟩ := List.mem_map.mp hb
  have := List.any_eq_false.mp h x hx
  simp at this

/-- A read of a declared resource through a free binding slot of a declared pass keeps the
invariant. -/
theorem Wf.addRead (h : d.Wf) {res : ResKey} {binding : UInt32} {access : Access}
    (hres : d.hasRes res = true) {p₀ : PassDecl} (hp₀ : SlotStore.get? d.passes k = some p₀)
    (hfree : p₀.usesBinding binding = false) (dirty : Bool) :
    ({ d with
        passes := SlotStore.modify d.passes k fun p =>
          { p with reads := p.reads ++ [⟨res, none, binding, access⟩] },
        dirty } : Declaration M).Wf := by
  -- each pass of the changed map is an old pass, the changed one with the read added
  have hview : ∀ k' p', SlotStore.get? (SlotStore.modify d.passes k fun p =>
      { p with reads := p.reads ++ [⟨res, none, binding, access⟩] }) k' = some p' →
      ∃ p, SlotStore.get? d.passes k' = some p ∧ p'.writes = p.writes ∧
        (p'.reads = p.reads ∨ k' = k ∧ p = p₀ ∧ p'.reads = p.reads ++ [⟨res, none, binding, access⟩]) := by
    intro k' p' hp'
    rcases SlotStore.get?_modify_eq_some hp' with ⟨rfl, p, hp, rfl⟩ | ⟨-, hp⟩
    · rw [hp₀] at hp
      obtain rfl := Option.some.inj hp
      exact ⟨p₀, hp₀, rfl, .inr ⟨rfl, rfl, rfl⟩⟩
    · exact ⟨p', hp, rfl, .inl rfl⟩
  exact
    { h with
      passes := LawfulSlotStore.wf_modify k _ h.passes
      mem_passOrder := fun k' => by
        rw [h.mem_passOrder]
        exact iff_of_eq (congrArg (· = true) (SlotStore.contains_modify k _ k').symm)
      reads := fun k' p' hp' x hx => by
        obtain ⟨p, hp, -, hr | ⟨-, -, hr⟩⟩ := hview k' p' hp'
        · rw [hr] at hx
          exact h.reads k' p hp x hx
        · rw [hr] at hx
          rcases List.mem_append.mp hx with hx | hx
          · exact h.reads k' p hp x hx
          · rw [List.mem_singleton.mp hx]
      writes := fun k' p' hp' => by
        obtain ⟨p, hp, hw, -⟩ := hview k' p' hp'
        rw [hw]
        exact h.writes k' p hp
      bindings := fun k' p' hp' => by
        obtain ⟨p, hp, hw, hr | ⟨-, rfl, hr⟩⟩ := hview k' p' hp'
        · rw [hr, hw]
          exact h.bindings k' p hp
        · -- the new slot is free in the pass
          rw [hr, hw, List.append_assoc, List.map_append, List.map_append, List.map_singleton,
            List.singleton_append, List.nodup_middle, List.nodup_cons, ← List.map_append]
          exact ⟨not_mem_bindings hfree, h.bindings k' p hp⟩
      issued := fun x hx => by
        rcases hx with hx | ⟨k', p', hp', i, hi, hx⟩
        · exact h.issued x (.inl hx)
        · obtain ⟨p, hp, hw, hr | ⟨-, -, hr⟩⟩ := hview k' p' hp'
          · rw [hr, hw] at hi
            exact h.issued x (.inr ⟨k', p, hp, i, hi, hx⟩)
          · rw [hr, hw, List.append_assoc, List.mem_append, List.mem_append, List.mem_singleton] at hi
            rcases hi with hi | rfl | hi
            · exact h.issued x (.inr ⟨k', p, hp, i, List.mem_append_left _ hi, hx⟩)
            · rcases hx with rfl | hx
              · exact issued_of_hasRes hres
              · cases hx
            · exact h.issued x (.inr ⟨k', p, hp, i, List.mem_append_right _ hi, hx⟩)
      outputs := fun k₁ k₂ p₁ p₂ i₁ i₂ w₁ w₂ hp₁ hp₂ hw₁ hw₂ ho => by
        obtain ⟨q₁, hq₁, e₁, -⟩ := hview k₁ p₁ hp₁
        obtain ⟨q₂, hq₂, e₂, -⟩ := hview k₂ p₂ hp₂
        rw [e₁] at hw₁
        rw [e₂] at hw₂
        exact h.outputs k₁ k₂ q₁ q₂ i₁ i₂ w₁ w₂ hq₁ hq₂ hw₁ hw₂ ho }

end Passes

/-! ### Recording an alias -/

section Pairs

variable {base a : ResKey}

/-- A pair whose alias is named nowhere keeps the pairs minted for themselves. -/
theorem pairs_fresh_append (h : d.Wf) (hfresh : ¬d.Mentions a) :
    (d.aliases ++ [(base, a)]).Pairwise fun q q' => q'.2 ≠ q.1 ∧ q'.2 ≠ q.2 := by
  refine List.pairwise_append.mpr ⟨h.pairs_fresh, List.pairwise_singleton _ _, fun q hq q' hq' => ?_⟩
  rw [List.mem_singleton.mp hq']
  exact ⟨fun he => hfresh (.inl ⟨q, hq, .inl he⟩), fun he => hfresh (.inl ⟨q, hq, .inr he⟩)⟩

/-- Recording a new alias of a resource keeps the invariant. -/
theorem Wf.addAlias (h : d.Wf) (hs : d.SharesMemory base a) (hfresh : ¬d.Mentions a)
    (dirty : Bool) : ({ d with aliases := d.aliases ++ [(base, a)], dirty } : Declaration M).Wf :=
  { h with
    pairs := fun q hq => by
      rcases List.mem_append.mp hq with hq | hq
      · exact h.pairs q hq
      · rw [List.mem_singleton.mp hq]
        exact hs
    pairs_fresh := pairs_fresh_append h hfresh
    writes := fun k p hp x hx => by
      obtain ⟨o, ho, hpair⟩ := h.writes k p hp x hx
      exact ⟨o, ho, fun h1 h2 => List.mem_append_left _ (hpair h1 h2)⟩
    issued := fun x hx => by
      rcases hx with ⟨q, hq, hx⟩ | hx
      · rcases List.mem_append.mp hq with hq | hq
        · exact h.issued x (.inl ⟨q, hq, hx⟩)
        · rw [List.mem_singleton.mp hq] at hx
          rcases hx with rfl | rfl
          · exact issued_of_hasRes hs.hasRes.1
          · exact issued_of_hasRes hs.hasRes.2
      · exact h.issued x (.inr hx) }

/-- A write of a declared resource through a free binding slot of a declared pass, minting an
output named nowhere, keeps the invariant. -/
theorem Wf.addWrite (h : d.Wf) {k : Key} {binding : UInt32} {access : Access}
    (hs : d.SharesMemory base a) (hfresh : ¬d.Mentions a) {p₀ : PassDecl}
    (hp₀ : SlotStore.get? d.passes k = some p₀) (hfree : p₀.usesBinding binding = false) (dirty : Bool) :
    ({ d with
        aliases := d.aliases ++ [(base, a)],
        passes := SlotStore.modify d.passes k fun p =>
          { p with writes := p.writes ++ [⟨base, some a, binding, access⟩] },
        dirty } : Declaration M).Wf := by
  -- each pass of the changed map is an old pass, the changed one with the write added
  have hview : ∀ k' p', SlotStore.get? (SlotStore.modify d.passes k fun p =>
      { p with writes := p.writes ++ [⟨base, some a, binding, access⟩] }) k' = some p' →
      ∃ p, SlotStore.get? d.passes k' = some p ∧ p'.reads = p.reads ∧
        (p'.writes = p.writes ∨ k' = k ∧ p = p₀ ∧ p'.writes = p.writes ++ [⟨base, some a, binding, access⟩]) := by
    intro k' p' hp'
    rcases SlotStore.get?_modify_eq_some hp' with ⟨rfl, p, hp, rfl⟩ | ⟨-, hp⟩
    · rw [hp₀] at hp
      obtain rfl := Option.some.inj hp
      exact ⟨p₀, hp₀, rfl, .inr ⟨rfl, rfl, rfl⟩⟩
    · exact ⟨p', hp, rfl, .inl rfl⟩
  -- a write of an old pass has another output than the new one
  have hold : ∀ k' p, SlotStore.get? d.passes k' = some p → ∀ x ∈ p.writes, x.output ≠ some a :=
    fun k' p hp x hx ho => hfresh (.inr ⟨k', p, hp, x, List.mem_append_right _ hx, .inr ho⟩)
  exact
    { h with
      passes := LawfulSlotStore.wf_modify k _ h.passes
      mem_passOrder := fun k' => by
        rw [h.mem_passOrder]
        exact iff_of_eq (congrArg (· = true) (SlotStore.contains_modify k _ k').symm)
      pairs := fun q hq => by
        rcases List.mem_append.mp hq with hq | hq
        · exact h.pairs q hq
        · rw [List.mem_singleton.mp hq]
          exact hs
      pairs_fresh := pairs_fresh_append h hfresh
      reads := fun k' p' hp' => by
        obtain ⟨p, hp, hr, -⟩ := hview k' p' hp'
        rw [hr]
        exact h.reads k' p hp
      writes := fun k' p' hp' x hx => by
        obtain ⟨p, hp, -, hw | ⟨-, -, hw⟩⟩ := hview k' p' hp'
        · rw [hw] at hx
          obtain ⟨o, ho, hpair⟩ := h.writes k' p hp x hx
          exact ⟨o, ho, fun h1 h2 => List.mem_append_left _ (hpair h1 h2)⟩
        · rw [hw] at hx
          rcases List.mem_append.mp hx with hx | hx
          · obtain ⟨o, ho, hpair⟩ := h.writes k' p hp x hx
            exact ⟨o, ho, fun h1 h2 => List.mem_append_left _ (hpair h1 h2)⟩
          · rw [List.mem_singleton.mp hx]
            exact ⟨a, rfl, fun _ _ => List.mem_append_right _ (List.mem_singleton_self _)⟩
      bindings := fun k' p' hp' => by
        obtain ⟨p, hp, hr, hw | ⟨-, rfl, hw⟩⟩ := hview k' p' hp'
        · rw [hr, hw]
          exact h.bindings k' p hp
        · -- the new slot is free in the pass
          rw [hr, hw, ← List.append_assoc, List.map_append, List.map_singleton, List.nodup_append]
          refine ⟨h.bindings k' p hp, List.nodup_singleton _, fun b hb b' hb' => ?_⟩
          rw [List.mem_singleton.mp hb']
          rintro rfl
          exact not_mem_bindings hfree hb
      issued := fun x hx => by
        rcases hx with ⟨q, hq, hx⟩ | ⟨k', p', hp', i, hi, hx⟩
        · rcases List.mem_append.mp hq with hq | hq
          · exact h.issued x (.inl ⟨q, hq, hx⟩)
          · rw [List.mem_singleton.mp hq] at hx
            rcases hx with rfl | rfl
            · exact issued_of_hasRes hs.hasRes.1
            · exact issued_of_hasRes hs.hasRes.2
        · obtain ⟨p, hp, hr, hw | ⟨-, -, hw⟩⟩ := hview k' p' hp'
          · rw [hr, hw] at hi
            exact h.issued x (.inr ⟨k', p, hp, i, hi, hx⟩)
          · rw [hr, hw, ← List.append_assoc, List.mem_append, List.mem_singleton] at hi
            rcases hi with hi | rfl
            · exact h.issued x (.inr ⟨k', p, hp, i, hi, hx⟩)
            · rcases hx with rfl | hx
              · exact issued_of_hasRes hs.hasRes.1
              · obtain rfl := Option.some.inj hx
                exact issued_of_hasRes hs.hasRes.2
      outputs := fun k₁ k₂ p₁ p₂ i₁ i₂ w₁ w₂ hp₁ hp₂ hw₁ hw₂ ho => by
        -- an old write against the new one would name the new output twice
        obtain ⟨q₁, hq₁, -, e₁ | ⟨rfl, rfl, e₁⟩⟩ := hview k₁ p₁ hp₁ <;>
          obtain ⟨q₂, hq₂, -, e₂ | ⟨rfl, rfl, e₂⟩⟩ := hview k₂ p₂ hp₂ <;>
          rw [e₁] at hw₁ <;> rw [e₂] at hw₂
        · exact h.outputs k₁ k₂ q₁ q₂ i₁ i₂ w₁ w₂ hq₁ hq₂ hw₁ hw₂ ho
        · rcases getElem?_concat_eq_some.mp hw₂ with hw₂ | ⟨-, rfl⟩
          · exact h.outputs k₁ _ q₁ _ i₁ i₂ w₁ w₂ hq₁ hp₀ hw₁ hw₂ ho
          · exact absurd ho (hold k₁ q₁ hq₁ w₁ (List.mem_of_getElem? hw₁))
        · rcases getElem?_concat_eq_some.mp hw₁ with hw₁ | ⟨-, rfl⟩
          · exact h.outputs _ k₂ _ q₂ i₁ i₂ w₁ w₂ hp₀ hq₂ hw₁ hw₂ ho
          · exact absurd ho.symm (hold k₂ q₂ hq₂ w₂ (List.mem_of_getElem? hw₂))
        · rcases getElem?_concat_eq_some.mp hw₁ with hw₁ | ⟨hi₁, rfl⟩ <;>
            rcases getElem?_concat_eq_some.mp hw₂ with hw₂ | ⟨hi₂, rfl⟩
          · exact h.outputs _ _ _ _ i₁ i₂ w₁ w₂ hp₀ hp₀ hw₁ hw₂ ho
          · exact absurd ho (hold _ _ hp₀ w₁ (List.mem_of_getElem? hw₁))
          · exact absurd ho.symm (hold _ _ hp₀ w₂ (List.mem_of_getElem? hw₂))
          · exact ⟨rfl, hi₁.trans hi₂.symm⟩ }

end Pairs

/-! ### Declaring and removing passes -/

section PassTable

variable {P : PassDecl} {k : Key} {mp : M PassDecl}

/-- Declaring a pass with no reads and writes at the end of the pass order keeps the invariant. -/
theorem Wf.insertPass (h : d.Wf) (hins : SlotStore.insert d.passes P = (k, mp)) (hr : P.reads = [])
    (hw : P.writes = []) (dirty : Bool) :
    ({ d with passes := mp, passOrder := d.passOrder ++ [k], dirty } : Declaration M).Wf := by
  have hget : ∀ k', SlotStore.get? mp k' = if k' = k then some P else SlotStore.get? d.passes k' := by
    intro k'
    have := LawfulSlotStore.get?_insert P k' h.passes
    rwa [hins] at this
  have hnew : SlotStore.get? d.passes k = none := by
    have := SlotStore.get?_insert_key h.passes P
    rwa [hins] at this
  -- each pass of the new map is an old pass or the new one, which reads and writes nothing
  have hview : ∀ k' p, SlotStore.get? mp k' = some p → SlotStore.get? d.passes k' = some p ∨ (p.reads = [] ∧ p.writes = []) := by
    intro k' p hp
    rw [hget] at hp
    split at hp
    · obtain rfl := Option.some.inj hp
      exact .inr ⟨hr, hw⟩
    · exact .inl hp
  exact
    { h with
      passes := by
        have := LawfulSlotStore.wf_insert P h.passes
        rwa [hins] at this
      passOrder_nodup := by
        refine List.nodup_append.mpr ⟨h.passOrder_nodup, List.nodup_singleton _, fun a ha b hb => ?_⟩
        rw [List.mem_singleton.mp hb]
        rintro rfl
        have := (h.mem_passOrder a).mp ha
        simp [SlotStore.contains, hnew] at this
      mem_passOrder := fun k' => by
        rw [List.mem_append, h.mem_passOrder, List.mem_singleton]
        simp only [SlotStore.contains, hget]
        by_cases hk : k' = k <;> simp [hk, hnew]
      reads := fun k' p hp x hx => by
        rcases hview k' p hp with hp | ⟨hr, -⟩
        · exact h.reads k' p hp x hx
        · rw [hr] at hx
          cases hx
      writes := fun k' p hp x hx => by
        rcases hview k' p hp with hp | ⟨-, hw⟩
        · exact h.writes k' p hp x hx
        · rw [hw] at hx
          cases hx
      bindings := fun k' p hp => by
        rcases hview k' p hp with hp | ⟨hr, hw⟩
        · exact h.bindings k' p hp
        · rw [hr, hw]
          exact List.nodup_nil
      issued := fun x hx => by
        rcases hx with hx | ⟨k', p, hp, i, hi, hx⟩
        · exact h.issued x (.inl hx)
        · rcases hview k' p hp with hp | ⟨hr, hw⟩
          · exact h.issued x (.inr ⟨k', p, hp, i, hi, hx⟩)
          · rw [hr, hw] at hi
            cases hi
      outputs := fun k₁ k₂ p₁ p₂ i₁ i₂ w₁ w₂ hp₁ hp₂ hw₁ hw₂ ho => by
        rcases hview k₁ p₁ hp₁ with hp₁ | ⟨-, e₁⟩
        · rcases hview k₂ p₂ hp₂ with hp₂ | ⟨-, e₂⟩
          · exact h.outputs k₁ k₂ p₁ p₂ i₁ i₂ w₁ w₂ hp₁ hp₂ hw₁ hw₂ ho
          · rw [e₂] at hw₂
            cases hw₂
        · rw [e₁] at hw₁
          cases hw₁ }

/-- Removing a pass, from its table and from the pass order, keeps the invariant. -/
theorem Wf.removePass (h : d.Wf) {P : PassDecl} (hrm : SlotStore.remove d.passes k = some (P, mp))
    (dirty : Bool) :
    ({ d with passes := mp, passOrder := d.passOrder.filter (· != k), dirty } : Declaration M).Wf := by
  have hview : ∀ k' p, SlotStore.get? mp k' = some p → SlotStore.get? d.passes k' = some p := by
    intro k' p hp
    rw [LawfulSlotStore.get?_remove hrm] at hp
    split at hp
    · cases hp
    · exact hp
  exact
    { h with
      passes := LawfulSlotStore.wf_remove h.passes hrm
      passOrder_nodup := h.passOrder_nodup.filter _
      mem_passOrder := fun k' => by
        rw [List.mem_filter, h.mem_passOrder, SlotStore.contains_remove hrm]
        simp [and_comm]
      reads := fun k' p hp => h.reads k' p (hview k' p hp)
      writes := fun k' p hp => h.writes k' p (hview k' p hp)
      bindings := fun k' p hp => h.bindings k' p (hview k' p hp)
      issued := fun x hx => by
        rcases hx with hx | ⟨k', p, hp, hx⟩
        · exact h.issued x (.inl hx)
        · exact h.issued x (.inr ⟨k', p, hview k' p hp, hx⟩)
      outputs := fun k₁ k₂ p₁ p₂ i₁ i₂ w₁ w₂ hp₁ hp₂ =>
        h.outputs k₁ k₂ p₁ p₂ i₁ i₂ w₁ w₂ (hview k₁ p₁ hp₁) (hview k₂ p₂ hp₂) }

end PassTable

/-! ### Removing a resource -/

section RemoveResource

variable {k : Key} {B : BufferDecl} {I : ImageDecl} {mb : M BufferDecl}
  {mi : M ImageDecl}

omit [LawfulSlotStore M] in
theorem mem_dropAliasesOf {res : ResKey} {q : ResKey × ResKey} :
    q ∈ (dropAliasesOf d res).aliases ↔ q ∈ d.aliases ∧ q.1 ≠ res ∧ q.2 ≠ res := by
  obtain ⟨b, a⟩ := q
  simp [dropAliasesOf]

theorem hasRes_removeBuffer (hrm : SlotStore.remove d.buffers k = some (B, mb)) (x : ResKey) :
    ({ d with buffers := mb } : Declaration M).hasRes x = true ↔ x ≠ .buffer k ∧ d.hasRes x = true := by
  cases x with
  | buffer k' =>
    show SlotStore.contains mb k' = true ↔ _ ∧ SlotStore.contains d.buffers k' = true
    rw [SlotStore.contains_remove hrm, Bool.and_eq_true, bne_iff_ne, ne_eq, ne_eq, ResKey.buffer.injEq]
  | image k' => exact ⟨fun hx => ⟨ResKey.noConfusion, hx⟩, And.right⟩

theorem hasRes_removeImage (hrm : SlotStore.remove d.images k = some (I, mi)) (x : ResKey) :
    ({ d with images := mi } : Declaration M).hasRes x = true ↔ x ≠ .image k ∧ d.hasRes x = true := by
  cases x with
  | buffer k' => exact ⟨fun hx => ⟨ResKey.noConfusion, hx⟩, And.right⟩
  | image k' =>
    show SlotStore.contains mi k' = true ↔ _ ∧ SlotStore.contains d.images k' = true
    rw [SlotStore.contains_remove hrm, Bool.and_eq_true, bne_iff_ne, ne_eq, ne_eq, ResKey.image.injEq]

/-- Removing a buffer keeps the invariant, once the pairs that name it are dropped. -/
theorem Wf.removeBuffer (h : d.Wf) (hrm : SlotStore.remove d.buffers k = some (B, mb)) :
    (dropAliasesOf { d with buffers := mb } (.buffer k)).Wf :=
  { h with
    buffers := LawfulSlotStore.wf_remove h.buffers hrm
    pairs := fun q hq => by
      obtain ⟨hq, h1, h2⟩ := mem_dropAliasesOf.mp hq
      have hs := h.pairs q hq
      obtain ⟨b, a⟩ := q
      dsimp only at h1 h2 hs ⊢
      cases b <;> cases a <;> simp only [SharesMemory, dropAliasesOf] at hs ⊢
      · obtain ⟨hne, A, A', hA, hA', hdesc⟩ := hs
        refine ⟨hne, A, A', ?_, ?_, hdesc⟩
        · rw [LawfulSlotStore.get?_remove hrm, if_neg (fun he => h1 (by rw [he])), hA]
        · rw [LawfulSlotStore.get?_remove hrm, if_neg (fun he => h2 (by rw [he])), hA']
      · exact hs
    pairs_fresh := h.pairs_fresh.filter _
    writes := fun k' p hp x hx => by
      obtain ⟨o, ho, hpair⟩ := h.writes k' p hp x hx
      refine ⟨o, ho, fun h1 h2 => ?_⟩
      -- both are still declared, so neither is the removed buffer
      have h1' : ({ d with buffers := mb } : Declaration M).hasRes x.resource = true := h1
      have h2' : ({ d with buffers := mb } : Declaration M).hasRes o = true := h2
      obtain ⟨hne1, h1⟩ := (hasRes_removeBuffer hrm _).mp h1'
      obtain ⟨hne2, h2⟩ := (hasRes_removeBuffer hrm _).mp h2'
      exact mem_dropAliasesOf.mpr ⟨hpair h1 h2, hne1, hne2⟩
    issued := fun x hx => by
      have hx' : d.Mentions x := by
        rcases hx with ⟨q, hq, hx⟩ | hx
        · exact .inl ⟨q, (mem_dropAliasesOf.mp hq).1, hx⟩
        · exact .inr hx
      cases x with
      | buffer k' => exact LawfulSlotStore.issued_remove hrm (h.issued _ hx')
      | image k' => exact h.issued _ hx' }

/-- Removing an image keeps the invariant, once the pairs that name it are dropped. -/
theorem Wf.removeImage (h : d.Wf) (hrm : SlotStore.remove d.images k = some (I, mi)) :
    (dropAliasesOf { d with images := mi } (.image k)).Wf :=
  { h with
    images := LawfulSlotStore.wf_remove h.images hrm
    renderSized := fun k' img himg => by
      dsimp only [dropAliasesOf] at himg
      rw [LawfulSlotStore.get?_remove hrm] at himg
      split at himg
      · cases himg
      · exact h.renderSized k' img himg
    pairs := fun q hq => by
      obtain ⟨hq, h1, h2⟩ := mem_dropAliasesOf.mp hq
      have hs := h.pairs q hq
      obtain ⟨b, a⟩ := q
      dsimp only at h1 h2 hs ⊢
      cases b <;> cases a <;> simp only [SharesMemory, dropAliasesOf] at hs ⊢
      · exact hs
      · obtain ⟨hne, A, A', hA, hA', hdesc⟩ := hs
        refine ⟨hne, A, A', ?_, ?_, hdesc⟩
        · rw [LawfulSlotStore.get?_remove hrm, if_neg (fun he => h1 (by rw [he])), hA]
        · rw [LawfulSlotStore.get?_remove hrm, if_neg (fun he => h2 (by rw [he])), hA']
    pairs_fresh := h.pairs_fresh.filter _
    writes := fun k' p hp x hx => by
      obtain ⟨o, ho, hpair⟩ := h.writes k' p hp x hx
      refine ⟨o, ho, fun h1 h2 => ?_⟩
      -- both are still declared, so neither is the removed image
      have h1' : ({ d with images := mi } : Declaration M).hasRes x.resource = true := h1
      have h2' : ({ d with images := mi } : Declaration M).hasRes o = true := h2
      obtain ⟨hne1, h1⟩ := (hasRes_removeImage hrm _).mp h1'
      obtain ⟨hne2, h2⟩ := (hasRes_removeImage hrm _).mp h2'
      exact mem_dropAliasesOf.mpr ⟨hpair h1 h2, hne1, hne2⟩
    issued := fun x hx => by
      have hx' : d.Mentions x := by
        rcases hx with ⟨q, hq, hx⟩ | hx
        · exact .inl ⟨q, (mem_dropAliasesOf.mp hq).1, hx⟩
        · exact .inr hx
      cases x with
      | buffer k' => exact h.issued _ hx'
      | image k' => exact LawfulSlotStore.issued_remove hrm (h.issued _ hx') }

end RemoveResource

/-! ### The calls of the front end -/

section Calls

variable {α β : Type} {d' : Declaration M}

omit [LawfulSlotStore M] in
theorem run_bind_eq_ok {m : Declare M α} {f : α → Declare M β} {b : β} {d'' : Declaration M}
    (h : (m >>= f).run d = .ok (b, d'')) : ∃ a d', m.run d = .ok (a, d') ∧ (f a).run d' = .ok (b, d'') := by
  rw [StateT.run_bind] at h
  obtain ⟨⟨a, d'⟩, h1, h2⟩ := Except.exists_of_bind_eq_ok h
  exact ⟨a, d', h1, h2⟩

omit [LawfulSlotStore M] in
/-- A call that throws first fails, whatever follows it. -/
theorem run_throw_bind_ne_ok {e : ConfigError} {f : α → Declare M β} {r : β × Declaration M} :
    (throw e >>= f : Declare M β).run d ≠ .ok r := by
  intro h
  obtain ⟨_, _, ht, -⟩ := run_bind_eq_ok h
  cases ht

omit [LawfulSlotStore M] in
/-- A removal that found its entry marks the declaration it computed as changed. -/
theorem run_pure_set_dirty {x : Declaration M} {u : PUnit}
    (h : ((pure x : Declare M (Declaration M)) >>= fun d => set { d with dirty := true }).run d =
      .ok (u, d')) : d' = { x with dirty := true } := by
  simp only [pure_bind, StateT.run_set] at h
  exact (Prod.mk.inj (Except.ok.inj h)).2.symm

omit [LawfulSlotStore M] in
theorem checkRes_eq_ok {key : ResKey} {u : Unit} (h : (checkRes key).run d = .ok (u, d')) :
    d' = d ∧ d.hasRes key = true := by
  rw [checkRes_run] at h
  split at h
  · exact ⟨(Prod.mk.inj (Except.ok.inj h)).2.symm, ‹_›⟩
  · cases h

omit [LawfulSlotStore M] in
theorem checkPass_eq_ok {k : Key} {u : Unit} (h : (checkPass k).run d = .ok (u, d')) :
    d' = d ∧ SlotStore.contains d.passes k = true := by
  cases hk : SlotStore.contains d.passes k
  · simp [checkPass, hk] at h
    cases h
  · simp [checkPass, hk] at h
    exact ⟨(Prod.mk.inj (Except.ok.inj h)).2.symm, rfl⟩

omit [LawfulSlotStore M] in
theorem checkBinding_eq_ok {k : Key} {binding : UInt32} {u : Unit}
    (h : (checkBinding k binding).run d = .ok (u, d')) :
    d' = d ∧ ∃ p, SlotStore.get? d.passes k = some p ∧ p.usesBinding binding = false := by
  obtain ⟨_, d₁, h1, h2⟩ := run_bind_eq_ok h
  obtain ⟨rfl, hk⟩ := checkPass_eq_ok h1
  obtain ⟨p, hp⟩ := Option.isSome_iff_exists.mp hk
  cases hb : p.usesBinding binding
  · simp [hp, hb] at h2
    exact ⟨(Prod.mk.inj (Except.ok.inj h2)).2.symm, p, hp, hb⟩
  · simp [hp, hb] at h2
    cases h2

/-- Minting keeps the invariant and gives a new resource, named nowhere yet, that shares the
memory of its source; the pairs and the passes stay as they were. -/
theorem mint_spec (h : d.Wf) {source o : ResKey} {rename : String → String}
    (hrun : (mint source rename).run d = .ok (o, d')) :
    d'.Wf ∧ d'.SharesMemory source o ∧ ¬d'.Mentions o ∧ d'.aliases = d.aliases ∧
      d'.passes = d.passes ∧ d'.passOrder = d.passOrder := by
  unfold mint at hrun
  obtain ⟨_, d₁, h1, h2⟩ := run_bind_eq_ok hrun
  obtain ⟨rfl, hres⟩ := checkRes_eq_ok h1
  cases source with
  | buffer k =>
    obtain ⟨B, hB⟩ := Option.isSome_iff_exists.mp hres
    generalize hins : SlotStore.insert d₁.buffers { B with name := rename B.name } = res at h2
    obtain ⟨k', mb⟩ := res
    simp only [StateT.run_bind, StateT.run_get, StateT.run_set, StateT.run_pure, pure_bind, hB,
      Option.getD_some, hins] at h2
    obtain ⟨rfl, rfl⟩ := Prod.mk.inj (Except.ok.inj h2)
    have hnew := fun k' => LawfulSlotStore.get?_insert { B with name := rename B.name } k' h.buffers
    have hfresh := SlotStore.get?_insert_key h.buffers { B with name := rename B.name }
    rw [hins] at hnew hfresh
    -- the source is declared, the new key was not
    have hne : k ≠ k' := fun e => by
      rw [← e, hB] at hfresh
      cases hfresh
    refine ⟨h.insertBuffer hins d₁.dirty, ⟨hne, B, { B with name := rename B.name }, ?_, ?_, rfl⟩,
      fun hm => not_mentions_insertBuffer h hins hm, rfl, rfl, rfl⟩
    · rw [hnew, if_neg hne, hB]
    · rw [hnew, if_pos rfl]
  | image k =>
    obtain ⟨I, hI⟩ := Option.isSome_iff_exists.mp hres
    generalize hins : SlotStore.insert d₁.images { I with name := rename I.name } = res at h2
    obtain ⟨k', mi⟩ := res
    simp only [StateT.run_bind, StateT.run_get, StateT.run_set, StateT.run_pure, pure_bind, hI,
      Option.getD_some, hins] at h2
    obtain ⟨rfl, rfl⟩ := Prod.mk.inj (Except.ok.inj h2)
    have hnew := fun k' => LawfulSlotStore.get?_insert { I with name := rename I.name } k' h.images
    have hfresh := SlotStore.get?_insert_key h.images { I with name := rename I.name }
    rw [hins] at hnew hfresh
    have hne : k ≠ k' := fun e => by
      rw [← e, hI] at hfresh
      cases hfresh
    refine ⟨h.insertImage hins (h.renderSized k I hI) d₁.dirty,
      ⟨hne, I, { I with name := rename I.name }, ?_, ?_, rfl⟩, fun hm => not_mentions_insertImage h hins hm, rfl,
      rfl, rfl⟩
    · rw [hnew, if_neg hne, hI]
    · rw [hnew, if_pos rfl]

omit [LawfulSlotStore M] in
/-- A loop whose body leaves the declaration as it found it leaves it so. -/
theorem forIn_keeps {γ : Type} {xs : List γ} {init b : β} {f : γ → β → Declare M (ForInStep β)}
    (hf : ∀ x c d₀ s d₁, (f x c).run d₀ = .ok (s, d₁) → d₁ = d₀)
    (h : (forIn xs init f).run d = .ok (b, d')) : d' = d := by
  induction xs generalizing init d with
  | nil =>
    simp only [List.forIn_nil, StateT.run_pure] at h
    exact (Prod.mk.inj (Except.ok.inj h)).2.symm
  | cons x rest ih =>
    rw [List.forIn_cons] at h
    obtain ⟨s, d₁, h1, h2⟩ := run_bind_eq_ok h
    obtain rfl := hf x init d s d₁ h1
    cases s with
    | done c =>
      simp only [StateT.run_pure] at h2
      exact (Prod.mk.inj (Except.ok.inj h2)).2.symm
    | yield c => exact ih h2

omit [LawfulSlotStore M] in
theorem modifyGet_eq_ok {g : Declaration M → α × Declaration M} {a : α}
    (h : (modifyGet g : Declare M α).run d = .ok (a, d')) : g d = (a, d') :=
  Except.ok.inj h

omit [LawfulSlotStore M] in
theorem modify_eq_ok {g : Declaration M → Declaration M} {u : PUnit}
    (h : (modify g : Declare M PUnit).run d = .ok (u, d')) : d' = g d :=
  (Prod.mk.inj (Except.ok.inj h)).2.symm

end Calls

/-- **Every call of the front end keeps the invariant.** A successful call changes the
declaration by one of the steps above, after checks that give that step its conditions. -/
theorem FrontEnd.wf {α : Type} {m : Declare M α} (hm : FrontEnd m) (h : d.Wf) {a : α} {d' : Declaration M}
    (hrun : m.run d = .ok (a, d')) : d'.Wf := by
  cases hm with
  | setRenderExtent =>
    rw [modify_eq_ok hrun]
    exact h.setTables h.shaders h.programs h.samplers h.bindless _ _ _ _
  | buffer name desc lifetime =>
    obtain ⟨-, rfl⟩ := Prod.mk.inj (modifyGet_eq_ok hrun)
    exact h.insertBuffer rfl true
  | image name desc lifetime =>
    unfold Declaration.image at hrun
    dsimp only at hrun
    split at hrun
    · obtain ⟨_, _, h1, -⟩ := run_bind_eq_ok hrun
      cases h1
    · -- a render-sized image that passed the check has no format of its own
      rename_i hguard
      have hI : desc.isRenderSized = true → desc.format = .undefined := fun hr => by
        simpa [hr] using hguard
      obtain ⟨-, rfl⟩ := Prod.mk.inj (modifyGet_eq_ok hrun)
      exact h.insertImage rfl hI true
  | shader path stage =>
    obtain ⟨-, rfl⟩ := Prod.mk.inj (modifyGet_eq_ok hrun)
    exact h.setTables (LawfulSlotStore.wf_insert _ h.shaders) h.programs h.samplers h.bindless _ _ _ _
  | program name shaders =>
    unfold Declaration.program at hrun
    obtain ⟨_, d₁, h1, h2⟩ := run_bind_eq_ok hrun
    -- the check of the shaders only reads the declaration
    have e := forIn_keeps (fun x c d₀ s d₂ hb => by
      obtain ⟨_, d₃, hg, hif⟩ := run_bind_eq_ok hb
      obtain rfl := (Prod.mk.inj (Except.ok.inj hg)).2.symm
      split at hif
      · exact absurd hif run_throw_bind_ne_ok
      · exact (Prod.mk.inj (Except.ok.inj hif)).2.symm) h1
    rw [e] at h2
    obtain ⟨-, rfl⟩ := Prod.mk.inj (modifyGet_eq_ok h2)
    exact h.setTables h.shaders (LawfulSlotStore.wf_insert _ h.programs) h.samplers h.bindless _ _ _ _
  | sampler name mag min address =>
    obtain ⟨-, rfl⟩ := Prod.mk.inj (modifyGet_eq_ok hrun)
    exact h.setTables h.shaders h.programs (LawfulSlotStore.wf_insert _ h.samplers) h.bindless _ _ _ _
  | bindlessTable name resources =>
    obtain ⟨_, d₁, h1, h2⟩ := run_bind_eq_ok hrun
    -- the check of the resources only reads the declaration
    have e := forIn_keeps (fun x c d₀ s d₂ hb => by
      obtain ⟨_, d₃, hc, hrest⟩ := run_bind_eq_ok hb
      obtain ⟨rfl, -⟩ := checkRes_eq_ok hc
      exact (Prod.mk.inj (Except.ok.inj hrest)).2.symm) h1
    rw [e] at h2
    obtain ⟨-, rfl⟩ := Prod.mk.inj (modifyGet_eq_ok h2)
    exact h.setTables h.shaders h.programs h.samplers (LawfulSlotStore.wf_insert _ h.bindless) _ _ _ _
  | pass name queue =>
    obtain ⟨-, rfl⟩ := Prod.mk.inj (modifyGet_eq_ok hrun)
    exact h.insertPass rfl rfl rfl true
  | setProgram pk prog =>
    obtain ⟨_, d₁, h1, h2⟩ := run_bind_eq_ok hrun
    rw [show d₁ = d from (Prod.mk.inj (Except.ok.inj h1)).2.symm] at h2
    dsimp only at h2
    split at h2
    · exact absurd h2 run_throw_bind_ne_ok
    · obtain ⟨_, d₂, hc, hm⟩ := run_bind_eq_ok h2
      rw [(checkPass_eq_ok hc).1] at hm
      rw [modify_eq_ok hm]
      refine h.modifyPass (fun _ => ?_) true
      exact ⟨rfl, rfl⟩
  | useBindless pk table =>
    obtain ⟨_, d₁, h1, h2⟩ := run_bind_eq_ok hrun
    rw [show d₁ = d from (Prod.mk.inj (Except.ok.inj h1)).2.symm] at h2
    dsimp only at h2
    split at h2
    · exact absurd h2 run_throw_bind_ne_ok
    · obtain ⟨_, d₂, hc, hm⟩ := run_bind_eq_ok h2
      rw [(checkPass_eq_ok hc).1] at hm
      rw [modify_eq_ok hm]
      refine h.modifyPass (fun _ => ?_) true
      exact ⟨rfl, rfl⟩
  | read pk res binding access =>
    obtain ⟨_, d₁, h1, h2⟩ := run_bind_eq_ok hrun
    obtain ⟨e₁, hres⟩ := checkRes_eq_ok h1
    rw [e₁] at h2
    obtain ⟨_, d₂, h3, h4⟩ := run_bind_eq_ok h2
    obtain ⟨e₂, p₀, hp₀, hfree⟩ := checkBinding_eq_ok h3
    rw [e₂] at h4
    rw [modify_eq_ok h4]
    exact h.addRead hres hp₀ hfree true
  | write pk res binding access =>
    obtain ⟨_, d₁, h1, h2⟩ := run_bind_eq_ok hrun
    obtain ⟨e₁, -⟩ := checkRes_eq_ok h1
    rw [e₁] at h2
    obtain ⟨_, d₂, h3, h4⟩ := run_bind_eq_ok h2
    obtain ⟨e₂, p₀, hp₀, hfree⟩ := checkBinding_eq_ok h3
    rw [e₂] at h4
    obtain ⟨o, d₃, h5, h6⟩ := run_bind_eq_ok h4
    obtain ⟨hw, hs, hfresh, -, hpasses, -⟩ := mint_spec h h5
    obtain ⟨_, d₄, h7, h8⟩ := run_bind_eq_ok h6
    obtain rfl := (Prod.mk.inj (Except.ok.inj h8)).2.symm
    rw [modify_eq_ok h7]
    exact hw.addWrite hs hfresh (hpasses ▸ hp₀) hfree true
  | aliasOf base =>
    obtain ⟨_, d₁, h1, h2⟩ := run_bind_eq_ok hrun
    obtain ⟨e₁, -⟩ := checkRes_eq_ok h1
    rw [e₁] at h2
    obtain ⟨o, d₂, h3, h4⟩ := run_bind_eq_ok h2
    obtain ⟨hw, hs, hfresh, -⟩ := mint_spec h h3
    obtain ⟨_, d₃, h5, h6⟩ := run_bind_eq_ok h4
    obtain rfl := (Prod.mk.inj (Except.ok.inj h6)).2.symm
    rw [modify_eq_ok h5]
    exact hw.addAlias hs hfresh true
  | setPresentImage res =>
    obtain ⟨_, d₁, h1, h2⟩ := run_bind_eq_ok hrun
    obtain ⟨e₁, -⟩ := checkRes_eq_ok h1
    rw [e₁] at h2
    cases res with
    | image k =>
      rw [modify_eq_ok h2]
      exact h.setTables h.shaders h.programs h.samplers h.bindless _ _ _ _
    | buffer k => cases h2
  | remove entry =>
    obtain ⟨_, d₁, h1, h2⟩ := run_bind_eq_ok hrun
    obtain ⟨rfl, rfl⟩ := Prod.mk.inj (Except.ok.inj h1)
    dsimp only at h2
    -- each kind of entry: the removal succeeds and is one of the steps above, or fails
    cases entry with
    | buffer k =>
      dsimp only at h2
      split at h2
      · rename_i B mb hrm
        obtain rfl := run_pure_set_dirty h2
        exact (h.removeBuffer hrm).setDirty true
      · exact absurd h2 run_throw_bind_ne_ok
    | image k =>
      dsimp only at h2
      split at h2
      · rename_i I mi hrm
        obtain rfl := run_pure_set_dirty h2
        have hX := h.removeImage hrm
        exact hX.setTables hX.shaders hX.programs hX.samplers hX.bindless _ _ _ _
      · exact absurd h2 run_throw_bind_ne_ok
    | pass k =>
      dsimp only at h2
      split at h2
      · rename_i P mp hrm
        obtain rfl := run_pure_set_dirty h2
        exact h.removePass hrm true
      · exact absurd h2 run_throw_bind_ne_ok
    | shader k =>
      dsimp only at h2
      split at h2
      · rename_i S ms hrm
        obtain rfl := run_pure_set_dirty h2
        exact h.setTables (LawfulSlotStore.wf_remove h.shaders hrm) h.programs h.samplers h.bindless _ _ _ _
      · exact absurd h2 run_throw_bind_ne_ok
    | program k =>
      dsimp only at h2
      split at h2
      · rename_i P mp hrm
        obtain rfl := run_pure_set_dirty h2
        exact h.setTables h.shaders (LawfulSlotStore.wf_remove h.programs hrm) h.samplers h.bindless _ _ _ _
      · exact absurd h2 run_throw_bind_ne_ok
    | sampler k =>
      dsimp only at h2
      split at h2
      · rename_i S ms hrm
        obtain rfl := run_pure_set_dirty h2
        exact h.setTables h.shaders h.programs (LawfulSlotStore.wf_remove h.samplers hrm) h.bindless _ _ _ _
      · exact absurd h2 run_throw_bind_ne_ok
    | bindless k =>
      dsimp only at h2
      split at h2
      · rename_i T mt hrm
        obtain rfl := run_pure_set_dirty h2
        exact h.setTables h.shaders h.programs h.samplers (LawfulSlotStore.wf_remove h.bindless hrm) _ _ _ _
      · exact absurd h2 run_throw_bind_ne_ok

theorem wf_empty : ({} : Declaration M).Wf where
  buffers := LawfulSlotStore.wf_empty
  images := LawfulSlotStore.wf_empty
  shaders := LawfulSlotStore.wf_empty
  programs := LawfulSlotStore.wf_empty
  samplers := LawfulSlotStore.wf_empty
  bindless := LawfulSlotStore.wf_empty
  passes := LawfulSlotStore.wf_empty
  passOrder_nodup := List.nodup_nil
  mem_passOrder k := by simp [SlotStore.contains, LawfulSlotStore.get?_empty]
  renderSized k img h := by simp [LawfulSlotStore.get?_empty] at h
  pairs q h := by simp at h
  pairs_fresh := List.Pairwise.nil
  reads k p h := by simp [LawfulSlotStore.get?_empty] at h
  writes k p h := by simp [LawfulSlotStore.get?_empty] at h
  bindings k p h := by simp [LawfulSlotStore.get?_empty] at h
  issued x h := by simp [Mentions, LawfulSlotStore.get?_empty] at h
  outputs k₁ k₂ p₁ p₂ i₁ i₂ w₁ w₂ h := by simp [LawfulSlotStore.get?_empty] at h

end Declaration

/-! ### Sessions keep their declaration well formed -/

namespace Session

/-- A front-end change keeps the declaration well formed, and a failed one keeps it as it was. -/
theorem declare_wf {α : Type} {m : Declare SlotMap α} (hm : Declaration.FrontEnd m) :
    Triple (·.declaration.Wf) (declare m) fun _ s => s.declaration.Wf := by
  unfold Session.declare
  refine Triple.get_bind fun s₀ => ?_
  split
  · rename_i a d hrun
    refine Triple.modify_bind (Triple.pure fun s hs => ?_)
    obtain ⟨s', ⟨h, rfl⟩, rfl⟩ := hs
    exact hm.wf h hrun
  · exact Triple.throw fun s hs => hs.1

/-- A bake only marks the declaration clean. -/
theorem bake_wf : Triple (·.declaration.Wf) bake fun _ s => s.declaration.Wf :=
  Triple.of_eq fun s₀ h₀ => (bake_step s₀).imp fun r s hstep => by
    cases hstep with
    | rebaked => exact h₀.setDirty false
    | reuse | encodeFails | bakeFails | createFails | mismatch => exact h₀

theorem run_wf : Triple (·.declaration.Wf) run fun _ s => s.declaration.Wf := by
  unfold Session.run
  refine Triple.bind bake_wf (fun _ => ?_) fun _ _ hs => hs
  refine Triple.get_bind fun s₀ => ?_
  refine Triple.step_bind (fun _ _ => ?_) fun _ _ s hs => hs.1
  exact Triple.modify fun s hs => hs.1

theorem Op.call_wf {op : Op} (hop : op.FrontEnd) :
    Triple (·.declaration.Wf) op.call fun _ s => s.declaration.Wf := by
  cases op with
  | declare m =>
    exact Triple.bind (declare_wf hop) (fun _ => Triple.pure fun _ hs => hs) fun _ _ hs => hs
  | setOptions options =>
    refine Triple.modify fun s hs => ?_
    split
    · exact hs
    · exact hs
  | bake => exact Triple.bind bake_wf (fun _ => Triple.pure fun _ hs => hs) fun _ _ hs => hs
  | run => exact run_wf

/-- **Every sequence of front-end calls on a new session leaves its declaration well formed.** -/
theorem performs_wf (ops : List Op) (hops : ∀ op ∈ ops, op.FrontEnd) (j : Journal) :
    ((performs {} ops).run j).1.declaration.Wf := by
  suffices Performs (·.declaration.Wf) ops (·.declaration.Wf) from this {} j Declaration.wf_empty
  induction ops with
  | nil => exact Performs.nil
  | cons op ops ih =>
    exact Performs.cons (Op.call_wf (hops op (List.mem_cons_self ..)))
      (ih fun o ho => hops o (List.mem_cons_of_mem _ ho))

end Session
end RenderGraph
