import RenderGraph.Proofs.Placement
import RenderGraph.Proofs.Dependencies
import RenderGraph.Memory
/-!
# Sharing memory between chains

`MemoryPlan.build` records what the live passes touch, gathers the alias chains of the registry
and places the chains in use one by one: a chain joins the first bucket that is not persistent,
has compatible memory and whose every occupant is `ordered` with every newcomer, or opens a
bucket of its own. This module proves what that promises, for every registry, schedule and
synchronization plan (`build_shares_safely`):

* two members of different chains in one bucket have disjoint liveness;
* every live pass using the earlier of them happens before every live pass using the later;
* a bucket is persistent exactly when its chain is persistent or the present image's, and a
  persistent bucket (with sharing off, every bucket) holds its own chain only.

The proof carries one invariant, `BucketOk`, through the placement fold (`placeGroup_ensures`).
It rests on three facts about the inputs of the placement: every live use of a resource is
among its recorded users (`hasUser_collect`), every recorded range starts no later than it ends
(`bounded_collect`), and every chain's members share its base (`collectGroups_ok`).
-/

namespace RenderGraph

namespace MemoryPlan

open Logged

/-! ### Association lists -/

section Lists

variable {α : Type}

theorem find?_upsert (t : List (Res × α)) (k : Res) (f : Option α → α) (k' : Res) :
    find? (upsert t k f) k' = if k' = k then some (f (find? t k)) else find? t k' := by
  unfold upsert find?
  split
  · -- the key is present: its entries are rewritten in place, every key stays
    rename_i hany
    have hkey : ∀ x : Res × α, ((if x.1 = k then (x.1, f (some x.2)) else x).1 == k') = (x.1 == k') := by
      intro x
      split <;> rfl
    simp only [List.find?_map, beq_iff_eq, Function.comp_def, hkey]
    rcases hfind : t.find? (·.1 == k') with _ | x
    · have hne : k' ≠ k := by
        rintro rfl
        obtain ⟨e, he, hek⟩ := List.any_eq_true.mp hany
        exact List.find?_eq_none.mp hfind e he hek
      simp [hfind, hne]
    · have hx : x.1 = k' := by simpa using List.find?_some hfind
      by_cases hk : k' = k
      · subst hk
        simp [hfind, hx]
      · simp [hk, hx, hfind]
  · -- the key is absent: it is appended last
    rename_i hany
    by_cases hk : k' = k
    · subst hk
      have hnone : t.find? (·.1 == k') = none := List.find?_eq_none.mpr fun e he hek =>
        hany (List.any_eq_true.mpr ⟨e, he, hek⟩)
      simp [List.find?_append, hnone]
    · simp [List.find?_append, hk, Ne.symm hk]

end Lists

/-! ### What the live passes touch -/

/-- The users recorded for `res` include the pass `p`. -/
def HasUser (users : List (Res × List Nat)) (res : Res) (p : Nat) : Prop :=
  ∃ list, find? users res = some list ∧ p ∈ list

theorem HasUser.upsert {users : List (Res × List Nat)} {res : Res} {p : Nat} (k : Res)
    {f : Option (List Nat) → List Nat} (hf : ∀ list, p ∈ list → p ∈ f (some list))
    (h : HasUser users res p) : HasUser (upsert users k f) res p := by
  obtain ⟨list, hl, hp⟩ := h
  rw [HasUser, find?_upsert]
  split
  · subst k
    exact ⟨_, by rw [hl], hf list hp⟩
  · exact ⟨list, hl, hp⟩

theorem hasUser_upsert_self (users : List (Res × List Nat)) (res : Res) {p : Nat}
    {f : Option (List Nat) → List Nat} (hf : ∀ l, p ∈ f l) : HasUser (upsert users res f) res p :=
  ⟨_, by rw [find?_upsert, if_pos rfl], hf _⟩

/-- Recording a pass keeps every user of a resource, and makes the pass a user of every
resource it touches. -/
theorem hasUser_record {r : Registry} {u : Usage} {res : Res} {p : Nat} (pos pass : Nat)
    (h : HasUser u.users res p ∨ (p = pass ∧ ∃ info, r.passes[pass]? = some info ∧ res ∈ touched info)) :
    HasUser (u.record r pos pass).users res p := by
  unfold Usage.record
  cases hinfo : r.passes[pass]? with
  | none =>
    obtain h | ⟨-, info, hsome, -⟩ := h
    · exact h
    · cases hinfo.symm.trans hsome
  | some info =>
    dsimp only
    have h' : HasUser u.users res p ∨ (p = pass ∧ res ∈ touched info) := by
      obtain h | ⟨rfl, info', hsome, hres⟩ := h
      · exact .inl h
      · cases hinfo.symm.trans hsome
        exact .inr ⟨rfl, hres⟩
    clear h
    generalize touched info = L at h'
    induction L generalizing u with
    | nil => simpa using h'
    | cons x rest ih =>
      rw [List.foldl_cons]
      apply ih
      dsimp only
      obtain h | ⟨rfl, hres⟩ := h'
      · refine .inl (h.upsert x fun list hp => ?_)
        dsimp only
        split <;> simp [hp]
      · rcases List.mem_cons.mp hres with rfl | hres
        · refine .inl (hasUser_upsert_self _ _ fun l => ?_)
          cases l with
          | none => simp
          | some list =>
            dsimp only
            split
            · exact List.mem_of_getLast? (by assumption)
            · simp
        · exact .inr ⟨rfl, hres⟩

/-- Every live pass is a recorded user of every resource it touches. -/
theorem hasUser_collect {r : Registry} {s : Schedule} {p : Nat} {info : PassInfo} {res : Res}
    (hp : p ∈ s.order) (hinfo : r.passes[p]? = some info) (hres : res ∈ touched info) :
    HasUser (Usage.collect r s).users res p := by
  obtain ⟨i, hi⟩ := List.mem_iff_getElem?.mp hp
  have hmem : (p, i) ∈ s.order.zipIdx := List.mem_zipIdx_iff_getElem?.mpr hi
  obtain ⟨L1, L2, hL⟩ := List.append_of_mem hmem
  dsimp only [Usage.collect]
  split <;>
  · rw [hL, List.foldl_append, List.foldl_cons]
    refine List.foldlRecOn (motive := fun u : Usage => HasUser u.users res p) L2 _ ?_
      fun u hu ⟨pass, pos⟩ _ => hasUser_record pos pass (.inl hu)
    exact hasUser_record i p (.inr ⟨rfl, info, hinfo, hres⟩)

/-- Every recorded range starts no later than it ends, and ends before position `n`. -/
def Bounded (n : Nat) (liveness : List (Res × Liveness)) : Prop :=
  ∀ res l, find? liveness res = some l → l.first ≤ l.last ∧ l.last < n

theorem Bounded.upsert {n : Nat} {t : List (Res × Liveness)} (h : Bounded n t) (k : Res)
    {f : Option Liveness → Liveness}
    (hf : ∀ o : Option Liveness, (∀ l, o = some l → l.first ≤ l.last ∧ l.last < n) →
      (f o).first ≤ (f o).last ∧ (f o).last < n) :
    Bounded n (upsert t k f) := by
  intro res l hl
  rw [find?_upsert] at hl
  split at hl
  · subst res
    cases hl
    exact hf _ (h k)
  · exact h res l hl

/-- Recording a pass at a position below `n` keeps every range below `n`. -/
theorem Bounded.record {n : Nat} {r : Registry} {u : Usage} (h : Bounded n u.liveness)
    {pos : Nat} (hpos : pos < n) (pass : Nat) : Bounded n (u.record r pos pass).liveness := by
  unfold Usage.record
  cases r.passes[pass]? with
  | none => exact h
  | some info =>
    dsimp only
    generalize touched info = L
    induction L generalizing u with
    | nil => exact h
    | cons x rest ih =>
      rw [List.foldl_cons]
      apply ih
      dsimp only
      refine h.upsert x fun o ho => ?_
      cases o with
      | none => exact ⟨le_rfl, hpos⟩
      | some l =>
        obtain ⟨h1, h2⟩ := ho l rfl
        simp only [Option.map_some, Option.getD_some, Liveness.extend]
        omega

/-- The ranges of a usage are ranges of schedule positions. -/
theorem bounded_collect (r : Registry) (s : Schedule) :
    Bounded s.order.length (Usage.collect r s).liveness := by
  dsimp only [Usage.collect]
  generalize hu : List.foldl _ _ s.order.zipIdx = u
  have hfold : Bounded s.order.length u.liveness := by
    rw [← hu]
    refine List.foldlRecOn (motive := fun u : Usage => Bounded s.order.length u.liveness) _ _
      (fun _ _ h => by cases h) fun u hu ⟨pass, pos⟩ hx => hu.record ?_ pass
    simpa using (List.mem_zipIdx hx).2.1
  split
  · -- the present image is kept live up to the last position
    rename_i n hn
    dsimp only
    refine hfold.upsert _ fun o ho => ?_
    cases o with
    | none => simp [hn]
    | some l =>
      obtain ⟨h1, h2⟩ := ho l rfl
      dsimp only
      omega
  · exact hfold

/-! ### Chains -/

/-- What every chain gathered by `collectGroups` satisfies: its members are of its base's chain,
it has one, and it needs memory of its own exactly when its base is persistent or the present
image's base. -/
structure GroupOk (r : Registry) (presentBase : Option Res) (g : Group) : Prop where
  base_eq : ∀ m ∈ g.members, r.baseOf m = g.base
  ne_nil : g.members ≠ []
  dedicated_eq : g.dedicated = (r.lifetime g.base == .persistent || some g.base == presentBase)

theorem collectGroups_ok {r : Registry} {presentBase : Option Res} {groups : List Group}
    (h : collectGroups r presentBase = .ok groups) : ∀ g ∈ groups, GroupOk r presentBase g := by
  unfold collectGroups at h
  obtain ⟨gs, hgs, hmap⟩ := Except.exists_of_bind_eq_ok h
  cases hmap
  have hok : ∀ g ∈ gs, GroupOk r presentBase g := by
    refine Except.foldlM_inv (I := fun gs : List Group => ∀ g ∈ gs, GroupOk r presentBase g) hgs
      (by simp) fun acc res b _ hacc hb => ?_
    obtain ⟨desc, -, hb⟩ := Except.exists_of_bind_eq_ok hb
    split at hb
    · -- the chain is known: the member joins it
      rename_i idx hidx
      cases hb
      obtain ⟨hlt, hbase, -⟩ := List.findIdx?_eq_some_iff_getElem.mp hidx
      rw [List.modify_eq_set_getElem?, List.getElem?_eq_getElem hlt]
      intro g hg
      rcases List.mem_or_eq_of_mem_set hg with hg | rfl
      · exact hacc g hg
      · have hg0 := hacc _ (List.getElem_mem hlt)
        have hb0 : acc[idx].base = r.baseOf res := by simpa using hbase
        refine ⟨fun m hm => ?_, by simp, hg0.dedicated_eq⟩
        rcases List.mem_append.mp hm with hm | hm
        · exact hg0.base_eq m hm
        · rw [List.mem_singleton.mp hm]
          exact hb0.symm
    · -- a new chain, with this member
      obtain ⟨baseDesc, -, hb⟩ := Except.exists_of_bind_eq_ok hb
      cases hb
      intro g hg
      rcases List.mem_append.mp hg with hg | hg
      · exact hacc g hg
      · rw [List.mem_singleton.mp hg]
        exact ⟨fun m hm => by rw [List.mem_singleton.mp hm], by simp, rfl⟩
  intro g hg
  obtain ⟨g0, hg0, rfl⟩ := List.mem_map.mp hg
  have h0 := hok g0 hg0
  refine ⟨fun m hm => h0.base_eq m (List.mem_mergeSort.mp hm), ?_, h0.dedicated_eq⟩
  rw [← List.length_pos_iff, List.length_mergeSort, List.length_pos_iff]
  exact h0.ne_nil

/-! ### Placing chains -/

/-- A live pass of the schedule touches the resource. -/
def Uses (r : Registry) (s : Schedule) (p : Nat) (res : Res) : Prop :=
  s.isLive p = true ∧ ∃ info, r.passes[p]? = some info ∧ res ∈ touched info

/-- When the range of `x` ends before that of `y` starts, every live pass using `x` happens before
every live pass using `y`. -/
def UsedBefore (r : Registry) (s : Schedule) (sync : SyncPlan) (x y : Member) : Prop :=
  ∀ lx ly, x.liveness = some lx → y.liveness = some ly → lx.last < ly.first →
    ∀ e l, Uses r s e x.resource → Uses r s l y.resource → sync.happensBefore s e l = true

section Buckets

variable (r : Registry) (s : Schedule) (sync : SyncPlan) (o : BakeOptions) (u : Usage)
  (presentBase : Option Res)

/-- What every bucket satisfies while chains are placed: members carry their liveness, members of
different chains were found ordered one way or the other, a persistent bucket (and, with sharing
off, every bucket) holds its base's chain only, and a bucket is persistent exactly when its
base's chain needs memory of its own. -/
structure BucketOk (b : Bucket) : Prop where
  liveness_eq : ∀ m ∈ b.members, m.liveness = find? u.liveness m.resource
  separated : ∀ x ∈ b.members, ∀ y ∈ b.members, r.baseOf x.resource ≠ r.baseOf y.resource →
    ordered s sync u.users x y = true ∨ ordered s sync u.users y x = true
  base_eq : (b.persistent = true ∨ o.aliasTransients = false) →
    ∀ m ∈ b.members, r.baseOf m.resource = b.base
  ne_nil : b.members ≠ []
  persistent_eq : b.persistent = (r.lifetime b.base == .persistent || some b.base == presentBase)

variable {r s sync o u presentBase}

theorem independent_of_ordered {users : List (Res × List Nat)} {a b : Member} {la lb : Liveness}
    (h : ordered s sync users a b = true) (ha : a.liveness = some la) (hb : b.liveness = some lb) :
    la.last < lb.first ∨ lb.last < la.first := by
  unfold ordered at h
  rw [ha, hb] at h
  dsimp only at h
  split at h
  · cases h
  · rename_i hind
    simp only [Liveness.independent, Bool.not_eq_true', Bool.not_eq_false, Bool.or_eq_true,
      decide_eq_true_eq] at hind
    omega

/-- Where every live use of a resource is a recorded user, `ordered` members of well-formed
ranges are used one before the other, whichever range comes first. -/
theorem usedBefore_of_ordered {users : List (Res × List Nat)} {a b : Member}
    (hcover : ∀ p res, Uses r s p res → HasUser users res p)
    (hwa : ∀ l, a.liveness = some l → l.first ≤ l.last)
    (hwb : ∀ l, b.liveness = some l → l.first ≤ l.last)
    (h : ordered s sync users a b = true) :
    UsedBefore r s sync a b ∧ UsedBefore r s sync b a := by
  -- the earlier member is the one whose range ends first; its uses are checked against the later's
  unfold ordered at h
  constructor
  · intro la lb ha hb hlt e l he hl
    rw [ha, hb] at h
    simp only [Liveness.independent, hlt, decide_true, Bool.true_or, Bool.not_true,
      Bool.false_eq_true, ↓reduceIte] at h
    obtain ⟨es, hes, hmem_e⟩ := hcover e a.resource he
    obtain ⟨ls, hls, hmem_l⟩ := hcover l b.resource hl
    rw [hes, hls] at h
    simp only [List.all_eq_true] at h
    exact h e hmem_e l hmem_l
  · intro lb la hb ha hlt e l he hl
    have hnot : ¬la.last < lb.first := by
      have := hwa la ha
      have := hwb lb hb
      omega
    rw [ha, hb] at h
    simp only [Liveness.independent, hnot, hlt, decide_true, decide_false, Bool.false_or,
      Bool.not_true, Bool.false_eq_true, ↓reduceIte] at h
    obtain ⟨es, hes, hmem_e⟩ := hcover e b.resource he
    obtain ⟨ls, hls, hmem_l⟩ := hcover l a.resource hl
    rw [hes, hls] at h
    simp only [List.all_eq_true] at h
    exact h e hmem_e l hmem_l

theorem mem_members {g : Group} {m : Member}
    (hm : m ∈ g.members.map fun m => Member.mk m (find? u.liveness m)) :
    m.resource ∈ g.members ∧ m.liveness = find? u.liveness m.resource := by
  obtain ⟨res, hres, rfl⟩ := List.mem_map.mp hm
  exact ⟨hres, rfl⟩

/-- Two members made from one chain share its base. -/
theorem GroupOk.baseOf_eq {g : Group} (hg : GroupOk r presentBase g) {x y : Member}
    (hx : x ∈ g.members.map fun m => Member.mk m (find? u.liveness m))
    (hy : y ∈ g.members.map fun m => Member.mk m (find? u.liveness m)) :
    r.baseOf x.resource = r.baseOf y.resource :=
  (hg.base_eq _ (mem_members hx).1).trans (hg.base_eq _ (mem_members hy).1).symm

/-- Placing a chain keeps every bucket as `BucketOk` says. -/
theorem placeGroup_ensures {g : Group} (hg : GroupOk r presentBase g)
    {acc : Array Bucket × List (Res × Nat)}
    (hacc : ∀ b ∈ acc.1, BucketOk r s sync o u presentBase b) :
    Ensures (placeGroup s sync o u acc g) fun acc => ∀ b ∈ acc.1, BucketOk r s sync o u presentBase b := by
  obtain ⟨B, A⟩ := acc
  unfold placeGroup
  dsimp only
  split
  · -- the chain joins the first bucket that fits it
    rename_i idx hidx
    split at hidx
    · cases hidx
    rename_i hshare
    obtain ⟨hlt, hfits, -⟩ := Array.findIdx?_eq_some_iff_getElem.mp hidx
    simp only [Bool.and_eq_true, Bool.not_eq_true', List.all_eq_true] at hfits
    obtain ⟨⟨hpers, -⟩, hall⟩ := hfits
    have hb0 := hacc _ (Array.getElem_mem hlt)
    rw [Array.getD_eq_getD_getElem?, Array.getElem?_eq_getElem hlt, Option.getD_some]
    refine Ensures.log_bind (Ensures.pure fun b hb => ?_)
    rw [Array.set!_eq_setIfInBounds] at hb
    rcases Array.mem_or_eq_of_mem_setIfInBounds hb with hb | rfl
    · exact hacc b hb
    refine ⟨fun m hm => ?_, fun x hx y hy hne => ?_, fun h => ?_, by simp [hb0.ne_nil],
      hb0.persistent_eq⟩
    · rcases List.mem_append.mp hm with hm | hm
      · exact hb0.liveness_eq m hm
      · exact (mem_members hm).2
    · rcases List.mem_append.mp hx with hx | hx <;> rcases List.mem_append.mp hy with hy | hy
      · exact hb0.separated x hx y hy hne
      · exact .inl (hall x hx y hy)
      · exact .inr (hall y hy x hx)
      · exact absurd (hg.baseOf_eq hx hy) hne
    · -- a bucket that takes a chain in is neither persistent nor in a plan without sharing
      simp only [Bool.or_eq_true, Bool.not_eq_true', not_or] at hshare
      rcases h with h | h
      · exact absurd h (by simp [hpers])
      · exact absurd h hshare.2
  · -- the chain opens a bucket of its own
    refine Ensures.log_bind (Ensures.pure fun b hb => ?_)
    rcases Array.mem_push.mp hb with hb | rfl
    · exact hacc b hb
    · refine ⟨fun m hm => (mem_members hm).2, fun x hx y hy hne => ?_, fun _ m hm => ?_, ?_,
        hg.dedicated_eq⟩
      · exact absurd (hg.baseOf_eq hx hy) hne
      · exact hg.base_eq _ (mem_members hm).1
      · simpa using hg.ne_nil

/-- A successful memory plan keeps the usage's ranges, and each of its buckets is as `BucketOk`
says. -/
theorem build_bucketsOk {m : MemoryPlan} (h : Returns (build r s sync o) m) :
    m.liveness = (Usage.collect r s).liveness ∧
      ∀ b ∈ m.buckets, BucketOk r s sync o (Usage.collect r s)
        (r.presentImage.map fun i => r.baseOf (.image i)) b := by
  unfold build at h
  dsimp only at h
  obtain ⟨groups, hgroups, h⟩ := h.bind
  have hok := collectGroups_ok (BakeM.eq_of_returns_ofConfig hgroups)
  obtain ⟨acc, hloop, h⟩ := h.bind
  -- the chains in use are some of the chains
  have hused : ∀ g ∈ acc.1, g ∈ groups := by
    refine Returns.forIn (I := fun acc : Array Group × List Res => ∀ g ∈ acc.1, g ∈ groups)
      hloop (by simp) fun g hg acc step hacc hstep => ?_
    split at hstep
    · obtain rfl := hstep.eq_of_yields (Yields.run_pure _)
      intro g' hg'
      rcases Array.mem_push.mp hg' with hg' | rfl
      · exact hacc g' hg'
      · exact hg
    · obtain ⟨_, -, hstep⟩ := hstep.bind
      obtain rfl := hstep.eq_of_yields (Yields.run_pure _)
      exact hacc
  obtain ⟨x, hx, h⟩ := h.bind
  obtain ⟨j, hj⟩ := Returns.lift hx
  obtain ⟨B, A⟩ := x
  have hB : ∀ b ∈ B, BucketOk r s sync o (Usage.collect r s)
      (r.presentImage.map fun i => r.baseOf (.image i)) b := by
    show ∀ b ∈ (B, A).1, _
    rw [← hj]
    exact Ensures.foldlM (by simp)
      (fun acc g hg hacc => placeGroup_ensures (hok g (hused g (by simpa using hg))) hacc) j
  obtain rfl := h.eq_of_yields (Yields.run_bind (Yields.run_lift (Yields.log _ _ _)) (Yields.run_pure _))
  refine ⟨rfl, fun b hb => ?_⟩
  obtain ⟨b0, hb0, rfl⟩ := Array.mem_map.mp hb
  have hb0 := hB b0 hb0
  exact ⟨hb0.liveness_eq, hb0.separated, hb0.base_eq, hb0.ne_nil, hb0.persistent_eq⟩

/-- What a memory plan promises of its buckets. -/
structure SharingLaws (r : Registry) (s : Schedule) (sync : SyncPlan) (o : BakeOptions)
    (m : MemoryPlan) : Prop where
  /-- Members of different chains in one bucket are never live at one position. -/
  disjoint : ∀ b ∈ m.buckets, ∀ x ∈ b.members, ∀ y ∈ b.members,
    r.baseOf x.resource ≠ r.baseOf y.resource →
    ∀ lx ly, m.livenessOf? x.resource = some lx → m.livenessOf? y.resource = some ly →
      lx.last < ly.first ∨ ly.last < lx.first
  /-- Every live pass using the earlier of them happens before every live pass using the later. -/
  usedBefore : ∀ b ∈ m.buckets, ∀ x ∈ b.members, ∀ y ∈ b.members,
    r.baseOf x.resource ≠ r.baseOf y.resource →
    ∀ lx ly, m.livenessOf? x.resource = some lx → m.livenessOf? y.resource = some ly →
      lx.last < ly.first →
      ∀ e l, Uses r s e x.resource → Uses r s l y.resource → sync.happensBefore s e l = true
  /-- A bucket is persistent exactly when its chain is persistent or the present image's. -/
  persistent_iff : ∀ b ∈ m.buckets, b.persistent = true ↔
    (r.lifetime b.base = .persistent ∨ r.presentImage.map (fun i => r.baseOf (.image i)) = some b.base)
  /-- A persistent bucket, and with sharing off every bucket, holds one chain: its base's. -/
  one_chain : ∀ b ∈ m.buckets, (b.persistent = true ∨ o.aliasTransients = false) →
    b.members ≠ [] ∧ ∀ x ∈ b.members, r.baseOf x.resource = b.base

/-- Every memory plan of a successful schedule shares memory safely: chains that share a bucket
are live at disjoint positions and used one after the other, and persistent chains never share. -/
theorem build_shares_safely {g : Graph} {m : MemoryPlan} (hsch : Returns (Schedule.build r g o) s)
    (hm : Returns (build r s sync o) m) : SharingLaws r s sync o m := by
  obtain ⟨hlive, hbuckets⟩ := build_bucketsOk hm
  have hs := Schedule.build_placement hsch
  have hcover : ∀ p res, Uses r s p res → HasUser (Usage.collect r s).users res p := by
    rintro p res ⟨hp, info, hinfo, hres⟩
    exact hasUser_collect (hs.isLive_iff.mp hp) hinfo hres
  -- members carry the plan's ranges, and every range starts no later than it ends
  have hlv : ∀ b ∈ m.buckets, ∀ x ∈ b.members, m.livenessOf? x.resource = x.liveness := by
    intro b hb x hx
    rw [livenessOf?, hlive, (hbuckets b hb).liveness_eq x hx]
  have hwf : ∀ b ∈ m.buckets, ∀ x ∈ b.members, ∀ l, x.liveness = some l → l.first ≤ l.last := by
    intro b hb x hx l hl
    rw [(hbuckets b hb).liveness_eq x hx] at hl
    exact (bounded_collect r s _ l hl).1
  refine ⟨?_, ?_, ?_, ?_⟩
  · intro b hb x hx y hy hne lx ly hlx hly
    rw [hlv b hb x hx] at hlx
    rw [hlv b hb y hy] at hly
    rcases (hbuckets b hb).separated x hx y hy hne with h | h
    · exact independent_of_ordered h hlx hly
    · exact (independent_of_ordered h hly hlx).symm
  · intro b hb x hx y hy hne lx ly hlx hly hlt
    rw [hlv b hb x hx] at hlx
    rw [hlv b hb y hy] at hly
    rcases (hbuckets b hb).separated x hx y hy hne with h | h
    · exact (usedBefore_of_ordered hcover (hwf b hb x hx) (hwf b hb y hy) h).1 lx ly hlx hly hlt
    · exact (usedBefore_of_ordered hcover (hwf b hb y hy) (hwf b hb x hx) h).2 lx ly hlx hly hlt
  · intro b hb
    rw [(hbuckets b hb).persistent_eq, Bool.or_eq_true, beq_iff_eq, beq_iff_eq, eq_comm (a := some b.base)]
  · intro b hb h
    exact ⟨(hbuckets b hb).ne_nil, (hbuckets b hb).base_eq h⟩

end Buckets

/-! ### A plan where two chains share a bucket -/

/-- Three graphics passes, each writing a chain of two buffers that the next pass reads: the
first chain is dead before the last one is born. -/
def threeChains : Registry where
  brief := ⟨6, 0, 3, 0, 0, 0, 0, none, none, ⟨0⟩⟩
  buffers := #[some ⟨"a", .storage 1024, .transient⟩, some ⟨"a.next", .storage 1024, .transient⟩,
    some ⟨"b", .storage 1024, .transient⟩, some ⟨"b.next", .storage 1024, .transient⟩,
    some ⟨"c", .storage 1024, .transient⟩, some ⟨"c.next", .storage 1024, .transient⟩]
  images := #[]
  shaders := #[]
  programs := #[]
  samplers := #[]
  bindless := #[]
  passes := #[
    ⟨0, "fill", .graphics, none, none, [],
      [⟨.buffer 0, some (.buffer 1), .write, 0, 0x80, 0x40, none⟩], []⟩,
    ⟨1, "blur", .graphics, none, none, [⟨.buffer 1, none, .read, 0, 0x80, 0x20, none⟩],
      [⟨.buffer 2, some (.buffer 3), .write, 1, 0x80, 0x40, none⟩], []⟩,
    ⟨2, "tone", .graphics, none, none, [⟨.buffer 3, none, .read, 0, 0x80, 0x20, none⟩],
      [⟨.buffer 4, some (.buffer 5), .write, 1, 0x80, 0x40, none⟩], []⟩]
  passSlots := #[some 0, some 1, some 2]
  bufferForest := ⟨.buffer, #[some 0, some 0, some 2, some 2, some 4, some 4], #[0, 1, 0, 2, 0, 3], 4⟩
  imageForest := Forest.empty .image 0

/-- Its graph: each pass reads what the one before wrote. -/
def threeChainsGraph : Graph :=
  ⟨3, [⟨0, 1, .buffer 1, .readAfterWrite⟩, ⟨1, 2, .buffer 3, .readAfterWrite⟩],
    [(.buffer 1, 0), (.buffer 3, 1), (.buffer 5, 2)]⟩

/-- Its schedule: the passes in a row on the graphics queue. -/
def threeChainsSchedule : Schedule :=
  ⟨[0, 1, 2], #[some 0, some 1, some 2], #[0, 1, 2], #[.graphics, .graphics, .graphics], #[0, 1, 2],
    ⟨[0, 1, 2], [], [], []⟩, []⟩

/-- Its plan: one frame, no waits. -/
def threeChainsPlan : SyncPlan :=
  ⟨#[.const none, ⟨some 0, none, none, none⟩, ⟨some 1, none, none, none⟩], #[[], [], []],
    #[[], [], []], ⟨[⟨.graphics, 0, 3, [], 3⟩], [], [], []⟩⟩

/-- Its memory plan: the first and the last chain share bucket 0. -/
def threeChainsMemory : MemoryPlan where
  buckets := #[
    ⟨0, .buffer 0, .buffer 1024 35 .gpuOnly, false,
      [⟨.buffer 0, some ⟨0, 0⟩⟩, ⟨.buffer 1, some ⟨0, 1⟩⟩, ⟨.buffer 4, some ⟨2, 2⟩⟩,
        ⟨.buffer 5, some ⟨2, 2⟩⟩], ⟨128, 64, 0⟩⟩,
    ⟨1, .buffer 2, .buffer 1024 35 .gpuOnly, false,
      [⟨.buffer 2, some ⟨1, 1⟩⟩, ⟨.buffer 3, some ⟨1, 2⟩⟩], ⟨128, 64, 0⟩⟩]
  assignment := [(.buffer 0, 0), (.buffer 1, 0), (.buffer 2, 1), (.buffer 3, 1), (.buffer 4, 0),
    (.buffer 5, 0)]
  liveness := [(.buffer 0, ⟨0, 0⟩), (.buffer 1, ⟨0, 1⟩), (.buffer 2, ⟨1, 1⟩), (.buffer 3, ⟨1, 2⟩),
    (.buffer 4, ⟨2, 2⟩), (.buffer 5, ⟨2, 2⟩)]
  unused := []

theorem threeChains_sharingLaws :
    Returns (Graph.build threeChains) threeChainsGraph ∧
      Returns (Schedule.build threeChains threeChainsGraph {}) threeChainsSchedule ∧
      ((SyncPlan.build threeChainsGraph threeChainsSchedule).run #[]).1 = threeChainsPlan ∧
      Returns (build threeChains threeChainsSchedule threeChainsPlan {}) threeChainsMemory ∧
      SharingLaws threeChains threeChainsSchedule threeChainsPlan {} threeChainsMemory := by
  have hg : Returns (Graph.build threeChains) threeChainsGraph := ⟨#[], by rfl⟩
  have hs : Returns (Schedule.build threeChains threeChainsGraph {}) threeChainsSchedule :=
    ⟨#[], by cbv⟩
  have hp : ((SyncPlan.build threeChainsGraph threeChainsSchedule).run #[]).1 = threeChainsPlan := by
    cbv
  have hm : Returns (build threeChains threeChainsSchedule threeChainsPlan {}) threeChainsMemory :=
    ⟨#[], by cbv⟩
  exact ⟨hg, hs, hp, hm, build_shares_safely hs hm⟩

end MemoryPlan

end RenderGraph
