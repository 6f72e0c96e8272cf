import RenderGraph.Proofs.Chains
import RenderGraph.Proofs.Failures
/-!
# The chains a memory plan places

`MemoryPlan.collectGroups` reads the registered resources once and gathers them by the base of
their chain. This module proves what it returns, for every ingested registry
(`collectGroups_laws`):

* one group per chain, with distinct bases, and every registered resource in the group of its
  base;
* a group's members are its whole chain, sorted strictly by link order and then by resource, so
  the base comes first (`IsChain`);
* a group's memory holds every member: a buffer group has the memory class of the base, the
  base's size, which no member exceeds, and every member's usage bits; an image group has the
  base's shape, which every member shares (`DescLaws`).

The proof is one invariant of the fold over the resources read so far (`GroupsInv`), kept when
a resource joins the group of its base (`GroupsInv.join`) and when it starts one
(`GroupsInv.add`); the sizes rest on the registry's law that every resource fits the base of
its chain.
-/

namespace RenderGraph

/-! ### Resources in order -/

namespace Res

theorem lt_iff_key {a b : Res} :
    Res.lt a b = true ↔ a.key.1 < b.key.1 ∨ (a.key.1 = b.key.1 ∧ a.key.2 < b.key.2) := by
  simp [Res.lt]

theorem key_injective {a b : Res} (h : a.key = b.key) : a = b := by
  cases a <;> cases b <;> simp_all [Res.key, Res.kind, Res.id, ResKind.raw]

theorem lt_trans {a b c : Res} (hab : Res.lt a b = true) (hbc : Res.lt b c = true) :
    Res.lt a c = true := by
  rw [lt_iff_key] at hab hbc ⊢
  omega

theorem lt_or_lt {a b : Res} (h : a ≠ b) : Res.lt a b = true ∨ Res.lt b a = true := by
  have hkey : a.key.1 ≠ b.key.1 ∨ a.key.2 ≠ b.key.2 := by
    by_contra hk
    exact h (key_injective (Prod.ext (by omega) (by omega)))
  rw [lt_iff_key, lt_iff_key]
  omega

end Res

namespace MemoryPlan

theorem resLe_iff {a b : Res} : resLe a b = true ↔ ¬Res.lt b a = true := by
  simp [resLe]

theorem resLe_trans {a b c : Res} (hab : resLe a b = true) (hbc : resLe b c = true) :
    resLe a c = true := by
  rw [resLe_iff, Res.lt_iff_key] at hab hbc ⊢
  omega

theorem resLe_total (a b : Res) : resLe a b = true ∨ resLe b a = true := by
  rw [resLe_iff, resLe_iff, Res.lt_iff_key, Res.lt_iff_key]
  omega

end MemoryPlan

/-! ### Memory descriptions -/

namespace BucketDesc

/-- The usage bits of a description. -/
def usage : BucketDesc → UInt32
  | .buffer _ u _ => u
  | .image _ u => u

/-- `D` has room for `d`: a buffer of `d`'s memory class and at least its size, or an image of
its shape. -/
def Covers : BucketDesc → BucketDesc → Prop
  | .buffer S _ M, .buffer s _ m => m = M ∧ s ≤ S
  | .image SH _, .image sh _ => sh = SH
  | _, _ => False

/-- `D` holds `d`: it has room for it and carries every usage bit of it. -/
def Holds (D d : BucketDesc) : Prop := D.Covers d ∧ d.usage ||| D.usage = D.usage

/-- `d` is as large as `D`: a buffer of its size, or an image of its shape. -/
def Fills : BucketDesc → BucketDesc → Prop
  | .buffer S _ _, .buffer s _ _ => s = S
  | .image SH _, .image sh _ => sh = SH
  | _, _ => False

variable {D D' d e : BucketDesc}

theorem uint64_le_max_left (a b : UInt64) : a ≤ max a b := by
  rw [UInt64.max_def]
  split
  · assumption
  · exact UInt64.le_refl a

theorem uint64_le_max_right (a b : UInt64) : b ≤ max a b := by
  rw [UInt64.max_def]
  split
  · exact UInt64.le_refl b
  · rename_i h
    exact (UInt64.le_total a b).resolve_left h

theorem covers_refl (D : BucketDesc) : D.Covers D := by
  cases D with
  | buffer s u m => exact ⟨rfl, UInt64.le_refl s⟩
  | image sh u => rfl

theorem fills_refl (D : BucketDesc) : D.Fills D := by
  cases D <;> rfl

theorem Covers.compatible (h : D.Covers d) : D.compatible d = true := by
  cases D <;> cases d <;> simp_all [Covers, compatible]

theorem Covers.trans (h : D.Covers d) (h' : d.Covers e) : D.Covers e := by
  cases D <;> cases d <;> cases e <;> simp only [Covers] at h h' ⊢
  case buffer.buffer.buffer => exact ⟨h'.1.trans h.1, UInt64.le_trans h'.2 h.2⟩
  case image.image.image => exact h'.trans h

theorem compatible_iff : D.compatible D' = true ↔
    (∃ s u m s' u', D = .buffer s u m ∧ D' = .buffer s' u' m) ∨
      (∃ sh u u', D = .image sh u ∧ D' = .image sh u') := by
  constructor
  · intro hc
    cases D <;> cases D' <;> simp only [compatible, beq_iff_eq, reduceCtorEq] at hc
    · subst hc
      exact .inl ⟨_, _, _, _, _, rfl, rfl⟩
    · subst hc
      exact .inr ⟨_, _, _, rfl, rfl⟩
  · rintro (⟨s, u, m, s', u', rfl, rfl⟩ | ⟨sh, u, u', rfl, rfl⟩) <;> simp [compatible]

theorem Covers.merge_left (h : D.Covers d) (hc : D.compatible D' = true) : (D.merge D').Covers d := by
  obtain ⟨s, u, m, s', u', rfl, rfl⟩ | ⟨sh, u, u', rfl, rfl⟩ := compatible_iff.mp hc
  · cases d with
    | buffer sd ud md => exact ⟨h.1, UInt64.le_trans h.2 (uint64_le_max_left _ _)⟩
    | image => exact h.elim
  · cases d with
    | buffer => exact h.elim
    | image shd ud => exact h

theorem Covers.merge_right (h : D'.Covers d) (hc : D.compatible D' = true) :
    (D.merge D').Covers d := by
  obtain ⟨s, u, m, s', u', rfl, rfl⟩ | ⟨sh, u, u', rfl, rfl⟩ := compatible_iff.mp hc
  · cases d with
    | buffer sd ud md => exact ⟨h.1, UInt64.le_trans h.2 (uint64_le_max_right _ _)⟩
    | image => exact h.elim
  · cases d with
    | buffer => exact h.elim
    | image shd ud => exact h

theorem usage_merge (hc : D.compatible D' = true) : (D.merge D').usage = D.usage ||| D'.usage := by
  obtain ⟨s, u, m, s', u', rfl, rfl⟩ | ⟨sh, u, u', rfl, rfl⟩ := compatible_iff.mp hc <;> rfl

theorem Holds.merge_left (h : D.Holds d) (hc : D.compatible D' = true) : (D.merge D').Holds d := by
  refine ⟨h.1.merge_left hc, ?_⟩
  rw [usage_merge hc, ← UInt32.or_assoc, h.2]

theorem Holds.merge_right (h : D'.Holds d) (hc : D.compatible D' = true) :
    (D.merge D').Holds d := by
  refine ⟨h.1.merge_right hc, ?_⟩
  -- the usage bits of `d` are among those of `D'`
  rw [usage_merge hc, ← UInt32.or_assoc, UInt32.or_comm d.usage, UInt32.or_assoc, h.2]

/-- A description merged with one it has room for holds that one. -/
theorem holds_merge_of_covers (h : D.Covers d) : (D.merge d).Holds d :=
  Holds.merge_right ⟨covers_refl d, UInt32.or_self⟩ h.compatible

/-- Merging in a description that fits keeps the size. -/
theorem Fills.merge_of_covers (h : D.Fills e) (hc : D.Covers d) : (D.merge d).Fills e := by
  obtain ⟨s, u, m, s', u', rfl, rfl⟩ | ⟨sh, u, u', rfl, rfl⟩ := compatible_iff.mp hc.compatible
  · cases e with
    | buffer se ue me =>
      show se = max s s'
      rw [UInt64.max_def]
      split
      · rename_i hle
        exact (show se = s from h).trans (UInt64.le_antisymm hle hc.2)
      · exact h
    | image => exact h.elim
  · cases e with
    | buffer => exact h.elim
    | image she ue => exact h

/-- Merging two compatible descriptions keeps the size of the larger. -/
theorem Fills.merge (h : D.Fills d) (h' : D'.Fills e) (hc : D.compatible D' = true) :
    (D.merge D').Fills d ∨ (D.merge D').Fills e := by
  obtain ⟨s, u, m, s', u', rfl, rfl⟩ | ⟨sh, u, u', rfl, rfl⟩ := compatible_iff.mp hc
  · cases d with
    | image => exact h.elim
    | buffer sd ud md =>
      cases e with
      | image => exact h'.elim
      | buffer se ue me =>
        show sd = max s s' ∨ se = max s s'
        rw [UInt64.max_def]
        split
        · exact .inr h'
        · exact .inl h
  · cases d with
    | buffer => exact h.elim
    | image shd ud => exact .inl h

end BucketDesc

namespace Registry

/-- Every registered resource is listed once. -/
theorem nodup_resources (r : Registry) : r.resources.Nodup := by
  have hids : ∀ {α : Type} (t : Array (Option α)), (filledIds t).Nodup :=
    fun t => (List.nodup_range).filter _
  refine List.nodup_append.mpr ⟨(hids _).map fun _ _ h => Res.buffer.inj h,
    (hids _).map fun _ _ h => Res.image.inj h, fun a ha b hb => ?_⟩
  obtain ⟨i, -, rfl⟩ := List.mem_map.mp ha
  obtain ⟨j, -, rfl⟩ := List.mem_map.mp hb
  exact Res.noConfusion

end Registry

namespace MemoryPlan

open BucketDesc

variable {r : Registry}

/-- A registered resource's description has room for that of every member of its chain. -/
theorem covers_of_fits {base x : Res} {db d : BucketDesc} (hfits : r.Fits base x)
    (hdb : describe r base = .ok db) (hd : describe r x = .ok d) : db.Covers d := by
  cases base <;> cases x <;> simp only [Registry.Fits] at hfits
  case buffer.buffer a b =>
    obtain ⟨bi, xi, hbi, hxi, hsize, hmem⟩ := hfits
    simp only [describe, hbi, hxi, Except.ok.injEq] at hdb hd
    subst hdb hd
    exact ⟨hmem, hsize⟩
  case image.image a b =>
    obtain ⟨bi, xi, hbi, hxi, hshape⟩ := hfits
    simp only [describe, hbi, hxi, Except.ok.injEq] at hdb hd
    subst hdb hd
    exact hshape.symm

/-- The memory a description `D` provides holds every resource of `members`, and one of them
fills it. -/
def DescLaws (r : Registry) (members : List Res) (D : BucketDesc) : Prop :=
  (∀ x ∈ members, ∃ d, describe r x = .ok d ∧ D.Holds d) ∧
    ∃ x ∈ members, ∃ d, describe r x = .ok d ∧ D.Fills d

/-! ### Chains -/

/-- `a` comes before `b` in a chain: by link order, then by resource. -/
def ChainBefore (r : Registry) (a b : Res) : Prop :=
  r.chainOrder a < r.chainOrder b ∨ (r.chainOrder a = r.chainOrder b ∧ Res.lt a b = true)

/-- `L` is the chain of `base`: exactly the registered resources with that base, sorted strictly
by link order and then by resource, the base first. -/
structure IsChain (r : Registry) (base : Res) (L : List Res) : Prop where
  mem_iff : ∀ x, x ∈ L ↔ r.contains x = true ∧ r.baseOf x = base
  sorted : L.Pairwise (ChainBefore r)
  head : L.head? = some base

/-- The order `collectGroups` sorts a chain by: link order, then resource. -/
def chainLe (r : Registry) (a b : Res) : Bool :=
  decide (r.chainOrder a < r.chainOrder b) || (r.chainOrder a == r.chainOrder b && resLe a b)

theorem chainLe_trans {a b c : Res} (hab : chainLe r a b = true) (hbc : chainLe r b c = true) :
    chainLe r a c = true := by
  simp only [chainLe, Bool.or_eq_true, Bool.and_eq_true, decide_eq_true_eq, beq_iff_eq] at hab hbc ⊢
  rcases hab with hab | ⟨hab, hab'⟩ <;> rcases hbc with hbc | ⟨hbc, hbc'⟩
  · exact .inl (Nat.lt_trans hab hbc)
  · exact .inl (by omega)
  · exact .inl (by omega)
  · exact .inr ⟨hab.trans hbc, resLe_trans hab' hbc'⟩

theorem chainLe_total (a b : Res) : (chainLe r a b || chainLe r b a) = true := by
  simp only [chainLe, Bool.or_eq_true, Bool.and_eq_true, decide_eq_true_eq, beq_iff_eq]
  rcases Nat.lt_trichotomy (r.chainOrder a) (r.chainOrder b) with hlt | heq | hgt
  · exact .inl (.inl hlt)
  · rcases resLe_total a b with hle | hle
    · exact .inl (.inr ⟨heq, hle⟩)
    · exact .inr (.inr ⟨heq.symm, hle⟩)
  · exact .inr (.inl hgt)

theorem chainBefore_of_chainLe {a b : Res} (h : chainLe r a b = true) (hne : a ≠ b) :
    ChainBefore r a b := by
  simp only [chainLe, Bool.or_eq_true, Bool.and_eq_true, decide_eq_true_eq, beq_iff_eq] at h
  rcases h with h | ⟨h, hle⟩
  · exact .inl h
  · exact .inr ⟨h, (Res.lt_or_lt hne).resolve_right (resLe_iff.mp hle)⟩

/-- In a ranked registry the base leads every chain sorted in chain order. -/
theorem head_eq_base (hr : r.Ranked) {base : Res} {L : List Res}
    (hsorted : L.Pairwise (ChainBefore r)) (hbase : base ∈ L)
    (hmem : ∀ x ∈ L, r.baseOf x = base) : L.head? = some base := by
  cases L with
  | nil => cases hbase
  | cons h t =>
    rw [List.head?_cons, Option.some.injEq]
    by_contra hne
    have hbt : base ∈ t := (List.mem_cons.mp hbase).resolve_left (Ne.symm hne)
    -- the base has link order 0, and every other member a positive one
    have hb0 : r.chainOrder base = 0 := by
      rw [hr.chainOrder_eq_zero_iff, ← hmem base hbase, hr.baseOf_baseOf]
    have hh : r.chainOrder h ≠ 0 := by
      rw [Ne, hr.chainOrder_eq_zero_iff, hmem h List.mem_cons_self]
      exact Ne.symm hne
    rcases List.rel_of_pairwise_cons hsorted hbt with hlt | ⟨heq, -⟩ <;> omega

/-- Sorting the distinct registered resources of a chain by link order and then by resource
gives the chain, base first. -/
theorem isChain_mergeSort (hr : r.Ranked) {base : Res} {L : List Res}
    (hmem : ∀ x, x ∈ L ↔ r.contains x = true ∧ r.baseOf x = base) (hnd : L.Nodup)
    (hbase : base ∈ L) : IsChain r base (L.mergeSort (chainLe r)) := by
  have hmem' : ∀ x, x ∈ L.mergeSort (chainLe r) ↔ r.contains x = true ∧ r.baseOf x = base :=
    fun x => List.mem_mergeSort.trans (hmem x)
  have hnd' : (L.mergeSort (chainLe r)).Nodup := (List.mergeSort_perm L _).nodup_iff.mpr hnd
  have hsorted : (L.mergeSort (chainLe r)).Pairwise (ChainBefore r) :=
    ((@List.pairwise_mergeSort _ (chainLe r) (fun _ _ _ => chainLe_trans) chainLe_total L).and hnd').imp
      fun h => chainBefore_of_chainLe h.1 h.2
  exact ⟨hmem', hsorted,
    head_eq_base hr hsorted (List.mem_mergeSort.mpr hbase) fun x hx => ((hmem' x).mp hx).2⟩

/-! ### Gathering -/

/-- A fold that may fail, with an invariant of the part of the list read so far: what every
step keeps holds of the whole list when the fold succeeds. -/
theorem Except.foldlM_prefix {ε α β : Type} {f : β → α → Except ε β} {I : List α → β → Prop}
    {xs : List α} {init out : β} (h : xs.foldlM f init = .ok out) (hinit : I [] init)
    (hstep : ∀ pre x acc b, pre ++ [x] <+: xs → I pre acc → f acc x = .ok b → I (pre ++ [x]) b) :
    I xs out := by
  induction xs generalizing init I with
  | nil =>
    cases h
    exact hinit
  | cons x rest ih =>
    rw [List.foldlM_cons] at h
    obtain ⟨b, hb, hrest⟩ := Except.exists_of_bind_eq_ok h
    exact ih (I := fun pre => I (x :: pre)) hrest (hstep [] x init b (by simp) hinit hb)
      fun pre y acc c hp hacc hc => hstep (x :: pre) y acc c ((List.prefix_cons_inj x).mpr hp) hacc hc

/-- What gathering keeps of the groups built from the resources `P` read so far: one group per
base met, each holding the resources read with its base, in reading order, and a description
that holds them all and has the size of the base. -/
structure GroupsInv (r : Registry) (presentBase : Option Res) (P : List Res) (gs : List Group) :
    Prop where
  bases_nodup : (gs.map (·.base)).Nodup
  members_eq : ∀ g ∈ gs, g.members = P.filter (r.baseOf · == g.base)
  covers : ∀ x ∈ P, ∃ g ∈ gs, g.base = r.baseOf x
  ne_nil : ∀ g ∈ gs, g.members ≠ []
  dedicated_eq : ∀ g ∈ gs,
    g.dedicated = (r.lifetime g.base == .persistent || some g.base == presentBase)
  desc : ∀ g ∈ gs, ∃ db, describe r g.base = .ok db ∧ g.desc.Holds db ∧ g.desc.Fills db ∧
    ∀ x ∈ g.members, ∃ d, describe r x = .ok d ∧ g.desc.Holds d

variable {presentBase : Option Res} {P : List Res} {gs : List Group} {x : Res} {d db : BucketDesc}

theorem groupsInv_nil : GroupsInv r presentBase [] [] :=
  ⟨List.nodup_nil, by simp, by simp, by simp, by simp, by simp⟩

/-- The group at a changed entry of a list with distinct bases is the changed one; any other
group has another base. -/
theorem mem_modify {idx : Nat} (hlt : idx < gs.length) (hnd : (gs.map (·.base)).Nodup)
    {f : Group → Group} {g : Group} (hg : g ∈ gs.modify idx f) :
    g = f gs[idx] ∨ (g ∈ gs ∧ g.base ≠ gs[idx].base) := by
  obtain ⟨j, hj, rfl⟩ := List.getElem_of_mem hg
  have hj' : j < gs.length := by simpa using hj
  rw [List.getElem_modify]
  split
  · rename_i hij
    subst hij
    exact .inl rfl
  · rename_i hij
    refine .inr ⟨List.getElem_mem hj', fun hb => hij ?_⟩
    exact ((@List.Nodup.getElem_inj_iff _ _ hnd j (by simpa using hj') idx (by simpa using hlt)).mp
      (by simpa using hb)).symm

/-- Changing an entry without changing its base keeps the bases. -/
theorem map_base_modify {idx : Nat} {f : Group → Group} (hf : ∀ g, (f g).base = g.base) :
    (gs.modify idx f).map (·.base) = gs.map (·.base) := by
  refine List.ext_getElem (by simp) fun j h1 h2 => ?_
  simp only [List.getElem_map, List.getElem_modify]
  split
  · rw [hf]
  · rfl

/-- A resource joins the group of its base. -/
theorem GroupsInv.join (h : GroupsInv r presentBase P gs)
    (hfits : r.Fits (r.baseOf x) x) {idx : Nat}
    (hidx : gs.findIdx? (·.base == r.baseOf x) = some idx) (hd : describe r x = .ok d) :
    GroupsInv r presentBase (P ++ [x])
      (gs.modify idx fun g => { g with desc := g.desc.merge d, members := g.members ++ [x] }) := by
  obtain ⟨hlt, hbase, -⟩ := List.findIdx?_eq_some_iff_getElem.mp hidx
  have hbase : gs[idx].base = r.baseOf x := by simpa using hbase
  have hbases : (gs.modify idx fun g => { g with desc := g.desc.merge d, members := g.members ++ [x] }).map
      (·.base) = gs.map (·.base) := map_base_modify fun _ => rfl
  -- the other groups have another base, so the new resource leaves them alone
  have hother : ∀ g ∈ gs, g.base ≠ gs[idx].base →
      g.members = (P ++ [x]).filter (r.baseOf · == g.base) := by
    intro g hg hne
    have hx : (r.baseOf x == g.base) = false :=
      beq_eq_false_iff_ne.mpr fun hxg => hne (hxg.symm.trans hbase.symm)
    rw [List.filter_append, ← h.members_eq g hg, List.filter_singleton, hx, cond_false,
      List.append_nil]
  -- the description of the group has room for the new resource
  obtain ⟨db, hdb, hholds, hfills, hmembers⟩ := h.desc _ (List.getElem_mem hlt)
  have hcov : gs[idx].desc.Covers d :=
    hholds.1.trans (covers_of_fits hfits (hbase ▸ hdb) hd)
  refine ⟨hbases ▸ h.bases_nodup, fun g hg => ?_, fun y hy => ?_, fun g hg => ?_,
    fun g hg => ?_, fun g hg => ?_⟩
  · rcases mem_modify hlt h.bases_nodup hg with rfl | ⟨hg, hne⟩
    · rw [List.filter_append, ← h.members_eq _ (List.getElem_mem hlt), List.filter_singleton]
      simp [hbase]
    · exact hother g hg hne
  · have hmem : r.baseOf y ∈ gs.map (·.base) := by
      rcases List.mem_append.mp hy with hy | hy
      · obtain ⟨g, hg, hgb⟩ := h.covers y hy
        exact List.mem_map.mpr ⟨g, hg, hgb⟩
      · rw [List.mem_singleton.mp hy, ← hbase]
        exact List.mem_map_of_mem (List.getElem_mem hlt)
    rw [← hbases] at hmem
    exact List.mem_map.mp hmem
  · rcases mem_modify hlt h.bases_nodup hg with rfl | ⟨hg, -⟩
    · simp
    · exact h.ne_nil g hg
  · rcases mem_modify hlt h.bases_nodup hg with rfl | ⟨hg, -⟩
    · exact h.dedicated_eq gs[idx] (List.getElem_mem hlt)
    · exact h.dedicated_eq g hg
  · rcases mem_modify hlt h.bases_nodup hg with rfl | ⟨hg, -⟩
    · refine ⟨db, hdb, hholds.merge_left hcov.compatible, hfills.merge_of_covers hcov,
        fun y hy => ?_⟩
      rcases List.mem_append.mp hy with hy | hy
      · obtain ⟨dy, hdy, hy⟩ := hmembers y hy
        exact ⟨dy, hdy, hy.merge_left hcov.compatible⟩
      · rw [List.mem_singleton.mp hy]
        exact ⟨d, hd, holds_merge_of_covers hcov⟩
    · exact h.desc g hg

/-- A resource whose base has no group yet starts one. -/
theorem GroupsInv.add (h : GroupsInv r presentBase P gs) (hfits : r.Fits (r.baseOf x) x)
    (hidx : gs.findIdx? (·.base == r.baseOf x) = none) (hd : describe r x = .ok d)
    (hdb : describe r (r.baseOf x) = .ok db) :
    GroupsInv r presentBase (P ++ [x])
      (gs ++ [⟨r.baseOf x, [x], db.merge d,
        r.lifetime (r.baseOf x) == .persistent || some (r.baseOf x) == presentBase⟩]) := by
  have hnew : ∀ g ∈ gs, g.base ≠ r.baseOf x := by
    intro g hg hgb
    have hne := List.findIdx?_eq_none_iff.mp hidx g hg
    rw [hgb, beq_self_eq_true] at hne
    cases hne
  -- nothing read before has the base of the new group
  have hfresh : ∀ y ∈ P, r.baseOf y ≠ r.baseOf x := by
    intro y hy hyx
    obtain ⟨g, hg, hgb⟩ := h.covers y hy
    exact hnew g hg (hgb.trans hyx)
  have hcov := covers_of_fits hfits hdb hd
  refine ⟨?_, fun g hg => ?_, fun y hy => ?_, fun g hg => ?_, fun g hg => ?_, fun g hg => ?_⟩
  · rw [List.map_append, List.nodup_append]
    refine ⟨h.bases_nodup, List.nodup_singleton _, fun a ha b hb => ?_⟩
    rw [List.mem_singleton.mp hb]
    obtain ⟨g, hg, rfl⟩ := List.mem_map.mp ha
    exact hnew g hg
  · rcases List.mem_append.mp hg with hg | hg
    · rw [List.filter_append, ← h.members_eq g hg, List.filter_singleton,
        beq_eq_false_iff_ne.mpr (Ne.symm (hnew g hg)), cond_false, List.append_nil]
    · have hnone : P.filter (r.baseOf · == r.baseOf x) = [] :=
        List.filter_eq_nil_iff.mpr fun y hy => by
          rw [beq_iff_eq]
          exact hfresh y hy
      rw [List.mem_singleton.mp hg, List.filter_append, List.filter_singleton, hnone,
        beq_self_eq_true, cond_true, List.nil_append]
  · rcases List.mem_append.mp hy with hy | hy
    · obtain ⟨g, hg, hgb⟩ := h.covers y hy
      exact ⟨g, List.mem_append_left _ hg, hgb⟩
    · exact ⟨_, List.mem_append_right _ (List.mem_singleton_self _), by rw [List.mem_singleton.mp hy]⟩
  · rcases List.mem_append.mp hg with hg | hg
    · exact h.ne_nil g hg
    · simp [List.mem_singleton.mp hg]
  · rcases List.mem_append.mp hg with hg | hg
    · exact h.dedicated_eq g hg
    · rw [List.mem_singleton.mp hg]
  · rcases List.mem_append.mp hg with hg | hg
    · exact h.desc g hg
    · rw [List.mem_singleton.mp hg]
      refine ⟨db, hdb, Holds.merge_left ⟨covers_refl db, UInt32.or_self⟩ hcov.compatible,
        (fills_refl db).merge_of_covers hcov, fun y hy => ?_⟩
      rw [List.mem_singleton.mp hy]
      exact ⟨d, hd, holds_merge_of_covers hcov⟩

/-- What gathering the chains returns: one group per chain, with distinct bases; every
registered resource in the group of its base; each group's members its whole chain in chain
order; a group of its own exactly for persistent chains and the present image's; and memory
that holds every member and has the size of the largest. -/
structure GroupLaws (r : Registry) (presentBase : Option Res) (groups : List Group) : Prop where
  bases_nodup : (groups.map (·.base)).Nodup
  chain : ∀ g ∈ groups, IsChain r g.base g.members
  covers : ∀ x, r.contains x = true → ∃ g ∈ groups, g.base = r.baseOf x
  dedicated_eq : ∀ g ∈ groups,
    g.dedicated = (r.lifetime g.base == .persistent || some g.base == presentBase)
  desc : ∀ g ∈ groups, DescLaws r g.members g.desc

/-- **Gathering the chains of a ranked, well-formed and consistent registry returns each chain
once, whole and in chain order, with memory that holds all its members.** -/
theorem collectGroups_laws (hr : r.Ranked) (hwf : r.Wf) (hc : r.Consistent)
    {groups : List Group} (h : collectGroups r presentBase = .ok groups) :
    GroupLaws r presentBase groups := by
  unfold collectGroups at h
  obtain ⟨gs, hgs, hmap⟩ := Except.exists_of_bind_eq_ok h
  cases hmap
  have hinv : GroupsInv r presentBase r.resources gs := by
    refine Except.foldlM_prefix hgs groupsInv_nil fun pre x acc b hp hacc hb => ?_
    have hfits := hc.fits x (Registry.mem_resources.mp (hp.subset (by simp)))
    obtain ⟨d, hd, hb⟩ := Except.exists_of_bind_eq_ok hb
    split at hb
    · rename_i idx hidx
      cases hb
      exact hacc.join hfits hidx hd
    · rename_i hidx
      obtain ⟨db, hdb, hb⟩ := Except.exists_of_bind_eq_ok hb
      cases hb
      exact hacc.add hfits hidx hd hdb
  -- the members of a group are the registered resources with its base
  have hmem : ∀ g ∈ gs, ∀ x, x ∈ g.members ↔ r.contains x = true ∧ r.baseOf x = g.base := by
    intro g hg x
    rw [hinv.members_eq g hg, List.mem_filter, Registry.mem_resources, beq_iff_eq]
  -- the base of a group is registered and in its own chain
  have hbase : ∀ g ∈ gs, g.base ∈ g.members := by
    intro g hg
    obtain ⟨y, hy⟩ := List.exists_mem_of_ne_nil _ (hinv.ne_nil g hg)
    obtain ⟨hyc, hyb⟩ := (hmem g hg y).mp hy
    rw [hmem g hg, ← hyb]
    exact ⟨hwf.contains_baseOf hyc, hr.baseOf_baseOf y⟩
  refine ⟨?_, fun g' hg' => ?_, fun x hx => ?_, fun g' hg' => ?_, fun g' hg' => ?_⟩
  · simpa [Function.comp_def] using hinv.bases_nodup
  · obtain ⟨g, hg, rfl⟩ := List.mem_map.mp hg'
    exact isChain_mergeSort hr (hmem g hg) (hinv.members_eq g hg ▸ r.nodup_resources.filter _)
      (hbase g hg)
  · obtain ⟨g, hg, hgb⟩ := hinv.covers x (Registry.mem_resources.mpr hx)
    exact ⟨_, List.mem_map_of_mem hg, hgb⟩
  · obtain ⟨g, hg, rfl⟩ := List.mem_map.mp hg'
    exact hinv.dedicated_eq g hg
  · obtain ⟨g, hg, rfl⟩ := List.mem_map.mp hg'
    obtain ⟨db, hdb, -, hfills, hmembers⟩ := hinv.desc g hg
    exact ⟨fun x hx => hmembers x (List.mem_mergeSort.mp hx),
      ⟨g.base, List.mem_mergeSort.mpr (hbase g hg), db, hdb, hfills⟩⟩

end MemoryPlan

end RenderGraph
