import RenderGraph.Proofs.Layout
/-!
# The first state of a bucket

A bucket's memory starts in the state of the first access a live pass makes to any of its
members, in schedule order and, within a pass, in the order `passStates` lists them: explicit
reads, writes, then bindless reads (`bake_bucket_initial_states`). A bucket no live pass touches
keeps the default state.

`MemoryPlan.build` does not look for that access directly. It records, per chain base, the first
state of an access to the chain (`find?_initial_collect`), and gives a bucket the state recorded
for the base of the member whose range starts first (`initialOf`). The two agree because a
bucket holds whole chains, the chains that share a bucket are live at disjoint positions, and
the present image, whose range is stretched to the end of the schedule, has a bucket of its own.
-/

namespace RenderGraph

open Logged

namespace MemoryPlan

variable {r : Registry} {s : Schedule} {sync : SyncPlan} {o : BakeOptions}

/-! ### Accesses and the resources they touch -/

section Accesses

variable {p : PassInfo} {e : Res × InitialState}

theorem mem_passStates_touched (h : e ∈ passStates p) : e.1 ∈ touched p := by
  simp only [passStates, List.mem_append, List.mem_map] at h
  simp only [touched, List.mem_append, List.mem_flatMap, List.mem_cons]
  rcases h with ⟨i, hi, rfl⟩ | ⟨res, hres, rfl⟩
  · exact .inl ⟨i, hi, .inl rfl⟩
  · exact .inr hres

theorem contains_of_mem_passStates (hp : p.Consistent r) (h : e ∈ passStates p) :
    r.contains e.1 = true := by
  simp only [passStates, List.mem_append, List.mem_map] at h
  rcases h with ⟨i, hi, rfl⟩ | ⟨res, hres, rfl⟩
  · exact hp.contains i hi
  · exact hp.bindlessReads res hres

/-- Every resource a pass touches shares its chain with one it accesses: a write's output is in
the chain of the written resource. -/
theorem exists_passStates_of_touched (hp : p.Consistent r) {x : Res} (h : x ∈ touched p) :
    ∃ e ∈ passStates p, r.baseOf e.1 = r.baseOf x := by
  simp only [touched, List.mem_append, List.mem_flatMap, List.mem_cons] at h
  rcases h with ⟨i, hi, rfl | hout⟩ | hbl
  · exact ⟨_, List.mem_append_left _ (List.mem_map_of_mem hi), rfl⟩
  · refine ⟨_, List.mem_append_left _ (List.mem_map_of_mem hi), ?_⟩
    rcases List.mem_append.mp hi with hread | hwrite
    · rw [hp.read_output i hread] at hout
      cases hout
    · obtain ⟨out, hout', -, -, -, hbase⟩ := hp.write_output i hwrite
      rw [hout', Option.toList_some, List.mem_singleton] at hout
      rw [hout, hbase]
  · exact ⟨_, List.mem_append_right _ (List.mem_map_of_mem hbl), rfl⟩

end Accesses

theorem mem_statesOf {pass : Nat} {e : Res × InitialState} :
    e ∈ ((r.passes[pass]?).map passStates).getD [] ↔
      ∃ p, r.passes[pass]? = some p ∧ e ∈ passStates p := by
  cases r.passes[pass]? <;> simp

theorem contains_of_mem_statesOf (hc : r.Consistent) {pass : Nat} {e : Res × InitialState}
    (he : e ∈ ((r.passes[pass]?).map passStates).getD []) : r.contains e.1 = true := by
  obtain ⟨p, hp, he⟩ := mem_statesOf.mp he
  exact contains_of_mem_passStates (hc.passes p (Array.mem_of_getElem? hp)) he

/-- An access of the pass at a position touches its resource there. -/
theorem touchedAt_of_mem_statesOf {order : List Nat} {pos pass : Nat} {e : Res × InitialState}
    (hpass : order[pos]? = some pass) (he : e ∈ ((r.passes[pass]?).map passStates).getD []) :
    TouchedAt r order e.1 pos := by
  obtain ⟨p, hp, he⟩ := mem_statesOf.mp he
  exact ⟨pass, hpass, mem_touchedBy.mpr ⟨p, hp, mem_passStates_touched he⟩⟩

theorem exists_mem_scheduleStates {order : List Nat} {e : Res × InitialState}
    (he : e ∈ scheduleStates r order) :
    ∃ pos pass : Nat, order[pos]? = some pass ∧
      e ∈ ((r.passes[pass]?).map passStates).getD [] := by
  obtain ⟨pass, hpass, he⟩ := List.mem_flatMap.mp he
  obtain ⟨pos, hpos, rfl⟩ := List.getElem_of_mem hpass
  exact ⟨pos, _, List.getElem?_eq_getElem hpos, he⟩

/-- A resource a live pass touches has a range. -/
theorem isSome_liveness_of_touchedAt {x : Res} {pos : Nat} (h : TouchedAt r s.order x pos) :
    (find? (Usage.collect r s).liveness x).isSome := by
  obtain ⟨pass, hpass, hx⟩ := h
  obtain ⟨p, hp, hx⟩ := mem_touchedBy.mp hx
  exact isSome_liveness_collect (List.mem_of_getElem? hpass) hp hx

/-! ### First matches -/

/-- Two tests find the same first entry of a flattened list when neither passes an entry of the
blocks before block `x`, they agree on `x`, and some entry of `x` passes. -/
theorem find?_flatMap_block {α β : Type} {pre post : List β} {x : β} {F : β → List α}
    {P Q : α → Bool} (hpre : ∀ y ∈ pre, ∀ a ∈ F y, P a = false ∧ Q a = false)
    (hx : ∀ a ∈ F x, P a = Q a) (hex : ∃ a ∈ F x, P a = true) :
    ((pre ++ x :: post).flatMap F).find? P = ((pre ++ x :: post).flatMap F).find? Q := by
  have hnone : ∀ R : α → Bool, (∀ y ∈ pre, ∀ a ∈ F y, R a = false) →
      (pre.flatMap F).find? R = none := by
    intro R hR
    refine List.find?_eq_none.mpr fun a ha => ?_
    obtain ⟨y, hy, ha⟩ := List.mem_flatMap.mp ha
    simp [hR y hy a ha]
  obtain ⟨a, ha, hPa⟩ := hex
  obtain ⟨b, hb⟩ : ∃ b, (F x).find? Q = some b :=
    Option.isSome_iff_exists.mp (List.find?_isSome.mpr ⟨a, ha, hx a ha ▸ hPa⟩)
  rw [List.flatMap_append, List.flatMap_cons, List.find?_append, List.find?_append,
    List.find?_append, List.find?_append, hnone P fun y hy a ha => (hpre y hy a ha).1,
    hnone Q fun y hy a ha => (hpre y hy a ha).2, List.find?_congr hx, hb]
  rfl

/-- Two tests find the same first access of a schedule when neither passes an access made before
position `k`, they agree on the accesses made at `k`, and one of those passes. -/
theorem find?_scheduleStates_block {order : List Nat} {k : Nat} {P Q : Res × InitialState → Bool}
    (hpre : ∀ j pass e, j < k → order[j]? = some pass →
      e ∈ ((r.passes[pass]?).map passStates).getD [] → P e = false ∧ Q e = false)
    (hat : ∀ pass e, order[k]? = some pass →
      e ∈ ((r.passes[pass]?).map passStates).getD [] → P e = Q e)
    (hex : ∃ pass e, order[k]? = some pass ∧ e ∈ ((r.passes[pass]?).map passStates).getD [] ∧
      P e = true) :
    (scheduleStates r order).find? P = (scheduleStates r order).find? Q := by
  obtain ⟨pass, e, hpass, he, hPe⟩ := hex
  obtain ⟨hk, rfl⟩ := List.getElem?_eq_some_iff.mp hpass
  have hsplit : order = order.take k ++ order[k] :: order.drop (k + 1) := by
    rw [← List.drop_eq_getElem_cons hk, List.take_append_drop]
  unfold scheduleStates
  rw [hsplit]
  refine find?_flatMap_block (fun y hy a ha => ?_) (hat _ · hpass) ⟨e, he, hPe⟩
  obtain ⟨j, hj, rfl⟩ := List.getElem_of_mem hy
  rw [List.length_take] at hj
  exact hpre j _ a (by omega) (by rw [List.getElem_take]; exact List.getElem?_eq_getElem _) ha

/-- A fold that keeps one of the entries seen and never one that starts later ends with an
entry that starts first, or with nothing when there is no entry. -/
theorem foldl_earliest {F : Option (Nat × Res) → Nat × Res → Option (Nat × Res)}
    (hF : ∀ acc x, ∃ z, F acc x = some z ∧ (z = x ∨ acc = some z) ∧ z.1 ≤ x.1 ∧
      ∀ y, acc = some y → z.1 ≤ y.1)
    {L : List (Nat × Res)} {init e : Option (Nat × Res)} (h : L.foldl F init = e) :
    (e = none → init = none ∧ L = []) ∧
      ∀ z, e = some z → (init = some z ∨ z ∈ L) ∧ (∀ y, init = some y → z.1 ≤ y.1) ∧
        ∀ y ∈ L, z.1 ≤ y.1 := by
  induction L generalizing init with
  | nil =>
    rw [List.foldl_nil] at h
    subst h
    refine ⟨fun h => ⟨h, rfl⟩, fun z hz => ⟨.inl hz, fun y hy => ?_, fun y hy => by cases hy⟩⟩
    rw [hz, Option.some.injEq] at hy
    rw [hy]
  | cons x L ih =>
    rw [List.foldl_cons] at h
    obtain ⟨z0, hz0, hkeep, hx, hinit⟩ := hF init x
    rw [hz0] at h
    obtain ⟨hnone, hsome⟩ := ih h
    refine ⟨fun he => absurd (hnone he).1 (Option.some_ne_none z0), fun z hz => ?_⟩
    obtain ⟨hmem, hle0, hle⟩ := hsome z hz
    have hz0le : z.1 ≤ z0.1 := hle0 z0 rfl
    refine ⟨?_, fun y hy => le_trans hz0le (hinit y hy), fun y hy => ?_⟩
    · rcases hmem with hmem | hmem
      · obtain rfl := Option.some.inj hmem
        rcases hkeep with rfl | hkeep
        · exact .inr List.mem_cons_self
        · exact .inl hkeep
      · exact .inr (List.mem_cons_of_mem x hmem)
    · rcases List.mem_cons.mp hy with rfl | hy
      · exact le_trans hz0le hx
      · exact hle y hy

/-- A bucket takes the first state recorded for the base of a member whose range starts first,
and keeps its own state when no member has a range. -/
theorem initialOf_spec (u : Usage) (b : Bucket) :
    ((∀ m ∈ b.members, m.liveness = none) ∧ initialOf r u b = b.initial) ∨
    ∃ m ∈ b.members, ∃ l, m.liveness = some l ∧
      (∀ m' ∈ b.members, ∀ l', m'.liveness = some l' → l.first ≤ l'.first) ∧
      initialOf r u b = (find? u.initial (r.baseOf m.resource)).getD b.initial := by
  unfold initialOf
  dsimp only
  generalize hE : List.foldl _ none _ = earliest
  -- the fold keeps the earlier entry, ties broken by resource
  obtain ⟨hnone, hsome⟩ := foldl_earliest (by
    intro acc x
    cases acc with
    | none => exact ⟨x, rfl, .inl rfl, Nat.le_refl _, fun y hy => by cases hy⟩
    | some y =>
      dsimp only
      split
      · rename_i hxy
        simp only [Bool.or_eq_true, decide_eq_true_eq, Bool.and_eq_true, beq_iff_eq] at hxy
        refine ⟨x, rfl, .inl rfl, Nat.le_refl _, fun y' hy' => ?_⟩
        obtain rfl := Option.some.inj hy'
        omega
      · rename_i hxy
        simp only [Bool.or_eq_true, decide_eq_true_eq, Bool.and_eq_true, beq_iff_eq,
          not_or] at hxy
        exact ⟨y, rfl, .inr rfl, by omega, fun y' hy' => by rw [Option.some.inj hy']⟩) hE
  cases earliest with
  | none =>
    refine .inl ⟨fun m hm => ?_, rfl⟩
    have hnil := (hnone rfl).2
    cases hl : m.liveness with
    | none => rfl
    | some l =>
      have : (l.first, m.resource) ∈ b.members.filterMap fun m =>
          m.liveness.map fun l => (l.first, m.resource) :=
        List.mem_filterMap.mpr ⟨m, hm, by rw [hl]; rfl⟩
      rw [hnil] at this
      cases this
  | some z =>
    obtain ⟨hmem, -, hle⟩ := hsome z rfl
    obtain ⟨m, hm, hz⟩ := List.mem_filterMap.mp (hmem.resolve_left (Option.some_ne_none z).symm)
    obtain ⟨l, hl, rfl⟩ := Option.map_eq_some_iff.mp hz
    refine .inr ⟨m, hm, l, hl, fun m' hm' l' hl' => ?_, rfl⟩
    exact hle (l'.first, m'.resource) (List.mem_filterMap.mpr ⟨m', hm', by rw [hl']; rfl⟩)

/-! ### Buckets of whole chains -/

/-- A bucket whose members are whole chains of the registry, where a chain that needs memory of
its own is alone. -/
def WholeChains (r : Registry) (presentBase : Option Res) (b : Bucket) : Prop :=
  ∃ cs : List Group, b.resources = cs.flatMap (·.members) ∧ ∀ c ∈ cs,
    IsChain r c.base c.members ∧
    c.dedicated = (r.lifetime c.base == .persistent || some c.base == presentBase) ∧
    (c.dedicated = true → cs = [c])

section Whole

variable {presentBase : Option Res} {b : Bucket}

theorem WholeChains.contains (h : WholeChains r presentBase b) {x : Res}
    (hx : x ∈ b.resources) : r.contains x = true := by
  obtain ⟨cs, hres, hcs⟩ := h
  rw [hres, List.mem_flatMap] at hx
  obtain ⟨c, hc, hx⟩ := hx
  exact (((hcs c hc).1.mem_iff x).mp hx).1

/-- A registered resource in the chain of a member is a member. -/
theorem WholeChains.mem_of_baseOf (h : WholeChains r presentBase b) {x y : Res}
    (hx : x ∈ b.resources) (hy : r.contains y = true) (hxy : r.baseOf y = r.baseOf x) :
    y ∈ b.resources := by
  obtain ⟨cs, hres, hcs⟩ := h
  rw [hres, List.mem_flatMap] at hx ⊢
  obtain ⟨c, hc, hx⟩ := hx
  have hxc := (((hcs c hc).1.mem_iff x).mp hx).2
  exact ⟨c, hc, ((hcs c hc).1.mem_iff y).mpr ⟨hy, hxy.trans hxc⟩⟩

/-- A bucket of whole chains holds one chain, or no member of the present image's chain. -/
theorem WholeChains.one_chain_or_not_present (h : WholeChains r presentBase b) :
    (∀ x ∈ b.resources, ∀ y ∈ b.resources, r.baseOf x = r.baseOf y) ∨
      ∀ x ∈ b.resources, presentBase ≠ some (r.baseOf x) := by
  obtain ⟨cs, hres, hcs⟩ := h
  by_cases hded : ∃ c ∈ cs, c.dedicated = true
  · -- a chain with memory of its own is the only one
    obtain ⟨c, hc, hcd⟩ := hded
    have hone := (hcs c hc).2.2 hcd
    refine .inl fun x hx y hy => ?_
    rw [hres, hone, List.flatMap_singleton] at hx hy
    rw [(((hcs c hc).1.mem_iff x).mp hx).2, (((hcs c hc).1.mem_iff y).mp hy).2]
  · simp only [not_exists, not_and, Bool.not_eq_true] at hded
    refine .inr fun x hx hpb => ?_
    rw [hres, List.mem_flatMap] at hx
    obtain ⟨c, hc, hx⟩ := hx
    have hbase := (((hcs c hc).1.mem_iff x).mp hx).2
    have hcd := (hcs c hc).2.1
    rw [hded c hc, ← hbase, ← hpb] at hcd
    simp at hcd

end Whole

/-! ### The first access to a bucket -/

/-- In a bucket without the present image, whose members carry their ranges and whose chains are
live at disjoint positions, the member whose range starts first is touched there, no member is
touched earlier, and there only members of its chain are touched. -/
theorem earliest_member_start {b : Bucket}
    (hnot : ∀ x ∈ b.resources,
      r.presentImage.map (fun i => r.baseOf (.image i)) ≠ some (r.baseOf x))
    (hlive : ∀ m ∈ b.members, m.liveness = find? (Usage.collect r s).liveness m.resource)
    (hsep : ∀ x ∈ b.members, ∀ y ∈ b.members, r.baseOf x.resource ≠ r.baseOf y.resource →
      ∀ lx ly, x.liveness = some lx → y.liveness = some ly →
        lx.last < ly.first ∨ ly.last < lx.first)
    {m : Member} (hm : m ∈ b.members) {l : Liveness} (hl : m.liveness = some l)
    (hmin : ∀ m' ∈ b.members, ∀ l', m'.liveness = some l' → l.first ≤ l'.first) :
    TouchedAt r s.order m.resource l.first ∧
      (∀ z ∈ b.resources, ∀ pos, TouchedAt r s.order z pos → l.first ≤ pos) ∧
      ∀ z ∈ b.resources, TouchedAt r s.order z l.first → r.baseOf z = r.baseOf m.resource := by
  -- without the present image, ranges run from the first to the last position touched
  have hspec : ∀ x ∈ b.members, ∀ lx, x.liveness = some lx →
      IsFirst (TouchedAt r s.order x.resource) lx.first ∧
        IsLast (TouchedAt r s.order x.resource) lx.last := by
    intro x hx lx hlx
    rw [hlive x hx] at hlx
    exact (find?_liveness_collect (ne_present_of_base (hnot _ (List.mem_map_of_mem hx)))).2 lx hlx
  have hrange : ∀ mz ∈ b.members, ∀ pos, TouchedAt r s.order mz.resource pos →
      ∃ lz, mz.liveness = some lz := by
    intro mz hmz pos hpos
    exact Option.isSome_iff_exists.mp (hlive mz hmz ▸ isSome_liveness_of_touchedAt hpos)
  refine ⟨(hspec m hm l hl).1.1, fun z hz pos hpos => ?_, fun z hz hpos => ?_⟩
  · obtain ⟨mz, hmz, rfl⟩ := List.mem_map.mp hz
    obtain ⟨lz, hlz⟩ := hrange mz hmz pos hpos
    exact le_trans (hmin mz hmz lz hlz) ((hspec mz hmz lz hlz).1.2 pos hpos)
  · obtain ⟨mz, hmz, rfl⟩ := List.mem_map.mp hz
    by_contra hne
    obtain ⟨lz, hlz⟩ := hrange mz hmz _ hpos
    have hfz := (hspec mz hmz lz hlz).1.2 _ hpos
    have hlz' := (hspec mz hmz lz hlz).2.2 _ hpos
    have hl' := (hspec m hm l hl).2.2 _ (hspec m hm l hl).1.1
    rcases hsep mz hmz m hm hne lz l hlz hl with h | h <;> omega

/-- A bucket of whole chains, whose members carry their ranges and whose chains are live at
disjoint positions, takes the state of the first access to one of its members, or keeps the
default one when there is none. -/
theorem initialOf_eq_first_access (hc : r.Consistent) {b : Bucket}
    (hw : WholeChains r (r.presentImage.map fun i => r.baseOf (.image i)) b)
    (hlive : ∀ m ∈ b.members, m.liveness = find? (Usage.collect r s).liveness m.resource)
    (hsep : ∀ x ∈ b.members, ∀ y ∈ b.members, r.baseOf x.resource ≠ r.baseOf y.resource →
      ∀ lx ly, x.liveness = some lx → y.liveness = some ly →
        lx.last < ly.first ∨ ly.last < lx.first)
    (hinit : b.initial = {}) :
    initialOf r (Usage.collect r s) b =
      (((scheduleStates r s.order).find? fun e => e.1 ∈ b.resources).map (·.2)).getD {} := by
  rcases initialOf_spec (Usage.collect r s) b with ⟨hnone, heq⟩ | ⟨m, hm, l, hl, hmin, heq⟩
  · -- no member has a range, so no access reaches the bucket
    rw [heq, hinit, List.find?_eq_none.mpr fun e he hin => ?_]
    · rfl
    obtain ⟨pos, pass, hpass, he⟩ := exists_mem_scheduleStates he
    obtain ⟨m', hm', hres⟩ := List.mem_map.mp (of_decide_eq_true hin)
    have hsome := isSome_liveness_of_touchedAt (touchedAt_of_mem_statesOf hpass he)
    rw [← hres, ← hlive m' hm', hnone m' hm'] at hsome
    cases hsome
  rw [heq, hinit, find?_initial_collect]
  suffices hfind : ((scheduleStates r s.order).find? fun e => r.baseOf e.1 == r.baseOf m.resource) =
      (scheduleStates r s.order).find? fun e => e.1 ∈ b.resources by
    rw [hfind]
  symm
  -- an access to the chosen member's chain is an access to the bucket
  have hchain : ∀ pass e, e ∈ ((r.passes[pass]?).map passStates).getD [] →
      r.baseOf e.1 = r.baseOf m.resource → e.1 ∈ b.resources :=
    fun _ e he hbase => hw.mem_of_baseOf (List.mem_map_of_mem hm) (contains_of_mem_statesOf hc he)
      hbase
  rcases hw.one_chain_or_not_present with hone | hnot
  · refine List.find?_congr fun e he => ?_
    obtain ⟨pos, pass, hpass, he⟩ := exists_mem_scheduleStates he
    rw [Bool.eq_iff_iff, decide_eq_true_iff, beq_iff_eq]
    exact ⟨fun hin => hone _ hin _ (List.mem_map_of_mem hm), hchain pass e he⟩
  obtain ⟨hfirst, hbefore, hat⟩ := earliest_member_start hnot hlive hsep hm hl hmin
  obtain ⟨pass, hpass, hxpass⟩ := hfirst
  obtain ⟨p, hp, hx⟩ := mem_touchedBy.mp hxpass
  obtain ⟨e, he, hbase⟩ := exists_passStates_of_touched (hc.passes p (Array.mem_of_getElem? hp)) hx
  have he' := mem_statesOf.mpr ⟨p, hp, he⟩
  refine find?_scheduleStates_block (fun j pass' e' hj hpass' he' => ?_)
    (fun pass' e' hpass' he' => ?_) ⟨pass, e, hpass, he', decide_eq_true (hchain pass e he' hbase)⟩
  · have hnot' : e'.1 ∉ b.resources :=
      fun hin => absurd (hbefore _ hin j (touchedAt_of_mem_statesOf hpass' he')) (by omega)
    exact ⟨decide_eq_false hnot', beq_eq_false_iff_ne.mpr fun hb => hnot' (hchain pass' e' he' hb)⟩
  · rw [Bool.eq_iff_iff, decide_eq_true_iff, beq_iff_eq]
    exact ⟨fun hin => hat _ hin (touchedAt_of_mem_statesOf hpass' he'), hchain pass' e' he'⟩

/-- Every bucket of a successful memory plan starts in the state of the first access to one of
its members, or in the default state when no live pass touches it. -/
theorem build_initial_states (hr : r.Ranked) (hwf : r.Wf) (hc : r.Consistent) {m : MemoryPlan}
    (h : Returns (build r s sync o) m) : ∀ bk ∈ m.buckets, bk.initial =
      (((scheduleStates r s.order).find? fun e => e.1 ∈ bk.resources).map (·.2)).getD {} := by
  obtain ⟨groups, hlaws, B, hB, hbuckets, -⟩ := build_placed hr hwf hc h
  have hok := (build_bucketsOk h).2
  intro bk hbk
  have hokb := hok bk hbk
  rw [hbuckets] at hbk
  obtain ⟨b0, hb0, rfl⟩ := Array.mem_map.mp hbk
  -- the bucket holds whole chains of the registry
  obtain ⟨cs, -, hmem, -, hres, -, hded⟩ := hB.chains b0 hb0
  have hw : WholeChains r (r.presentImage.map fun i => r.baseOf (.image i)) b0 := by
    refine ⟨cs, hres, fun c hc' => ?_⟩
    have hcg := (List.mem_filter.mp ((List.mergeSort_perm _ groupLe).subset (hmem c hc'))).1
    exact ⟨hlaws.chain c hcg, hlaws.dedicated_eq c hcg, fun hd => (hded c hc' hd).1⟩
  refine initialOf_eq_first_access hc hw hokb.liveness_eq
    (fun x hx y hy hne lx ly hlx hly => ?_) (hB.initial b0 hb0)
  rcases hokb.separated x hx y hy hne with hxy | hyx
  · exact independent_of_ordered hxy hlx hly
  · exact (independent_of_ordered hyx hly hlx).symm

end MemoryPlan

open MemoryPlan

/-- In every successful bake a bucket's memory starts in the state of the first access a live
pass makes to one of its members, in schedule order and within a pass reads, then writes, then
bindless reads; a bucket no live pass touches keeps the default state. -/
theorem bake_bucket_initial_states {bytes : Bytes} {o : BakeOptions} {b : Bake}
    (h : Returns (bake bytes o) b) : ∀ bk ∈ b.memory.buckets, bk.initial =
      (((scheduleStates b.registry b.schedule.order).find? fun e => e.1 ∈ bk.resources).map
        (·.2)).getD {} := by
  obtain ⟨hreg, -, -, -, hmem, -⟩ := bake_returns h
  exact build_initial_states (Registry.ingest_ranked hreg) (Registry.ingest_wf hreg)
    (Registry.consistent_of_ingest hreg).1 hmem

theorem twoReads_initialStates : ∃ b, Returns (bake twoReadsStream {}) b ∧
    b.memory.buckets.map (·.initial) = #[⟨1, 1, 0⟩] ∧
    ∀ bk ∈ b.memory.buckets, bk.initial =
      (((scheduleStates b.registry b.schedule.order).find? fun e => e.1 ∈ bk.resources).map
        (·.2)).getD {} := by
  obtain ⟨b, hb, -, -, -, hinit⟩ := twoReads_bake
  exact ⟨b, hb, hinit, bake_bucket_initial_states hb⟩

end RenderGraph
