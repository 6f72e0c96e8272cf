import Mathlib
import RenderGraph.Registry.Forest
/-!
# Alias forests: trees, look-ups, links and flattening

The parents of a forest form trees (`Forest.Wf`): from every id, climbing parents reaches an id
that is its own parent, or has none, and the parent of a registered id is registered. Climbing is
iterating one step up (`Forest.up`, `climb_eq_iterate`); in a tree the path up visits distinct
ids, so it reaches the root within as many steps as the forest has ids
(`exists_fixed_le_size`), and `Forest.root`, which climbs that far, finds it.

Every change the operations make to the parents is one of two: re-pointing an id at the root
of its tree (what path compression does, `Wf.repoint`), or hanging a root under the root of
another tree (what a link does, `Wf.hang`). Both are instances of one lemma about re-pointing a
single id at a fixed point of the climb (`Wf.set`). A look-up therefore keeps every root
(`Wf.find`), a link relabels the roots of one tree, and flattening, a look-up of every id, keeps
the roots and leaves each registered id pointing at its root (`Wf.flatten`).

The forests ingestion builds are those that registering fresh ids, look-ups, links and
flattening make of an empty forest (`Forest.Reachable`). Each of them is a forest of trees with
consistent link orders (`Reachable.wf`, `Reachable.ordered`), and obeys every law of the alias
chains (`Reachable.laws`).
-/

namespace RenderGraph

namespace Forest

variable {f f' g : Forest} {x y c t : Nat}

/-! ### Climbing -/

/-- One step up: the parent of a registered id; an id without a parent stays where it is. -/
def up (f : Forest) (id : Nat) : Nat := (f.parent[id]?).join.getD id

theorem up_of_parent {p : Nat} (h : (f.parent[x]?).join = some p) : f.up x = p := by
  rw [up, h, Option.getD_some]

theorem up_of_not_registered (h : f.isRegistered x = false) : f.up x = x := by
  unfold up
  unfold isRegistered at h
  rw [Option.isSome_eq_false_iff.mp h |> Option.isNone_iff_eq_none.mp, Option.getD_none]

/-- An id past the end of the parents has none, so it stays where it is. -/
theorem up_of_size_le (h : f.parent.size ≤ x) : f.up x = x := by
  unfold up
  rw [Array.getElem?_eq_none h]
  rfl

theorem lt_size_of_isRegistered (h : f.isRegistered x = true) : x < f.parent.size := by
  by_contra hx
  unfold isRegistered at h
  rw [Array.getElem?_eq_none (Nat.le_of_not_lt hx)] at h
  cases h

theorem isRoot_iff : f.isRoot x = true ↔ (f.parent[x]?).join = some x := by
  simp [isRoot]

/-- A root is a registered id that stays where it is. -/
theorem isRoot_iff_up : f.isRoot x = true ↔ f.isRegistered x = true ∧ f.up x = x := by
  rw [isRoot_iff]
  constructor
  · intro h
    exact ⟨by simp [isRegistered, h], up_of_parent h⟩
  · rintro ⟨hreg, hup⟩
    obtain ⟨p, hp⟩ := Option.isSome_iff_exists.mp hreg
    rw [hp, ← up_of_parent hp, hup]

/-- Climbing `n` steps is taking `n` steps up: once at an id that stays, every further step
stays there. -/
theorem climb_eq_iterate (n x : Nat) : f.climb n x = f.up^[n] x := by
  induction n generalizing x with
  | zero => rfl
  | succ n ih =>
    rw [Function.iterate_succ_apply]
    unfold climb
    cases hp : (f.parent[x]?).join with
    | none =>
      have hx : f.up x = x := by rw [up, hp, Option.getD_none]
      dsimp only
      rw [hx, Function.iterate_fixed hx]
    | some p =>
      dsimp only
      rw [up_of_parent hp]
      by_cases hpx : p = x
      · rw [if_pos hpx, hpx, Function.iterate_fixed (up_of_parent (hpx ▸ hp))]
      · rw [if_neg hpx, ih]

theorem root_eq_iterate (x : Nat) : f.root x = f.up^[f.parent.size] x := climb_eq_iterate _ _

/-- An id that stays where it is is its own root. -/
theorem root_of_fixed (h : f.up x = x) : f.root x = x := by
  rw [root_eq_iterate, Function.iterate_fixed h]

/-! ### Trees -/

/-- The parents of a forest form trees: climbing from any id reaches an id that is its own
parent or has none, and the parent of a registered id is registered. -/
structure Wf (f : Forest) : Prop where
  reaches : ∀ x : Nat, ∃ k, f.up (f.up^[k] x) = f.up^[k] x
  closed : ∀ x p : Nat, (f.parent[x]?).join = some p → f.isRegistered p = true

/-- The first id on the way up that stays where it is comes within as many steps as the forest
has ids: the ids before it move, so they are parents' ids below the size, and they are pairwise
distinct, or the climb would cycle without ever stopping. -/
theorem Wf.exists_fixed_le_size (hw : f.Wf) (x : Nat) :
    ∃ k ≤ f.parent.size, f.up (f.up^[k] x) = f.up^[k] x := by
  classical
  have hex := hw.reaches x
  refine ⟨Nat.find hex, ?_, Nat.find_spec hex⟩
  -- the ids before the first fixed one all move
  have hmove : ∀ i < Nat.find hex, f.up (f.up^[i] x) ≠ f.up^[i] x := fun i hi => Nat.find_min hex hi
  have hlt : ∀ i < Nat.find hex, f.up^[i] x < f.parent.size := fun i hi =>
    Nat.lt_of_not_le fun hle => hmove i hi (up_of_size_le hle)
  let path : Fin (Nat.find hex) → Fin f.parent.size := fun i => ⟨f.up^[i] x, hlt i i.isLt⟩
  have hinj : Function.Injective path := by
    intro i j hij
    have heq : f.up^[i.val] x = f.up^[j.val] x := congrArg Fin.val hij
    -- equal ids at `i < j` repeat the climb, which puts the first fixed id earlier than it is
    have hrepeat : ∀ a b : Fin (Nat.find hex), a.val < b.val → f.up^[a.val] x = f.up^[b.val] x →
        False := by
      intro a b hab he
      have hk : f.up^[Nat.find hex - b.val + a.val] x = f.up^[Nat.find hex] x := by
        rw [Function.iterate_add_apply, he, ← Function.iterate_add_apply,
          Nat.sub_add_cancel (Nat.le_of_lt b.isLt)]
      have hfix : f.up (f.up^[Nat.find hex - b.val + a.val] x) = f.up^[Nat.find hex - b.val + a.val] x := by
        rw [hk]
        exact Nat.find_spec hex
      exact hmove _ (by have := b.isLt; omega) hfix
    rcases lt_trichotomy i.val j.val with h | h | h
    · exact (hrepeat i j h heq).elim
    · exact Fin.ext h
    · exact (hrepeat j i h heq.symm).elim
  simpa using Fintype.card_le_of_injective path hinj

/-- The root stays where it is. -/
theorem Wf.up_root (hw : f.Wf) (x : Nat) : f.up (f.root x) = f.root x := by
  obtain ⟨k, hk, hfix⟩ := hw.exists_fixed_le_size x
  have hroot : f.root x = f.up^[k] x := by
    rw [root_eq_iterate, ← Nat.sub_add_cancel hk, Function.iterate_add_apply,
      Function.iterate_fixed hfix]
  rw [hroot, hfix]

/-- The root is the id that stays where it is on the way up, however far that is. -/
theorem Wf.root_eq_of_iterate {k z : Nat} (hw : f.Wf) (hk : f.up^[k] x = z) (hz : f.up z = z) :
    f.root x = z := by
  have hr := hw.up_root x
  rw [root_eq_iterate] at hr ⊢
  rcases Nat.le_total k f.parent.size with hle | hle
  · rw [← Nat.sub_add_cancel hle, Function.iterate_add_apply, hk, Function.iterate_fixed hz]
  · rw [← hk, ← Nat.sub_add_cancel hle, Function.iterate_add_apply, Function.iterate_fixed hr]

theorem Wf.root_up (hw : f.Wf) (x : Nat) : f.root (f.up x) = f.root x := by
  refine hw.root_eq_of_iterate (k := f.parent.size) ?_ (hw.up_root x)
  rw [← Function.iterate_succ_apply, Function.iterate_succ_apply', ← root_eq_iterate, hw.up_root]

theorem Wf.root_root (hw : f.Wf) (x : Nat) : f.root (f.root x) = f.root x :=
  root_of_fixed (hw.up_root x)

theorem Wf.isRegistered_iterate (hw : f.Wf) (hx : f.isRegistered x = true) (n : Nat) :
    f.isRegistered (f.up^[n] x) = true := by
  induction n with
  | zero => exact hx
  | succ n ih =>
    rw [Function.iterate_succ_apply']
    obtain ⟨p, hp⟩ := Option.isSome_iff_exists.mp ih
    rw [up_of_parent hp]
    exact hw.closed _ p hp

theorem Wf.isRegistered_root (hw : f.Wf) (hx : f.isRegistered x = true) :
    f.isRegistered (f.root x) = true := by
  rw [root_eq_iterate]
  exact hw.isRegistered_iterate hx _

/-- The root of a registered id is a root. -/
theorem Wf.isRoot_root (hw : f.Wf) (hx : f.isRegistered x = true) : f.isRoot (f.root x) = true :=
  isRoot_iff_up.mpr ⟨hw.isRegistered_root hx, hw.up_root x⟩

/-- A registered id is a root exactly when it is its own root. -/
theorem Wf.isRoot_iff_root_eq (hw : f.Wf) (hx : f.isRegistered x = true) :
    f.isRoot x = true ↔ f.root x = x := by
  rw [isRoot_iff_up]
  constructor
  · rintro ⟨-, hup⟩
    exact root_of_fixed hup
  · intro hr
    exact ⟨hx, hr ▸ hw.up_root x⟩

/-- Climbing stops at the root within as many steps as the forest has ids. -/
theorem Wf.climbs (hw : f.Wf) (x : Nat) :
    ∃ k ≤ f.parent.size, f.up^[k] x = f.root x ∧ f.up (f.root x) = f.root x := by
  obtain ⟨k, hk, hfix⟩ := hw.exists_fixed_le_size x
  exact ⟨k, hk, (hw.root_eq_of_iterate rfl hfix).symm, hw.up_root x⟩

/-- The only cycles of the parents are ids that are their own parent. -/
theorem Wf.fixed_of_cycle (hw : f.Wf) {n : Nat} (hn : 0 < n) (hx : f.up^[n] x = x) : f.up x = x := by
  obtain ⟨k, hfix⟩ := hw.reaches x
  have hrep : ∀ m, f.up^[n * m] x = x := by
    intro m
    induction m with
    | zero => rfl
    | succ m ih => rw [Nat.mul_succ, Function.iterate_add_apply, hx, ih]
  -- going round the cycle `k` times passes step `k`, after which the climb stays put
  have hback : x = f.up^[k] x :=
    calc x = f.up^[n * k] x := (hrep k).symm
      _ = f.up^[n * k - k] (f.up^[k] x) := by
        rw [← Function.iterate_add_apply, Nat.sub_add_cancel (Nat.le_mul_of_pos_left k hn)]
      _ = f.up^[k] x := Function.iterate_fixed hfix _
  rw [hback]
  exact hfix

/-! ### Re-pointing one id -/

/-- Setting the parent of an id in range changes that entry and no other. -/
theorem join_set! (arr : Array (Option Nat)) (v : Option Nat) (y : Nat) :
    ((arr.set! c v)[y]?).join = if y = c ∧ c < arr.size then v else (arr[y]?).join := by
  rw [Array.set!_eq_setIfInBounds, Array.getElem?_setIfInBounds]
  by_cases hy : y = c
  · subst hy
    by_cases hc : y < arr.size
    · simp [hc]
    · simp [hc]
  · rw [if_neg (Ne.symm hy), if_neg (fun h => hy h.1)]

/-- Re-pointing `c` moves the step up from `c` and no other. -/
theorem up_set (hc : c < f.parent.size) (hp : f'.parent = f.parent.set! c (some t)) (y : Nat) :
    f'.up y = if y = c then t else f.up y := by
  unfold up
  rw [hp, join_set!]
  by_cases hy : y = c
  · rw [if_pos ⟨hy, hc⟩, if_pos hy, Option.getD_some]
  · rw [if_neg (fun h => hy h.1), if_neg hy]

/-- Re-pointing a registered id registers the same ids. -/
theorem isRegistered_set (hc : f.isRegistered c = true) (hp : f'.parent = f.parent.set! c (some t))
    (y : Nat) : f'.isRegistered y = f.isRegistered y := by
  unfold isRegistered
  rw [hp, join_set!]
  split
  · rename_i hy
    rw [hy.1]
    exact hc.symm
  · rfl

/-- Re-pointing one registered id `c` at a registered id `t ≠ c` that stays where it is keeps
the parents trees. Where each id climbs to afterwards is read off a function `R` that sends `c`
to `t`, does not change along a step up from any other id, and fixes every other id that stays
where it is. -/
theorem Wf.set (hw : f.Wf) (hc : f.isRegistered c = true) (ht : f.isRegistered t = true)
    (hup : f.up t = t) (htc : t ≠ c) (hp : f'.parent = f.parent.set! c (some t))
    {R : Nat → Nat} (hRc : R c = t) (hRup : ∀ y, y ≠ c → R (f.up y) = R y)
    (hRfix : ∀ y, f.up y = y → y ≠ c → R y = y) :
    f'.Wf ∧ ∀ y, f'.root y = R y := by
  have hup' := up_set (lt_size_of_isRegistered hc) hp
  have ht' : f'.up t = t := by rw [hup', if_neg htc, hup]
  -- `c` climbs in one step to `t`, which stays
  have hcase : ∃ k, f'.up^[k] c = R c ∧ f'.up (R c) = R c :=
    ⟨1, by rw [Function.iterate_one, hup', if_pos rfl, hRc], by rw [hRc, ht']⟩
  -- every other id climbs as before until it reaches `c` or its old root; induction on the
  -- number of old steps up to the root
  have hreach : ∀ m y, f.up^[m] y = f.root y → ∃ k, f'.up^[k] y = R y ∧ f'.up (R y) = R y := by
    intro m
    induction m with
    | zero =>
      intro y hy
      by_cases hyc : y = c
      · exact hyc ▸ hcase
      · have hfix : f.up y = y := by
          rw [Function.iterate_zero_apply] at hy
          rw [hy]
          exact hw.up_root y
        rw [hRfix y hfix hyc]
        exact ⟨0, rfl, by rw [hup', if_neg hyc, hfix]⟩
    | succ m ih =>
      intro y hy
      by_cases hyc : y = c
      · exact hyc ▸ hcase
      · obtain ⟨k, hk, hfix⟩ := ih (f.up y) (by rw [← Function.iterate_succ_apply, hy, hw.root_up])
        rw [hRup y hyc] at hk hfix
        exact ⟨k + 1, by rw [Function.iterate_succ_apply, hup', if_neg hyc, hk], hfix⟩
  have hwf : f'.Wf := by
    refine ⟨fun x => ?_, fun x p hx => ?_⟩
    · obtain ⟨k, hk, hfix⟩ := hreach _ x (root_eq_iterate x).symm
      exact ⟨k, by rw [hk]; exact hfix⟩
    · rw [isRegistered_set hc hp]
      rw [hp, join_set!] at hx
      split at hx
      · cases hx
        exact ht
      · exact hw.closed x p hx
  refine ⟨hwf, fun y => ?_⟩
  obtain ⟨k, hk, hfix⟩ := hreach _ y (root_eq_iterate y).symm
  exact hwf.root_eq_of_iterate hk hfix

/-- Hanging a root `c` under another root `t` gives every id of `c`'s tree the root `t`, and
keeps every other root. -/
theorem Wf.hang (hw : f.Wf) (hc : f.isRoot c = true) (ht : f.isRoot t = true) (htc : t ≠ c)
    (hp : f'.parent = f.parent.set! c (some t)) :
    f'.Wf ∧ ∀ y, f'.root y = if f.root y = c then t else f.root y := by
  obtain ⟨hcreg, hcup⟩ := isRoot_iff_up.mp hc
  obtain ⟨htreg, htup⟩ := isRoot_iff_up.mp ht
  refine hw.set hcreg htreg htup htc hp (by rw [root_of_fixed hcup, if_pos rfl])
    (fun y _ => by rw [hw.root_up]) fun y hy hyc => ?_
  rw [root_of_fixed hy, if_neg hyc]

/-! ### Look-ups -/

/-- An id that points straight at its root. -/
def Flat (f : Forest) (y : Nat) : Prop := (f.parent[y]?).join = some (f.root y)

/-- The parent of a registered id is its step up. -/
theorem parent_of_isRegistered (h : f.isRegistered x = true) :
    (f.parent[x]?).join = some (f.up x) := by
  obtain ⟨p, hp⟩ := Option.isSome_iff_exists.mp h
  rw [hp, up_of_parent hp]

/-- A registered id that stays where it is points at itself, its root. -/
theorem flat_of_fixed (hx : f.isRegistered x = true) (hup : f.up x = x) : f.Flat x := by
  rw [Flat, parent_of_isRegistered hx, hup, root_of_fixed hup]

/-- `g` has the trees of `f` and its link orders: the same roots and registered ids over as many
ids, every id that points at its root in `f` does so in `g`, and the orders are untouched. -/
structure Keeps (f g : Forest) : Prop where
  root : ∀ y, g.root y = f.root y
  isRegistered : ∀ y, g.isRegistered y = f.isRegistered y
  flat : ∀ y, f.Flat y → g.Flat y
  size : g.parent.size = f.parent.size
  order : g.order = f.order
  nextOrder : g.nextOrder = f.nextOrder

theorem Keeps.refl (f : Forest) : Keeps f f :=
  ⟨fun _ => rfl, fun _ => rfl, fun _ h => h, rfl, rfl, rfl⟩

theorem Keeps.trans (h : Keeps f f') (h' : Keeps f' g) : Keeps f g where
  root y := (h'.root y).trans (h.root y)
  isRegistered y := (h'.isRegistered y).trans (h.isRegistered y)
  flat y hy := h'.flat y (h.flat y hy)
  size := h'.size.trans h.size
  order := h'.order.trans h.order
  nextOrder := h'.nextOrder.trans h.nextOrder

/-- Re-pointing a registered id that is not a root at its root keeps the trees, and leaves the id
pointing at its root. -/
theorem Wf.repoint (hw : f.Wf) (hc : f.isRegistered c = true) (hne : f.root c ≠ c) :
    ({ f with parent := f.parent.set! c (some (f.root c)) } : Forest).Wf ∧
      Keeps f { f with parent := f.parent.set! c (some (f.root c)) } ∧
      Flat { f with parent := f.parent.set! c (some (f.root c)) } c := by
  obtain ⟨hw', hroot⟩ := hw.set hc (hw.isRegistered_root hc) (hw.up_root c) hne
    (show ({ f with parent := f.parent.set! c (some (f.root c)) } : Forest).parent = _ from rfl) rfl
    (fun y _ => hw.root_up y) fun _ hy _ => root_of_fixed hy
  have hlt := lt_size_of_isRegistered hc
  have hflat : ∀ y, y = c ∨ f.Flat y → Flat { f with parent := f.parent.set! c (some (f.root c)) } y := by
    intro y hy
    unfold Flat
    dsimp only
    rw [join_set!, hroot]
    by_cases hyc : y = c
    · rw [if_pos ⟨hyc, hlt⟩, hyc]
    · rw [if_neg fun h => hyc h.1]
      exact hy.resolve_left hyc
  exact ⟨hw', ⟨hroot, isRegistered_set hc rfl, fun y hy => hflat y (.inr hy), Array.size_set! .., rfl,
    rfl⟩, hflat c (.inl rfl)⟩

/-- Path compression towards a root `r`, from `r` or a registered id under it, keeps the trees
and the orders, and leaves `current` pointing at `r` when it is registered and there is fuel. -/
theorem Wf.compress {r : Nat} (fuel : Nat) : ∀ {f : Forest} (current : Nat), f.Wf → f.up r = r →
    (current = r ∨ f.isRegistered current = true ∧ f.root current = r) →
    ({ f with parent := Forest.compress r fuel current f.parent } : Forest).Wf ∧
      Keeps f { f with parent := Forest.compress r fuel current f.parent } ∧
      (0 < fuel → f.isRegistered current = true →
        Flat { f with parent := Forest.compress r fuel current f.parent } current) := by
  -- induction on the fuel; each step re-points one id, so the forest changes along the way
  induction fuel with
  | zero =>
    intro f current hw _ _
    exact ⟨hw, Keeps.refl f, fun h => absurd h (Nat.lt_irrefl 0)⟩
  | succ fuel ih =>
    intro f current hw hr hcur
    by_cases hc : current = r
    · -- the climb has arrived at the root: nothing is re-pointed
      rw [Forest.compress, if_pos hc]
      refine ⟨hw, Keeps.refl f, fun _ hreg => ?_⟩
      subst hc
      exact flat_of_fixed hreg hr
    · obtain ⟨hreg, hroot⟩ := hcur.resolve_left hc
      have hnext : (f.parent[current]?).join.getD r = f.up current := by
        rw [parent_of_isRegistered hreg, Option.getD_some]
      obtain ⟨hw1, hk1, hflat1⟩ := hw.repoint hreg fun h => hc (h.symm.trans hroot)
      rw [hroot] at hw1 hk1 hflat1
      have hup1 : ({ f with parent := f.parent.set! current (some r) } : Forest).up r = r := by
        rw [up_set (lt_size_of_isRegistered hreg) rfl, if_neg (Ne.symm hc), hr]
      have hcur1 : ({ f with parent := f.parent.set! current (some r) } : Forest).isRegistered
          (f.up current) = true ∧
          ({ f with parent := f.parent.set! current (some r) } : Forest).root (f.up current) = r := by
        rw [hk1.isRegistered, hk1.root, hw.root_up, hroot]
        exact ⟨hw.closed current _ (parent_of_isRegistered hreg), rfl⟩
      obtain ⟨hw2, hk2, -⟩ := ih (f.up current) hw1 hup1 (.inr hcur1)
      rw [Forest.compress, if_neg hc, hnext]
      exact ⟨hw2, hk1.trans hk2, fun _ _ => hk2.flat current hflat1⟩

/-- A look-up returns the root, keeps the trees and the orders, and leaves the id it looked up
pointing at its root. -/
theorem Wf.find (hw : f.Wf) (x : Nat) :
    (f.find x).1 = f.root x ∧ (f.find x).2.Wf ∧ Keeps f (f.find x).2 ∧
      (f.isRegistered x = true → (f.find x).2.Flat x) := by
  have hcur : x = f.root x ∨ f.isRegistered x = true ∧ f.root x = f.root x := by
    cases hx : f.isRegistered x with
    | true => exact .inr ⟨rfl, rfl⟩
    | false => exact .inl (root_of_fixed (up_of_not_registered hx)).symm
  obtain ⟨hw', hk, hflat⟩ := Wf.compress f.parent.size x hw (hw.up_root x) hcur
  exact ⟨rfl, hw', hk, fun hx => hflat (Nat.zero_lt_of_lt (lt_size_of_isRegistered hx)) hx⟩

/-! ### Registering -/

/-- Registering a fresh id moves no step up: the id stays where it is, as it did before. -/
theorem up_register (hfree : f.isRegistered c = false) (y : Nat) : (f.register c).up y = f.up y := by
  show ((f.parent.set! c (some c))[y]?).join.getD y = f.up y
  rw [join_set!]
  split
  · rename_i hy
    rw [hy.1, Option.getD_some, up_of_not_registered hfree]
  · rfl

theorem isRegistered_register (y : Nat) :
    (f.register c).isRegistered y = (decide (y = c ∧ c < f.parent.size) || f.isRegistered y) := by
  show ((f.parent.set! c (some c))[y]?).join.isSome = _
  rw [join_set!]
  split
  · rename_i hy
    simp [hy]
  · rename_i hy
    simp [hy, isRegistered]

/-- Registering a fresh id adds a tree of that id alone and keeps every other tree. -/
theorem Wf.register (hw : f.Wf) (hfree : f.isRegistered c = false) :
    (f.register c).Wf ∧ (∀ y, (f.register c).root y = f.root y) ∧
      (f.register c).parent.size = f.parent.size := by
  have hup : (f.register c).up = f.up := funext (up_register hfree)
  have hsize : (f.register c).parent.size = f.parent.size := Array.size_set! ..
  refine ⟨⟨fun x => by rw [hup]; exact hw.reaches x, fun x p hx => ?_⟩,
    fun y => by rw [root_eq_iterate, root_eq_iterate, hup, hsize], hsize⟩
  change ((f.parent.set! c (some c))[x]?).join = some p at hx
  rw [join_set!] at hx
  rw [isRegistered_register]
  split at hx
  · rename_i hxc
    cases hx
    simp [hxc.2]
  · simp [hw.closed x p hx]

/-! ### Links -/

/-- A link refused returns an error and keeps the trees and the orders: it changes at most the
paths its look-ups compressed. -/
theorem Wf.link_error {base member : Nat} (hw : f.Wf)
    (h : ¬(f.isRegistered base = true ∧ f.isRoot member = true ∧ f.root base ≠ member)) :
    (∃ e, (f.link base member).1 = .error e) ∧ (f.link base member).2.Wf ∧
      Keeps f (f.link base member).2 := by
  obtain ⟨-, hwm, hkm, -⟩ := hw.find member
  obtain ⟨-, hwb, hkb, -⟩ := hw.find base
  unfold link
  split_ifs with h1 h2 h3
  · exact ⟨⟨_, rfl⟩, hw, Keeps.refl f⟩
  · exact ⟨⟨_, rfl⟩, hw, Keeps.refl f⟩
  · exact ⟨⟨_, rfl⟩, hwm, hkm⟩
  · -- both registered and `member` a root: the link closes a cycle
    dsimp only
    have hc : (f.find base).1 = member := by
      by_contra hc
      exact h ⟨by simpa using h2, by simpa using h3, hc⟩
    rw [if_pos hc]
    exact ⟨⟨_, rfl⟩, hwb, hkb⟩

/-- A link of a root `member` under a registered `base` outside its tree hangs `member`'s tree
under the root of `base` and returns that root; `member` gets the next link order. -/
theorem Wf.link_ok {base member : Nat} (hw : f.Wf) (hb : f.isRegistered base = true)
    (hm : f.isRoot member = true) (hne : f.root base ≠ member) :
    (f.link base member).1 = .ok (f.root base) ∧ (f.link base member).2.Wf ∧
      (∀ y, (f.link base member).2.root y = if f.root y = member then f.root base else f.root y) ∧
      (∀ y, (f.link base member).2.isRegistered y = f.isRegistered y) ∧
      (f.link base member).2.parent.size = f.parent.size ∧
      (f.link base member).2.order = f.order.set! member f.nextOrder ∧
      (f.link base member).2.nextOrder = f.nextOrder + 1 := by
  obtain ⟨hmreg, hmup⟩ := isRoot_iff_up.mp hm
  obtain ⟨-, hw1, hk1, -⟩ := hw.find base
  -- after the look-up of `base`, `member` and the root of `base` are still roots
  have hm1 : (f.find base).2.isRoot member = true := by
    rw [hw1.isRoot_iff_root_eq (by rw [hk1.isRegistered]; exact hmreg), hk1.root]
    exact root_of_fixed hmup
  have ht1 : (f.find base).2.isRoot (f.root base) = true := by
    rw [← hk1.root]
    exact hw1.isRoot_root (by rw [hk1.isRegistered]; exact hb)
  set g : Forest := { (f.find base).2 with
    parent := (f.find base).2.parent.set! member (some (f.root base)),
    order := f.order.set! member f.nextOrder, nextOrder := f.nextOrder + 1 }
  have hlink : f.link base member = (.ok (f.root base), g) := by
    unfold link
    simp only [hmreg, hb, hm, Bool.not_true, Bool.false_eq_true, if_false]
    exact if_neg hne
  obtain ⟨hw2, hroot2⟩ := hw1.hang hm1 ht1 hne (show g.parent = _ from rfl)
  rw [hlink]
  refine ⟨rfl, hw2, fun y => by rw [hroot2, hk1.root], fun y => ?_, ?_, rfl, rfl⟩
  · rw [isRegistered_set (isRoot_iff_up.mp hm1).1 rfl, hk1.isRegistered]
  · rw [Array.size_set!, hk1.size]

/-! ### Flattening -/

/-- One step of flattening: a look-up of a registered id. -/
def lookUp (f : Forest) (id : Nat) : Forest := if f.isRegistered id then (f.find id).2 else f

theorem flatten_eq (f : Forest) : f.flatten = (List.range f.parent.size).foldl lookUp f := rfl

/-- Looking up the registered ids of a list one after the other keeps the trees and the orders,
and leaves every one of them pointing at its root. -/
theorem Wf.foldl_lookUp (ids : List Nat) : ∀ {f : Forest}, f.Wf →
    (ids.foldl lookUp f).Wf ∧ Keeps f (ids.foldl lookUp f) ∧
      ∀ y ∈ ids, f.isRegistered y = true → (ids.foldl lookUp f).Flat y := by
  induction ids with
  | nil => exact fun hw => ⟨hw, Keeps.refl _, fun _ hy => absurd hy List.not_mem_nil⟩
  | cons id ids ih =>
    intro f hw
    have hstep : (f.lookUp id).Wf ∧ Keeps f (f.lookUp id) ∧
        (f.isRegistered id = true → (f.lookUp id).Flat id) := by
      unfold lookUp
      split
      · obtain ⟨-, hw1, hk1, hflat⟩ := hw.find id
        exact ⟨hw1, hk1, hflat⟩
      · rename_i h
        exact ⟨hw, Keeps.refl f, fun h' => absurd h' h⟩
    obtain ⟨hw1, hk1, hflat1⟩ := hstep
    obtain ⟨hw2, hk2, hflat2⟩ := ih hw1
    rw [List.foldl_cons]
    refine ⟨hw2, hk1.trans hk2, fun y hy hreg => ?_⟩
    rcases List.mem_cons.mp hy with rfl | hy
    · exact hk2.flat _ (hflat1 hreg)
    · exact hflat2 y hy (by rw [hk1.isRegistered]; exact hreg)

/-- Flattening keeps the trees and the orders, and points every registered id at its root. -/
theorem Wf.flatten (hw : f.Wf) :
    f.flatten.Wf ∧ Keeps f f.flatten ∧ ∀ y, f.isRegistered y = true → f.flatten.Flat y := by
  obtain ⟨hw', hk, hflat⟩ := Wf.foldl_lookUp (List.range f.parent.size) hw
  rw [flatten_eq]
  exact ⟨hw', hk, fun y hy => hflat y (List.mem_range.mpr (lt_size_of_isRegistered hy)) hy⟩

theorem base_of_flat (h : f.Flat y) : f.base y = f.root y := by
  rw [base, h, Option.getD_some]

/-- After flattening, the parent of a registered id is its root, and that root is its own
parent. -/
theorem Wf.base_flatten (hw : f.Wf) (hx : f.isRegistered x = true) :
    f.flatten.base x = f.root x ∧ f.flatten.base (f.flatten.base x) = f.flatten.base x := by
  obtain ⟨-, hk, hflat⟩ := hw.flatten
  have hbase : ∀ y, f.isRegistered y = true → f.flatten.base y = f.root y := fun y hy => by
    rw [base_of_flat (hflat y hy), hk.root]
  rw [hbase x hx, hbase _ (hw.isRegistered_root hx), hw.root_root]
  exact ⟨rfl, rfl⟩

/-! ### What a link reports -/

/-- A link succeeds exactly when both ids are registered, `member` is a root, and `base` does not
lie in `member`'s tree. -/
theorem Wf.link_ok_iff {base member : Nat} (hw : f.Wf) :
    (∃ t, (f.link base member).1 = .ok t) ↔ f.isRegistered base = true ∧
      f.isRegistered member = true ∧ f.isRoot member = true ∧ f.root base ≠ member := by
  constructor
  · rintro ⟨t, ht⟩
    by_contra hc
    obtain ⟨⟨e, he⟩, -⟩ := hw.link_error fun h => hc ⟨h.1, (isRoot_iff_up.mp h.2.1).1, h.2⟩
    rw [ht] at he
    cases he
  · rintro ⟨hb, -, hm, hne⟩
    exact ⟨_, (hw.link_ok hb hm hne).1⟩

/-- A link that succeeds was allowed, and reports the root of `base`. -/
theorem Wf.link_allowed {base member t : Nat} (hw : f.Wf) (ht : (f.link base member).1 = .ok t) :
    f.isRegistered base = true ∧ f.isRoot member = true ∧ f.root base ≠ member ∧ t = f.root base := by
  obtain ⟨hb, -, hm, hne⟩ := hw.link_ok_iff.mp ⟨t, ht⟩
  have hok := (hw.link_ok hb hm hne).1
  rw [ht] at hok
  exact ⟨hb, hm, hne, Except.ok.inj hok⟩

/-- A link that fails was refused. -/
theorem Wf.link_refused {base member : Nat} {e : AliasError} (hw : f.Wf)
    (he : (f.link base member).1 = .error e) :
    ¬(f.isRegistered base = true ∧ f.isRoot member = true ∧ f.root base ≠ member) := by
  rintro ⟨hb, hm, hne⟩
  rw [(hw.link_ok hb hm hne).1] at he
  cases he

/-- Whether it succeeds or not, a link registers the same ids. -/
theorem Wf.isRegistered_link {base member : Nat} (hw : f.Wf) (y : Nat) :
    (f.link base member).2.isRegistered y = f.isRegistered y := by
  by_cases hc : f.isRegistered base = true ∧ f.isRoot member = true ∧ f.root base ≠ member
  · exact (hw.link_ok hc.1 hc.2.1 hc.2.2).2.2.2.1 y
  · exact (hw.link_error hc).2.2.isRegistered y

/-- The roots after a link that succeeded and reported the root `t`: `member`'s tree hangs
under `t`, and every other id keeps its root. -/
theorem Wf.root_link {base member t : Nat} (hw : f.Wf) (ht : (f.link base member).1 = .ok t)
    (y : Nat) : (f.link base member).2.root y = if f.root y = member then t else f.root y := by
  obtain ⟨hb, hm, hne, rfl⟩ := hw.link_allowed ht
  exact (hw.link_ok hb hm hne).2.2.1 y

/-! ### Link orders -/

/-- Setting the order of an id in range changes that order and no other. -/
theorem orderOf_set {v : Nat} (hc : c < f.order.size) (ho : f'.order = f.order.set! c v) (y : Nat) :
    f'.orderOf y = if y = c then v else f.orderOf y := by
  unfold orderOf
  rw [ho, Array.set!_eq_setIfInBounds, Array.getElem?_setIfInBounds]
  by_cases hy : y = c
  · subst hy
    simp [hc]
  · rw [if_neg (Ne.symm hy), if_neg hy]

/-- The link orders of a forest: roots, the ids that are not registered among them, have order 0,
and the other ids have distinct positive orders below the next one. -/
structure Ordered (f : Forest) : Prop where
  size_eq : f.order.size = f.parent.size
  nextOrder_pos : 0 < f.nextOrder
  order_root : ∀ x, f.root x = x → f.orderOf x = 0
  order_alias : ∀ x, f.root x ≠ x → 0 < f.orderOf x ∧ f.orderOf x < f.nextOrder
  order_inj : ∀ x y, f.root x ≠ x → f.root y ≠ y → f.orderOf x = f.orderOf y → x = y

theorem isRegistered_empty (kind : ResKind) (capacity x : Nat) :
    (empty kind capacity).isRegistered x = false := by
  unfold isRegistered empty
  rw [Array.getElem?_replicate]
  split <;> rfl

theorem root_empty (kind : ResKind) (capacity x : Nat) : (empty kind capacity).root x = x :=
  root_of_fixed (up_of_not_registered (isRegistered_empty kind capacity x))

theorem wf_empty (kind : ResKind) (capacity : Nat) : (empty kind capacity).Wf where
  reaches x := ⟨0, up_of_not_registered (isRegistered_empty kind capacity x)⟩
  closed x p hx := by
    have h := isRegistered_empty kind capacity x
    rw [isRegistered, hx] at h
    cases h

theorem ordered_empty (kind : ResKind) (capacity : Nat) : (empty kind capacity).Ordered where
  size_eq := by simp [empty]
  nextOrder_pos := Nat.one_pos
  order_root x _ := by
    unfold orderOf empty
    rw [Array.getElem?_replicate]
    split <;> rfl
  order_alias x hx := absurd (root_empty kind capacity x) hx
  order_inj x _ hx := absurd (root_empty kind capacity x) hx

/-- Orders only read the roots: a forest with the roots and the orders of an ordered one is
ordered. -/
theorem Ordered.of_roots (h : f.Ordered) (hroot : ∀ y, g.root y = f.root y)
    (hsize : g.parent.size = f.parent.size) (horder : g.order = f.order)
    (hnext : g.nextOrder = f.nextOrder) : g.Ordered := by
  have hof : ∀ y, g.orderOf y = f.orderOf y := fun y => by rw [orderOf, orderOf, horder]
  refine ⟨by rw [horder, hsize, h.size_eq], hnext ▸ h.nextOrder_pos, fun x hx => ?_, fun x hx => ?_,
    fun x y hx hy hxy => ?_⟩
  · rw [hof]
    exact h.order_root x (hroot x ▸ hx)
  · rw [hof, hnext]
    exact h.order_alias x (hroot x ▸ hx)
  · rw [hof, hof] at hxy
    exact h.order_inj x y (hroot x ▸ hx) (hroot y ▸ hy) hxy

theorem Ordered.of_keeps (h : f.Ordered) (hk : Keeps f g) : g.Ordered :=
  h.of_roots hk.root hk.size hk.order hk.nextOrder

/-- A link gives its alias the next order, above every order given before, and keeps every
other order. -/
theorem Ordered.link {base member : Nat} (h : f.Ordered) (hw : f.Wf)
    (hb : f.isRegistered base = true) (hm : f.isRoot member = true) (hne : f.root base ≠ member) :
    (f.link base member).2.Ordered ∧
      ∀ y, (f.link base member).2.orderOf y = if y = member then f.nextOrder else f.orderOf y := by
  obtain ⟨-, -, hroot, -, hsize, horder, hnext⟩ := hw.link_ok hb hm hne
  obtain ⟨hmreg, hmup⟩ := isRoot_iff_up.mp hm
  have hof := orderOf_set (h.size_eq ▸ lt_size_of_isRegistered hmreg) horder
  -- an id other than `member` that is not its own root after the link was not before it either
  have halias : ∀ y, y ≠ member → (f.link base member).2.root y ≠ y → f.root y ≠ y := by
    intro y hy hgy hfy
    rw [hroot, hfy, if_neg hy] at hgy
    exact hgy rfl
  refine ⟨⟨by rw [horder, Array.size_set!, hsize, h.size_eq], by omega, fun x hx => ?_, fun x hx => ?_,
    fun x y hx hy hxy => ?_⟩, hof⟩
  · -- a root after the link is a root from before other than `member`
    rw [hroot] at hx
    split at hx
    · rename_i hxm
      rw [← hx, hw.root_root] at hxm
      exact absurd hxm hne
    · rename_i hxm
      have hx' : x ≠ member := fun hxe => hxm (hx.trans hxe)
      rw [hof, if_neg hx']
      exact h.order_root x hx
  · rw [hof, hnext]
    split
    · exact ⟨h.nextOrder_pos, Nat.lt_succ_self _⟩
    · rename_i hxm
      have := h.order_alias x (halias x hxm hx)
      omega
  · rw [hof, hof] at hxy
    by_cases hxm : x = member <;> by_cases hym : y = member
    · rw [hxm, hym]
    · rw [if_pos hxm, if_neg hym] at hxy
      exact absurd hxy (Nat.ne_of_gt (h.order_alias y (halias y hym hy)).2)
    · rw [if_neg hxm, if_pos hym] at hxy
      exact absurd hxy (Nat.ne_of_lt (h.order_alias x (halias x hxm hx)).2)
    · rw [if_neg hxm, if_neg hym] at hxy
      exact h.order_inj x y (halias x hxm hx) (halias y hym hy) hxy

/-! ### The forests ingestion builds -/

/-- The forests that registering fresh ids, look-ups, links and flattening make of an empty
forest: every forest ingestion builds, the link that fails included. -/
inductive Reachable : Forest → Prop
  | empty (kind : ResKind) (capacity : Nat) : Reachable (empty kind capacity)
  | register {f : Forest} {id : Nat} : Reachable f → f.isRegistered id = false →
      Reachable (f.register id)
  | find {f : Forest} (id : Nat) : Reachable f → Reachable (f.find id).2
  | link {f : Forest} (base member : Nat) : Reachable f → Reachable (f.link base member).2
  | flatten {f : Forest} : Reachable f → Reachable f.flatten

theorem Reachable.wf (h : f.Reachable) : f.Wf := by
  induction h with
  | empty kind capacity => exact wf_empty kind capacity
  | register _ hfree ih => exact (ih.register hfree).1
  | find id _ ih => exact (ih.find id).2.1
  | @link g base member _ ih =>
    by_cases hc : g.isRegistered base = true ∧ g.isRoot member = true ∧ g.root base ≠ member
    · exact (ih.link_ok hc.1 hc.2.1 hc.2.2).2.1
    · exact (ih.link_error hc).2.1
  | flatten _ ih => exact ih.flatten.1

theorem Reachable.ordered (h : f.Reachable) : f.Ordered := by
  induction h with
  | empty kind capacity => exact ordered_empty kind capacity
  | register hr hfree ih =>
    obtain ⟨-, hroot, hsize⟩ := hr.wf.register hfree
    exact ih.of_roots hroot hsize rfl rfl
  | find id hr ih => exact ih.of_keeps (hr.wf.find id).2.2.1
  | @link g base member hr ih =>
    by_cases hc : g.isRegistered base = true ∧ g.isRoot member = true ∧ g.root base ≠ member
    · exact (ih.link hr.wf hc.1 hc.2.1 hc.2.2).1
    · exact ih.of_keeps (hr.wf.link_error hc).2.2
  | flatten hr ih => exact ih.of_keeps hr.wf.flatten.2.1

/-- The laws of the alias chains in a forest. -/
structure Laws (f : Forest) : Prop where
  /-- The parent of a registered id is registered, and the only cycles of the parents are ids
  that are their own parent. -/
  closed : ∀ x p : Nat, (f.parent[x]?).join = some p → f.isRegistered p = true
  acyclic : ∀ x n : Nat, 0 < n → f.up^[n] x = x → f.up x = x
  /-- So climbing stops, at the root, within as many steps as there are ids. -/
  climbs : ∀ x : Nat, ∃ k ≤ f.parent.size, f.up^[k] x = f.root x ∧ f.up (f.root x) = f.root x
  /-- A look-up returns the root and moves no id to another root. -/
  find : ∀ x y : Nat, (f.find x).1 = f.root x ∧ (f.find x).2.root y = f.root y
  link_ok_iff : ∀ base member : Nat, (∃ t, (f.link base member).1 = .ok t) ↔
    f.isRegistered base = true ∧ f.isRegistered member = true ∧ f.isRoot member = true ∧
      f.root base ≠ member
  /-- A link that succeeds returns the root of `base`, hangs `member`'s whole tree under it, and
  moves no other id. -/
  link_ok : ∀ base member t : Nat, (f.link base member).1 = .ok t → t = f.root base ∧
    ∀ y, (f.link base member).2.root y = if f.root y = member then t else f.root y
  /-- A link that fails moves no id to another root and changes no order. -/
  link_error : ∀ (base member : Nat) (e : AliasError), (f.link base member).1 = .error e →
    ∀ y : Nat, (f.link base member).2.root y = f.root y ∧
      (f.link base member).2.orderOf y = f.orderOf y
  /-- Roots have order 0; the other ids have distinct positive orders. -/
  order_root : ∀ x : Nat, f.root x = x → f.orderOf x = 0
  order_alias : ∀ x y : Nat, f.root x ≠ x → f.root y ≠ y →
    0 < f.orderOf x ∧ (f.orderOf x = f.orderOf y → x = y)
  /-- A link gives `member` an order above every order given before, and keeps the others. -/
  link_order : ∀ base member t : Nat, (f.link base member).1 = .ok t →
    (f.link base member).2.orderOf member = f.nextOrder ∧
      ∀ y, y ≠ member → (f.link base member).2.orderOf y = f.orderOf y ∧ f.orderOf y < f.nextOrder
  /-- After flattening, the parent of a registered id is its root, and that root is its own
  parent. -/
  flatten : ∀ x : Nat, f.isRegistered x = true →
    f.flatten.base x = f.root x ∧ f.flatten.base (f.flatten.base x) = f.flatten.base x

/-- **Every forest that ingestion builds obeys the laws of the alias chains.** Its parents form
trees, so a look-up stops at the root; look-ups move no id to another root; a link succeeds
exactly when both ids are registered, the alias is a root and the base lies outside its tree,
and then hangs the alias's tree under the base's root, numbering the alias after every earlier
link; a link that fails moves nothing; and after flattening every registered id points at its
root. -/
theorem Reachable.laws (h : f.Reachable) : f.Laws := by
  have hw := h.wf
  have ho := h.ordered
  refine ⟨hw.closed, fun x n hn hx => hw.fixed_of_cycle hn hx, hw.climbs,
    fun x y => ⟨rfl, (hw.find x).2.2.1.root y⟩, fun base member => hw.link_ok_iff,
    fun base member t ht => ?_, fun base member e he y => ?_, ho.order_root,
    fun x y hx hy => ⟨(ho.order_alias x hx).1, ho.order_inj x y hx hy⟩,
    fun base member t ht => ?_, fun x hx => hw.base_flatten hx⟩
  · exact ⟨(hw.link_allowed ht).2.2.2, hw.root_link ht⟩
  · have hk := (hw.link_error (hw.link_refused he)).2.2
    exact ⟨hk.root y, by rw [orderOf, orderOf, hk.order]⟩
  · obtain ⟨hb, hm, hne, -⟩ := hw.link_allowed ht
    have hof := (ho.link hw hb hm hne).2
    refine ⟨by rw [hof, if_pos rfl], fun y hy => ⟨by rw [hof, if_neg hy], ?_⟩⟩
    by_cases hyr : f.root y = y
    · rw [ho.order_root y hyr]
      exact ho.nextOrder_pos
    · exact (ho.order_alias y hyr).2

/-- Three buffers: 1 is linked under 0, then 2 under 1, which hangs it under 0, and the forest
is flattened. -/
def threeBuffers : Forest :=
  ((((((empty .buffer 3).register 0).register 1).register 2).link 0 1).2.link 1 2).2.flatten

theorem threeBuffers_laws : threeBuffers.Reachable ∧ threeBuffers.base 2 = 0 ∧ threeBuffers.Laws := by
  have h : threeBuffers.Reachable :=
    .flatten (.link 1 2 (.link 0 1 (.register (.register (.register (.empty .buffer 3) rfl) rfl) rfl)))
  exact ⟨h, by decide, Reachable.laws h⟩

end Forest

end RenderGraph
