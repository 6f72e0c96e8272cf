import Mathlib
import RenderGraph.Saturating
/-!
# Tables by pass

The stages keep what they know about passes in dense arrays indexed by declaration index, read
with a default (`getD`) and written with `set!`, and fill them by folding over a list of passes.
This module gives the facts about such tables that the proofs of the stages share:

* `getD_set!` and `getD_set!_eq_or`: a write changes the entry it writes and no other;
* `getD_foldl_set!_of_not_mem` and `exists_getD_foldl_set!`: a fold that writes the entry of each
  pass of a list once leaves the other entries alone, and leaves each written entry as the write
  made it, whatever the later writes;
* `sum_filter_set!`: a write that takes an index out of a predicate takes its weight off a
  weighted count of the indices inside it;
* `total_eq_sum` and `total_length_le`: counts summed over a table.
-/

namespace RenderGraph

theorem getElem?_concat_eq_some {α : Type} {L : List α} {x y : α} {i : Nat} :
    (L ++ [x])[i]? = some y ↔ L[i]? = some y ∨ (i = L.length ∧ x = y) := by
  rcases Nat.lt_trichotomy i L.length with hi | rfl | hi
  · rw [List.getElem?_append_left hi]
    have : i ≠ L.length := by omega
    simp [this]
  · simp
  · rw [List.getElem?_eq_none (by simp; omega), List.getElem?_eq_none (by omega)]
    have : i ≠ L.length := by omega
    simp [this]

/-- The first of a pair drawn from a list with one more element at its end lies in the list. -/
theorem mem_of_pair_sublist_concat {α : Type} {L : List α} {x y c : α} (h : [y, c].Sublist (L ++ [x])) :
    y ∈ L := by
  obtain ⟨l₁, l₂, heq, h₁, h₂⟩ := List.sublist_append_iff.mp h
  rcases List.sublist_singleton.mp h₂ with rfl | rfl
  · rw [List.append_nil] at heq
    rw [← heq] at h₁
    exact h₁.subset (by simp)
  · obtain ⟨rfl, -⟩ : l₁ = [y] ∧ c = x := by
      cases l₁ with
      | nil => simp at heq
      | cons a l₁ => cases l₁ <;> simp_all
    exact h₁.subset (by simp)

/-- A pair drawn from a list with one more element at its end, other than its second, is drawn
from the list. -/
theorem pair_sublist_of_sublist_concat {α : Type} {L : List α} {x y c : α}
    (h : [y, c].Sublist (L ++ [x])) (hc : c ≠ x) : [y, c].Sublist L := by
  obtain ⟨l₁, l₂, heq, h₁, h₂⟩ := List.sublist_append_iff.mp h
  rcases List.sublist_singleton.mp h₂ with rfl | rfl
  · rw [List.append_nil] at heq
    rwa [← heq] at h₁
  · cases l₁ with
    | nil => simp at heq
    | cons a l₁ => cases l₁ <;> simp_all

namespace Array

variable {β : Type}

/-- A table of one value, read with that value as default, gives it everywhere. -/
theorem getD_replicate_self (n : Nat) (v : β) (i : Nat) : (Array.replicate n v).getD i v = v := by
  simp only [Array.getD_eq_getD_getElem?, Array.getElem?_replicate]
  split <;> rfl

/-- Below the size the default of a read is never used. -/
theorem getD_default_of_lt {a : Array β} {i : Nat} (h : i < a.size) (d d' : β) :
    a.getD i d = a.getD i d' := by
  rw [Array.getD_eq_getD_getElem?, Array.getD_eq_getD_getElem?, Array.getElem?_eq_getElem h]
  rfl

/-- Writing an entry inside the table changes that entry and no other. -/
theorem getD_set! (a : Array β) {i : Nat} (hi : i < a.size) (v : β) (j : Nat) (d : β) :
    (a.set! i v).getD j d = if j = i then v else a.getD j d := by
  simp only [Array.getD_eq_getD_getElem?, Array.set!_eq_setIfInBounds, Array.getElem?_setIfInBounds]
  by_cases hj : j = i
  · subst hj
    simp [hi]
  · simp [hj, Ne.symm hj]

/-- After a write, an entry is what it was or, at the written index, the written value. -/
theorem getD_set!_eq_or (a : Array β) (i : Nat) (v : β) (j : Nat) (d : β) :
    (a.set! i v).getD j d = a.getD j d ∨ (j = i ∧ (a.set! i v).getD j d = v) := by
  by_cases hi : i < a.size
  · rw [getD_set! a hi]
    by_cases hj : j = i
    · exact .inr ⟨hj, if_pos hj⟩
    · exact .inl (if_neg hj)
  · -- a write past the end leaves the table as it was
    left
    simp only [Array.getD_eq_getD_getElem?, Array.set!_eq_setIfInBounds, Array.getElem?_setIfInBounds]
    split
    · rename_i h
      subst h
      simp [hi]
    · rfl

/-- Writing the entries of some passes leaves the entry of any other pass alone. -/
theorem getD_foldl_set!_of_not_mem (f : Array β → Nat → β) {L : List Nat} (a : Array β) {c : Nat}
    (hc : c ∉ L) (d : β) : (L.foldl (fun a x => a.set! x (f a x)) a).getD c d = a.getD c d := by
  induction L generalizing a with
  | nil => rfl
  | cons x rest ih =>
    rw [List.mem_cons, not_or] at hc
    rw [List.foldl_cons, ih _ hc.2]
    simp only [Array.getD_eq_getD_getElem?, Array.set!_eq_setIfInBounds, Array.getElem?_setIfInBounds,
      Ne.symm hc.1, if_false]

/-- When each pass of a list of distinct passes is written once, its entry ends as its write made
it, from the table as it stood then. -/
theorem exists_getD_foldl_set! (f : Array β → Nat → β) {L : List Nat} (hL : L.Nodup) (a : Array β)
    (hlt : ∀ x ∈ L, x < a.size) {c : Nat} (hc : c ∈ L) (d : β) :
    ∃ b : Array β, (L.foldl (fun a x => a.set! x (f a x)) a).getD c d = f b c := by
  induction L generalizing a with
  | nil => cases hc
  | cons x rest ih =>
    rw [List.nodup_cons] at hL
    rw [List.foldl_cons]
    rcases List.mem_cons.mp hc with rfl | hc
    · refine ⟨a, ?_⟩
      rw [getD_foldl_set!_of_not_mem f _ hL.1, getD_set! a (hlt c List.mem_cons_self), if_pos rfl]
    · exact ih hL.2 _ (fun y hy => by simpa using hlt y (List.mem_cons_of_mem x hy)) hc

@[simp] theorem size_foldl_set! (f : Array β → Nat → β) (L : List Nat) (a : Array β) :
    (L.foldl (fun a x => a.set! x (f a x)) a).size = a.size := by
  induction L generalizing a with
  | nil => rfl
  | cons x rest ih => rw [List.foldl_cons, ih, Array.size_set!]

/-- When each pass of a list of distinct passes is written from the entries of passes written
before it, each entry ends as its write computes it from the final table: a table filled in an
order that puts every entry's dependencies first satisfies its defining equations. -/
theorem getD_foldl_set!_fix (f : Array β → Nat → β) (deps : Nat → List Nat) (d : β)
    (hf : ∀ a b c, (∀ y ∈ deps c, a.getD y d = b.getD y d) → f a c = f b c)
    {L : List Nat} (hL : L.Nodup) (a : Array β) (hlt : ∀ x ∈ L, x < a.size)
    (hdeps : ∀ c ∈ L, ∀ y ∈ deps c, [y, c].Sublist L) :
    ∀ c ∈ L, (L.foldl (fun a x => a.set! x (f a x)) a).getD c d =
      f (L.foldl (fun a x => a.set! x (f a x)) a) c := by
  induction L using List.reverseRecOn with
  | nil => simp
  | append_singleton L x ih =>
    rw [List.nodup_append] at hL
    have hx : x ∉ L := fun hm => hL.2.2 x hm x (List.mem_singleton_self x) rfl
    rw [List.foldl_append, List.foldl_cons, List.foldl_nil]
    set T := L.foldl (fun a x => a.set! x (f a x)) a
    have hxT : x < T.size := by
      rw [size_foldl_set!]
      exact hlt x (by simp)
    -- the last write leaves every entry of `L` as it was
    have hkeep : ∀ y ∈ L, (T.set! x (f T x)).getD y d = T.getD y d := fun y hy => by
      rw [getD_set! T hxT, if_neg (by rintro rfl; exact hx hy)]
    -- the dependencies of every entry were written before the last one
    have hfix : ∀ c ∈ L ++ [x], f (T.set! x (f T x)) c = f T c := fun c hc =>
      hf _ _ c fun y hy => hkeep y (mem_of_pair_sublist_concat (hdeps c hc y hy))
    intro c hc
    rw [hfix c hc]
    rcases List.mem_append.mp hc with hc | hc
    · rw [hkeep c hc]
      refine ih hL.1 (fun y hy => hlt y (List.mem_append_left _ hy)) (fun c' hc' y hy => ?_) c hc
      exact pair_sublist_of_sublist_concat (hdeps c' (List.mem_append_left _ hc') y hy)
        (by rintro rfl; exact hx hc')
    · rw [List.mem_singleton.mp hc, getD_set! T hxT, if_pos rfl]

/-- Writing, at an index below `n`, a value outside a predicate over an entry inside it takes that
index's weight off the weighted count of the indices whose entries satisfy the predicate. -/
theorem sum_filter_set! (a : Array β) {n x : Nat} (hsize : a.size = n) (hx : x < n) (v d : β)
    (P : β → Prop) [DecidablePred P] (f : Nat → Nat) (hold : P (a.getD x d)) (hv : ¬P v) :
    ∑ u ∈ (Finset.range n).filter (fun u => P ((a.set! x v).getD u d)), f u + f x =
      ∑ u ∈ (Finset.range n).filter (fun u => P (a.getD u d)), f u := by
  have hset : (Finset.range n).filter (fun u => P ((a.set! x v).getD u d)) =
      ((Finset.range n).filter (fun u => P (a.getD u d))).erase x := by
    ext u
    simp only [Finset.mem_filter, Finset.mem_erase, Finset.mem_range,
      getD_set! a (hsize ▸ hx) v u d]
    by_cases hu : u = x
    · subst hu
      simp [hv]
    · simp [hu]
  rw [hset]
  exact Finset.sum_erase_add _ _ (Finset.mem_filter.mpr ⟨Finset.mem_range.mpr hx, hold⟩)

end Array

/-- The left-to-right total of a list is its sum. -/
theorem total_eq_sum (xs : List Nat) : total xs = xs.sum := by
  induction xs with
  | nil => rfl
  | cons x rest ih => rw [total_cons, List.sum_cons, ih]

/-- Of two tables of lists of one size, the one with entry by entry shorter lists has the smaller
total length. -/
theorem total_length_le {α : Type} {A B : Array (List α)} (hsize : A.size = B.size)
    (h : ∀ i, (A.getD i []).length ≤ (B.getD i []).length) :
    total (A.toList.map List.length) ≤ total (B.toList.map List.length) := by
  rw [total_eq_sum, total_eq_sum]
  apply List.Forall₂.sum_le_sum
  rw [List.forall₂_iff_get]
  refine ⟨by simp [hsize], fun i h1 h2 => ?_⟩
  have hi := h i
  simp only [List.length_map, Array.length_toList] at h1 h2
  simp only [Array.getD_eq_getD_getElem?, Array.getElem?_eq_getElem h1, Array.getElem?_eq_getElem h2,
    Option.getD_some] at hi
  simpa using hi

end RenderGraph
