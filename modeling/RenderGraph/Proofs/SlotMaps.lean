import Mathlib
import RenderGraph.Declaration.SlotMap
/-!
# Slot-store laws, and the slot map that keeps them

What the declaration proofs assume of a slot store is stated once, as the laws of
`LawfulSlotStore`, and nothing else of a store is used:

* an invariant `Wf` that the empty store has and every operation keeps;
* an insert names the new value by the key it hands out and leaves every other key
  (`get?_insert`), a removal or a change touches its own key only (`get?_remove`, `get?_modify`);
* `Issued`, the keys a store has handed out, valid or removed: a valid key is issued, inserting
  and removing keep every issued key issued, and the key an insert hands out was never issued
  (`not_issued_insert`), so a new key differs from every key the store ever gave out.

The consequences the declaration proofs cite are derived from the laws in `SlotStore`
(`get?_insert_key`, `get?_insert_of_issued`, ...).

The slot map of the runnable program keeps the laws. Its invariant is that the free list names
empty slots, each once (`SlotMap.Wf`); under it an insert only fills an empty slot. A key it has
handed out is one whose slot exists and still holds the key's version or has moved past it
(`SlotMap.Issued`); a slot's version only grows, which is why a new key is new.
-/

namespace RenderGraph

/-- What the declaration proofs assume of a slot store: an invariant its operations keep, what
each operation does to the value of every key, and the keys it has handed out, which only grow and
never include the next key an insert hands out. -/
class LawfulSlotStore (M : Type → Type) [SlotStore M] where
  /-- The invariant of every store the operations build. -/
  Wf {α : Type} : M α → Prop
  /-- The keys a store has handed out, valid or removed. -/
  Issued {α : Type} : M α → Key → Prop
  wf_empty {α : Type} : Wf (SlotStore.empty : M α)
  /-- The empty store names nothing. -/
  get?_empty {α : Type} (k : Key) : SlotStore.get? (SlotStore.empty : M α) k = none
  wf_insert {α : Type} {m : M α} (a : α) : Wf m → Wf (SlotStore.insert m a).2
  wf_remove {α : Type} {m m' : M α} {k : Key} {a : α} :
    Wf m → SlotStore.remove m k = some (a, m') → Wf m'
  wf_modify {α : Type} {m : M α} (k : Key) (f : α → α) : Wf m → Wf (SlotStore.modify m k f)
  /-- An insert names the new value by the key it hands out; every other key names what it named
  before. -/
  get?_insert {α : Type} {m : M α} (a : α) (k : Key) : Wf m →
    SlotStore.get? (SlotStore.insert m a).2 k =
      if k = (SlotStore.insert m a).1 then some a else SlotStore.get? m k
  /-- A removal leaves its key naming nothing, and every other key as it was. -/
  get?_remove {α : Type} {m m' : M α} {k : Key} {a : α} :
    SlotStore.remove m k = some (a, m') →
      ∀ k', SlotStore.get? m' k' = if k' = k then none else SlotStore.get? m k'
  /-- A change of a key's value touches that key only. -/
  get?_modify {α : Type} {m : M α} (k : Key) (f : α → α) (k' : Key) :
    SlotStore.get? (SlotStore.modify m k f) k' =
      if k' = k then (SlotStore.get? m k).map f else SlotStore.get? m k'
  /-- A valid key was handed out. -/
  issued_of_get? {α : Type} {m : M α} {k : Key} {a : α} : SlotStore.get? m k = some a → Issued m k
  /-- The key an insert hands out was never handed out before. -/
  not_issued_insert {α : Type} {m : M α} (a : α) : Wf m → ¬Issued m (SlotStore.insert m a).1
  issued_insert {α : Type} {m : M α} {k : Key} (a : α) : Wf m → Issued m k →
    Issued (SlotStore.insert m a).2 k
  issued_remove {α : Type} {m m' : M α} {k k' : Key} {a : α} :
    SlotStore.remove m k = some (a, m') → Issued m k' → Issued m' k'

namespace SlotStore

open LawfulSlotStore

variable {M : Type → Type} [SlotStore M] [LawfulSlotStore M] {α : Type} {m m' : M α} {k : Key}
  {a : α}

/-- The key an insert hands out names nothing before it. -/
theorem get?_insert_key (h : Wf m) (a : α) : get? m (insert m a).1 = none := by
  cases hk : get? m (insert m a).1 with
  | none => rfl
  | some b => exact absurd (issued_of_get? hk) (not_issued_insert a h)

/-- An insert leaves every key handed out before it naming what it named. -/
theorem get?_insert_of_issued (h : Wf m) (a : α) (hk : Issued m k) :
    get? (insert m a).2 k = get? m k := by
  have hne : k ≠ (insert m a).1 := fun hk' => not_issued_insert a h (hk' ▸ hk)
  rw [get?_insert a k h, if_neg hne]

theorem contains_remove (h : remove m k = some (a, m')) (k' : Key) :
    contains m' k' = (k' != k && contains m k') := by
  unfold contains
  rw [get?_remove h]
  by_cases hk : k' = k <;> simp [hk]

theorem contains_modify (k : Key) (f : α → α) (k' : Key) :
    contains (modify m k f) k' = contains m k' := by
  unfold contains
  rw [get?_modify]
  split
  · rename_i hk
    rw [hk, Option.isSome_map]
  · rfl

/-- What a changed store names: the changed value at the key, and what it named elsewhere. -/
theorem get?_modify_eq_some {k k' : Key} {f : α → α} (h : get? (modify m k f) k' = some a) :
    (k' = k ∧ ∃ b, get? m k = some b ∧ a = f b) ∨ (k' ≠ k ∧ get? m k' = some a) := by
  rw [get?_modify] at h
  split at h
  · rename_i hk
    obtain ⟨b, hb, rfl⟩ := Option.map_eq_some_iff.mp h
    exact .inl ⟨hk, b, hb, rfl⟩
  · exact .inr ⟨‹_›, h⟩

end SlotStore

/-! ### The slot map of the program -/

namespace SlotMap
variable {α : Type} {m m' : SlotMap α} {k k' : Key} {a a' : α}

/-- The free slots are distinct and empty, so an insert never overwrites a value. -/
structure Wf (m : SlotMap α) : Prop where
  nodup : m.free.Nodup
  empty : ∀ i ∈ m.free, ∃ v, m.slots[i]? = some ⟨none, v⟩

theorem wf_empty : ({} : SlotMap α).Wf := ⟨List.nodup_nil, by simp⟩

theorem get?_eq_some_iff : m.get? k = some a ↔ m.slots[k.index]? = some ⟨some a, k.version⟩ := by
  unfold get?
  split
  · rename_i s hs
    rw [hs]
    obtain ⟨value, version⟩ := s
    by_cases hv : version = k.version
    · subst hv
      simp
    · simp [hv]
  · rename_i hs
    simp [hs]

/-- A key names what its slot holds at the key's version. -/
theorem get?_eq (m : SlotMap α) (k : Key) :
    m.get? k = (m.slots[k.index]?).bind fun s => if s.version = k.version then s.value else none := by
  unfold get?
  split <;> rename_i hs <;> simp [hs]

/-- An insert into a well-formed map fills the most recently freed slot at its next version, or
opens a new slot at version 1. -/
theorem insert_cases (h : m.Wf) (a : α) :
    (∃ i rest v, m.free = i :: rest ∧ m.slots[i]? = some ⟨none, v⟩ ∧
      m.insert a = (⟨i, v + 1⟩, ⟨m.slots.set! i ⟨some a, v + 1⟩, rest⟩)) ∨
    (m.free = [] ∧ m.insert a = (⟨m.slots.size, 1⟩, ⟨m.slots.push ⟨some a, 1⟩, []⟩)) := by
  unfold insert
  split
  · rename_i i rest hfree
    obtain ⟨v, hv⟩ := h.empty i (by rw [hfree]; exact List.mem_cons_self)
    rw [hv]
    exact .inl ⟨i, rest, v, hfree, hv, rfl⟩
  · rename_i hfree
    exact .inr ⟨hfree, by rw [hfree]⟩

/-- An insert names the new value by the key it hands out; every other key names what it named
before. -/
theorem get?_insert (h : m.Wf) (a : α) (k : Key) :
    (m.insert a).2.get? k = if k = (m.insert a).1 then some a else m.get? k := by
  rcases insert_cases h a with ⟨i, rest, v, -, hv, hins⟩ | ⟨-, hins⟩
  · rw [hins]
    dsimp only
    have hi := (Array.getElem?_eq_some_iff.mp hv).1
    rw [get?_eq, get?_eq, Array.set!_eq_setIfInBounds, Array.getElem?_setIfInBounds]
    by_cases hki : i = k.index
    · rw [if_pos hki, if_pos hi, ← hki, hv]
      obtain ⟨index, version⟩ := k
      dsimp only at hki ⊢
      subst hki
      by_cases hver : v + 1 = version <;> simp [hver, Ne.symm]
    · rw [if_neg hki, if_neg (fun hk => hki (by rw [hk]))]
  · rw [hins]
    dsimp only
    rw [get?_eq, get?_eq, Array.getElem?_push]
    by_cases hki : k.index = m.slots.size
    · rw [if_pos hki, Array.getElem?_eq_none (Nat.le_of_eq hki.symm)]
      obtain ⟨index, version⟩ := k
      dsimp only at hki ⊢
      subst hki
      by_cases hver : version = 1 <;> simp [hver, Ne.symm]
    · rw [if_neg hki, if_neg (fun hk => hki (by rw [hk]))]

theorem Wf.insert (h : m.Wf) (a : α) : (m.insert a).2.Wf := by
  rcases insert_cases h a with ⟨i, rest, v, hfree, hv, hins⟩ | ⟨hfree, hins⟩
  · rw [hins]
    have hnd := h.nodup
    rw [hfree, List.nodup_cons] at hnd
    refine ⟨hnd.2, fun j hj => ?_⟩
    obtain ⟨w, hw⟩ := h.empty j (by rw [hfree]; exact List.mem_cons_of_mem _ hj)
    refine ⟨w, ?_⟩
    rw [Array.set!_eq_setIfInBounds, Array.getElem?_setIfInBounds, if_neg (fun hij => hnd.1 (by rw [hij]; exact hj))]
    exact hw
  · rw [hins]
    exact ⟨List.nodup_nil, by simp⟩

theorem remove_eq_some {a : α} (h : m.remove k = some (a, m')) :
    m.get? k = some a ∧ m' = ⟨m.slots.set! k.index ⟨none, k.version + 1⟩, k.index :: m.free⟩ := by
  unfold remove at h
  split at h
  · rename_i a' ha
    obtain ⟨rfl, rfl⟩ := Prod.mk.inj (Option.some.inj h)
    exact ⟨ha, rfl⟩
  · cases h

/-- What the key of a rewritten slot names. -/
theorem get?_set_self (ha : m.get? k = some a) (s : Slot α) (free : List Nat) :
    (⟨m.slots.set! k.index s, free⟩ : SlotMap α).get? k =
      if s.version = k.version then s.value else none := by
  have hi := (Array.getElem?_eq_some_iff.mp (get?_eq_some_iff.mp ha)).1
  rw [get?_eq, Array.set!_eq_setIfInBounds, Array.getElem?_setIfInBounds, if_pos rfl, if_pos hi]
  rfl

/-- Rewriting the slot of a valid key, at the key's version or emptied, leaves every other key
naming what it named. -/
theorem get?_set_of_ne (ha : m.get? k = some a) {s : Slot α}
    (hs : s.version = k.version ∨ s.value = none) (free : List Nat) (hk : k' ≠ k) :
    (⟨m.slots.set! k.index s, free⟩ : SlotMap α).get? k' = m.get? k' := by
  have hslot := get?_eq_some_iff.mp ha
  rw [get?_eq, get?_eq, Array.set!_eq_setIfInBounds, Array.getElem?_setIfInBounds]
  by_cases hki : k.index = k'.index
  · -- another key of the slot has another version, and names nothing before or after
    have hver : k.version ≠ k'.version := fun hv => hk (by cases k; cases k'; simp_all)
    rw [if_pos hki, if_pos (Array.getElem?_eq_some_iff.mp hslot).1, ← hki, hslot]
    rcases hs with hs | hs <;> simp [hs, hver]
  · rw [if_neg hki]

/-- A removal empties the slot of its key, which then names nothing; every other key names what
it named before. -/
theorem get?_remove {a : α} (h : m.remove k = some (a, m')) (k' : Key) :
    m'.get? k' = if k' = k then none else m.get? k' := by
  obtain ⟨ha, rfl⟩ := remove_eq_some h
  split
  · rename_i hk
    rw [hk, get?_set_self ha, ite_self]
  · exact get?_set_of_ne ha (.inr rfl) _ ‹_›

theorem Wf.remove (hw : m.Wf) {a : α} (h : m.remove k = some (a, m')) : m'.Wf := by
  obtain ⟨ha, rfl⟩ := remove_eq_some h
  have hslot := get?_eq_some_iff.mp ha
  -- the slot held a value, so it was not free
  have hnot : k.index ∉ m.free := fun hk => by
    obtain ⟨v, hv⟩ := hw.empty _ hk
    rw [hslot] at hv
    cases hv
  refine ⟨List.nodup_cons.mpr ⟨hnot, hw.nodup⟩, fun i hi => ?_⟩
  rw [Array.set!_eq_setIfInBounds, Array.getElem?_setIfInBounds]
  rcases List.mem_cons.mp hi with rfl | hi
  · exact ⟨_, by rw [if_pos rfl, if_pos (Array.getElem?_eq_some_iff.mp hslot).1]⟩
  · rw [if_neg (fun hki => hnot (by rw [hki]; exact hi))]
    exact hw.empty i hi

/-- Changing the value of a key changes what that key names and nothing else. -/
theorem get?_modify (k : Key) (f : α → α) (k' : Key) :
    (m.modify k f).get? k' = if k' = k then (m.get? k).map f else m.get? k' := by
  unfold modify
  split
  · rename_i a ha
    rw [ha, Option.map_some]
    split
    · rename_i hk
      rw [hk]
      exact (get?_set_self ha _ _).trans (if_pos rfl)
    · exact get?_set_of_ne ha (.inl rfl) _ ‹_›
  · rename_i ha
    split
    · rename_i hk
      rw [hk, ha]
      rfl
    · rfl

theorem Wf.modify (hw : m.Wf) (k : Key) (f : α → α) : (m.modify k f).Wf := by
  unfold SlotMap.modify
  split
  · rename_i a ha
    have hslot := get?_eq_some_iff.mp ha
    refine ⟨hw.nodup, fun i hi => ?_⟩
    rw [Array.set!_eq_setIfInBounds, Array.getElem?_setIfInBounds]
    -- a free slot is empty, so it is not the modified one
    have hne : k.index ≠ i := fun hki => by
      obtain ⟨v, hv⟩ := hw.empty i hi
      rw [← hki, hslot] at hv
      cases hv
    rw [if_neg hne]
    exact hw.empty i hi
  · exact hw

/-! ### Keys handed out -/

/-- A key the map has handed out: its slot exists at the key's version or a later one, and an
empty slot has moved past every key it handed out. -/
def Issued (m : SlotMap α) (k : Key) : Prop :=
  ∃ s, m.slots[k.index]? = some s ∧ k.version ≤ s.version ∧ (s.value = none → k.version < s.version)

theorem issued_of_get? {a : α} (h : m.get? k = some a) : m.Issued k :=
  ⟨_, get?_eq_some_iff.mp h, le_refl _, fun hv => by cases hv⟩

/-- The key an insert hands out was never handed out before. -/
theorem not_issued_insert_key (h : m.Wf) (a : α) : ¬m.Issued (m.insert a).1 := by
  rintro ⟨s, hs, hle, hlt⟩
  rcases insert_cases h a with ⟨i, rest, v, -, hv, hins⟩ | ⟨-, hins⟩
  · rw [hins] at hs hle hlt
    rw [hv] at hs
    obtain rfl := Option.some.inj hs
    dsimp only at hle
    omega
  · rw [hins, Array.getElem?_eq_none (Nat.le_refl _)] at hs
    cases hs

theorem Issued.insert (h : m.Wf) (a : α) (hk : m.Issued k) : (m.insert a).2.Issued k := by
  obtain ⟨s, hs, hle, hlt⟩ := hk
  rcases insert_cases h a with ⟨i, rest, v, -, hv, hins⟩ | ⟨-, hins⟩
  · rw [hins]
    unfold Issued
    dsimp only
    rw [Array.set!_eq_setIfInBounds, Array.getElem?_setIfInBounds]
    by_cases hki : i = k.index
    · -- the filled slot was empty, so the key is older than its version
      rw [if_pos hki, if_pos (Array.getElem?_eq_some_iff.mp hv).1]
      rw [← hki, hv] at hs
      obtain rfl := Option.some.inj hs
      have hlt := hlt rfl
      dsimp only at hlt
      exact ⟨_, rfl, by dsimp only; omega, fun h => by cases h⟩
    · rw [if_neg hki]
      exact ⟨s, hs, hle, hlt⟩
  · rw [hins]
    unfold Issued
    dsimp only
    rw [Array.getElem?_push, if_neg (fun hki => by
      rw [hki, Array.getElem?_eq_none (Nat.le_refl _)] at hs
      cases hs)]
    exact ⟨s, hs, hle, hlt⟩

theorem Issued.remove {a : α} (h : m.remove k = some (a, m')) (hk : m.Issued k') : m'.Issued k' := by
  obtain ⟨s, hs, hle, hlt⟩ := hk
  obtain ⟨ha, rfl⟩ := remove_eq_some h
  have hslot := get?_eq_some_iff.mp ha
  unfold Issued
  dsimp only
  rw [Array.set!_eq_setIfInBounds, Array.getElem?_setIfInBounds]
  by_cases hki : k.index = k'.index
  · -- the emptied slot moves past the version of its value
    rw [if_pos hki, if_pos (Array.getElem?_eq_some_iff.mp hslot).1]
    rw [← hki, hslot] at hs
    obtain rfl := Option.some.inj hs
    exact ⟨_, rfl, by dsimp only at hle ⊢; omega, fun _ => by dsimp only at hle ⊢; omega⟩
  · rw [if_neg hki]
    exact ⟨s, hs, hle, hlt⟩

end SlotMap

instance : LawfulSlotStore SlotMap where
  Wf := SlotMap.Wf
  Issued := SlotMap.Issued
  wf_empty := SlotMap.wf_empty
  get?_empty _ := rfl
  wf_insert a h := h.insert a
  wf_remove h hrm := h.remove hrm
  wf_modify k f h := h.modify k f
  get?_insert a k h := SlotMap.get?_insert h a k
  get?_remove hrm := SlotMap.get?_remove hrm
  get?_modify k f k' := SlotMap.get?_modify k f k'
  issued_of_get? := SlotMap.issued_of_get?
  not_issued_insert a h := SlotMap.not_issued_insert_key h a
  issued_insert a h hk := SlotMap.Issued.insert h a hk
  issued_remove := SlotMap.Issued.remove

end RenderGraph
