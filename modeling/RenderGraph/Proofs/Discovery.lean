import RenderGraph.Proofs.Consistency
/-!
# Finding the dependencies of passes

`Graph.build` checks the writes of every pass, then looks for the edges into each pass in turn.
This module proves what it finds, for every registry that ingestion returns
(`Graph.build_finds_each_dependency_once`):

* it succeeds exactly when no version is minted by two writes and none is overwritten by two
  writes, in two passes or in one;
* `producerOf?` names the pass that mints a version;
* two passes are joined by an edge exactly when an access of the later one puts the earlier one
  before it: the earlier mints a version the later reads or overwrites, or reads a version the
  later overwrites;
* each pair of passes has one edge, with the version and kind of the first access that puts the
  one before the other, and edges come in the order they are found;
* the predecessors and successors of a pass are the other ends of its edges, once each, in that
  order.

The accesses of a pass are looked at in a fixed order (`PassInfo.accesses`): every version it
consumes (its explicit reads, its bindless reads, then the versions it overwrites) as a read
after write, then every version it overwrites as a write after read.
-/

namespace RenderGraph

open Logged

/-- The accesses of a pass in the order its incoming edges are looked for: every version it
consumes as a read after write, then every version it overwrites as a write after read. -/
def PassInfo.accesses (p : PassInfo) : List (Res × EdgeKind) :=
  (Graph.consumed p).map (·, .readAfterWrite) ++ (p.writes.map (·.resource)).map (·, .writeAfterRead)

namespace Registry

/-- Whether pass `p` mints version `v`: one of its writes has `v` as its output. -/
def mints (r : Registry) (p : Nat) (v : Res) : Bool :=
  ((r.passes[p]?).map fun info => info.writes.any (·.output == some v)).getD false

/-- Whether pass `p` reads version `v`, explicitly or through its bindless table. -/
def reads (r : Registry) (p : Nat) (v : Res) : Bool :=
  ((r.passes[p]?).map fun info => info.readVersions.contains v).getD false

/-- The accesses of pass `c`; none past the last pass. -/
def accesses (r : Registry) (c : Nat) : List (Res × EdgeKind) :=
  ((r.passes[c]?).map PassInfo.accesses).getD []

/-- Whether an access of pass `c` puts pass `p` before it: `p` mints the version that `c`
consumes, or `p` is another pass that reads the version `c` overwrites. -/
def justifies (r : Registry) (p c : Nat) : Res × EdgeKind → Bool
  | (v, .readAfterWrite) => r.mints p v
  | (v, .writeAfterRead) => p != c && r.reads p v

/-- The position, among the accesses of pass `c`, of the first one that puts `p` before `c`. -/
def firstReason (r : Registry) (p c : Nat) : Nat := (r.accesses c).findIdx (r.justifies p c)

/-- The versions the writes of all passes mint, pass by pass. -/
def mintedVersions (r : Registry) : List Res :=
  r.passes.toList.flatMap fun p => p.writes.filterMap (·.output)

/-- The versions the writes of all passes overwrite, pass by pass. -/
def overwrittenVersions (r : Registry) : List Res :=
  r.passes.toList.flatMap fun p => p.writes.map (·.resource)

end Registry

/-- The two passes an edge joins. -/
def Edge.ends (e : Edge) : Nat × Nat := (e.producer, e.consumer)

namespace Graph

/-! ### Checking the writes -/

section Writes

variable {passes : Array PassInfo} {idx : Nat} {pass : PassInfo}

/-- The keys of an association list. -/
def keys (t : List (Res × Nat)) : List Res := t.map (·.1)

theorem lookup_eq_none_iff {t : List (Res × Nat)} {v : Res} : lookup t v = none ↔ v ∉ keys t := by
  simp only [lookup, keys, Option.map_eq_none_iff, List.find?_eq_none, beq_iff_eq, List.mem_map]
  constructor
  · rintro h ⟨x, hx, rfl⟩
    exact h x hx rfl
  · exact fun h x hx hxv => h ⟨x, hx, hxv⟩

/-- A look-up in a table whose keys are distinct finds the entry of its key. -/
theorem lookup_eq_some_iff {t : List (Res × Nat)} (ht : (keys t).Nodup) {v : Res} {p : Nat} :
    lookup t v = some p ↔ (v, p) ∈ t := by
  induction t with
  | nil => simp [lookup]
  | cons x rest ih =>
    obtain ⟨a, q⟩ := x
    obtain ⟨hx, hrest⟩ := List.nodup_cons.mp ht
    by_cases hv : a = v
    · -- the head holds the key, and no other entry does
      subst hv
      have hnot : (a, p) ∉ rest := fun h => hx (List.mem_map.mpr ⟨(a, p), h, rfl⟩)
      simp only [lookup, List.find?_cons, beq_self_eq_true, Option.map_some, Option.some.injEq,
        List.mem_cons, Prod.mk.injEq, true_and, hnot, or_false]
      exact eq_comm
    · have hne : (a == v) = false := by simpa using hv
      have hmem : (v, p) ∈ (a, q) :: rest ↔ (v, p) ∈ rest := by
        simp [Ne.symm hv]
      rw [hmem, ← ih hrest]
      simp [lookup, hne]

/-- One write checks out when it has an output that no write minted before and overwrites a
version that no write overwrote before; then the check goes on with both recorded. -/
theorem recordWrites_cons_eq_ok {w : Interaction} {rest : List Interaction}
    {minted overwritten : List (Res × Nat)} {t : List (Res × Nat) × List (Res × Nat)} :
    recordWrites passes idx pass (w :: rest) (minted, overwritten) = .ok t ↔
      ∃ o, w.output = some o ∧ o ∉ keys minted ∧ w.resource ∉ keys overwritten ∧
        recordWrites passes idx pass rest (minted ++ [(o, idx)], overwritten ++ [(w.resource, idx)]) =
          .ok t := by
  rw [recordWrites.eq_2]
  rcases hout : w.output with _ | o
  · simp only [reduceCtorEq, false_and, exists_false, iff_false]
    intro h
    obtain ⟨_, hthrow, -⟩ := Except.exists_of_bind_eq_ok h
    cases hthrow
  simp only [Option.some.injEq, exists_eq_left', ← lookup_eq_none_iff, pure_bind]
  rcases hm : lookup minted o with _ | first
  · rcases hw : lookup overwritten w.resource with _ | first'
    · simp only [true_and]
    · simp only [reduceCtorEq, false_and, and_false, iff_false]
      intro h
      obtain ⟨_, hthrow, -⟩ := Except.exists_of_bind_eq_ok h
      cases hthrow
  · simp only [reduceCtorEq, false_and, iff_false]
    intro h
    obtain ⟨_, hthrow, -⟩ := Except.exists_of_bind_eq_ok h
    cases hthrow

/-- The writes of a pass check out exactly when their outputs are new and distinct, and so are
the versions they overwrite; both are then recorded for the pass, in order. -/
theorem recordWrites_eq_ok_iff : ∀ {ws : List Interaction} {minted overwritten : List (Res × Nat)}
    {t : List (Res × Nat) × List (Res × Nat)}, (∀ w ∈ ws, w.output.isSome) →
    (keys minted).Nodup → (keys overwritten).Nodup →
    (recordWrites passes idx pass ws (minted, overwritten) = .ok t ↔
      (keys minted ++ ws.filterMap (·.output)).Nodup ∧
        (keys overwritten ++ ws.map (·.resource)).Nodup ∧
        t = (minted ++ (ws.filterMap (·.output)).map (·, idx),
          overwritten ++ (ws.map (·.resource)).map (·, idx)))
  | [], minted, overwritten, t, _, hm, ho => by
    simp only [recordWrites.eq_1, Except.ok.injEq, List.filterMap_nil, List.append_nil, hm,
      List.map_nil, ho, true_and]
    exact eq_comm
  | w :: rest, minted, overwritten, t, hws, hm, ho => by
    obtain ⟨o, ho'⟩ := Option.isSome_iff_exists.mp (hws w List.mem_cons_self)
    have hrest : ∀ w ∈ rest, w.output.isSome := fun w hw => hws w (List.mem_cons_of_mem _ hw)
    have hkm : keys (minted ++ [(o, idx)]) = keys minted ++ [o] := by simp [keys]
    have hko : keys (overwritten ++ [(w.resource, idx)]) = keys overwritten ++ [w.resource] := by
      simp [keys]
    rw [recordWrites_cons_eq_ok]
    simp only [ho', Option.some.injEq, exists_eq_left', List.filterMap_cons_some, List.map_cons]
    constructor
    · rintro ⟨hom, hwo, h⟩
      have hm' : (keys (minted ++ [(o, idx)])).Nodup := by
        rw [hkm, List.nodup_append]
        exact ⟨hm, List.nodup_singleton o, fun a ha b hb => by
          rw [List.mem_singleton.mp hb]; rintro rfl; exact hom ha⟩
      have ho'' : (keys (overwritten ++ [(w.resource, idx)])).Nodup := by
        rw [hko, List.nodup_append]
        exact ⟨ho, List.nodup_singleton _, fun a ha b hb => by
          rw [List.mem_singleton.mp hb]; rintro rfl; exact hwo ha⟩
      obtain ⟨h1, h2, rfl⟩ := (recordWrites_eq_ok_iff hrest hm' ho'').mp h
      rw [hkm] at h1
      rw [hko] at h2
      simp only [List.append_assoc, List.singleton_append] at h1 h2 ⊢
      exact ⟨h1, h2, trivial⟩
    · rintro ⟨h1, h2, rfl⟩
      have hom : o ∉ keys minted := fun h => (List.nodup_middle.mp h1 |> List.nodup_cons.mp).1
        (List.mem_append_left _ h)
      have hwo : w.resource ∉ keys overwritten := fun h =>
        (List.nodup_middle.mp h2 |> List.nodup_cons.mp).1 (List.mem_append_left _ h)
      refine ⟨hom, hwo, ?_⟩
      have hm' : (keys (minted ++ [(o, idx)])).Nodup := by
        rw [hkm]
        exact List.Nodup.sublist (by simp) h1
      have ho'' : (keys (overwritten ++ [(w.resource, idx)])).Nodup := by
        rw [hko]
        exact List.Nodup.sublist (by simp) h2
      refine (recordWrites_eq_ok_iff hrest hm' ho'').mpr ⟨?_, ?_, ?_⟩
      · rw [hkm]
        simpa only [List.append_assoc, List.singleton_append] using h1
      · rw [hko]
        simpa only [List.append_assoc, List.singleton_append] using h2
      · simp only [List.append_assoc, List.singleton_append]

/-- The writes of the pass at an index; none past the last pass. -/
def writesAt (passes : Array PassInfo) (i : Nat) : List Interaction :=
  ((passes[i]?).map (·.writes)).getD []

/-- The versions minted at the indices of `L`, each with the index of the pass that mints it. -/
def mintedAt (passes : Array PassInfo) (L : List Nat) : List (Res × Nat) :=
  L.flatMap fun i => ((writesAt passes i).filterMap (·.output)).map (·, i)

/-- The versions overwritten at the indices of `L`, each with the index of the pass. -/
def overwrittenAt (passes : Array PassInfo) (L : List Nat) : List (Res × Nat) :=
  L.flatMap fun i => ((writesAt passes i).map (·.resource)).map (·, i)

theorem keys_mintedAt (L : List Nat) :
    keys (mintedAt passes L) = L.flatMap fun i => (writesAt passes i).filterMap (·.output) := by
  simp [keys, mintedAt, List.map_flatMap, Function.comp_def]

theorem keys_overwrittenAt (L : List Nat) :
    keys (overwrittenAt passes L) = L.flatMap fun i => (writesAt passes i).map (·.resource) := by
  simp [keys, overwrittenAt, List.map_flatMap, Function.comp_def]

@[simp] theorem keys_append (a b : List (Res × Nat)) : keys (a ++ b) = keys a ++ keys b :=
  List.map_append

@[simp] theorem keys_map_pair (l : List Res) (i : Nat) : keys (l.map (·, i)) = l := by
  simp [keys, Function.comp_def]

/-- A fold that checks the writes of the passes at the indices of `L` succeeds exactly when the
versions they mint, and those they overwrite, are new and distinct; it records them all. -/
theorem foldlM_recordWrites_eq_ok_iff
    {f : List (Res × Nat) × List (Res × Nat) → Nat →
      Except ConfigError (List (Res × Nat) × List (Res × Nat))} :
    ∀ {L : List Nat} {minted overwritten : List (Res × Nat)}
      {t : List (Res × Nat) × List (Res × Nat)},
    (∀ i ∈ L, ∃ p, passes[i]? = some p ∧ (∀ w ∈ p.writes, w.output.isSome) ∧
      ∀ acc, f acc i = recordWrites passes i p p.writes acc) →
    (keys minted).Nodup → (keys overwritten).Nodup →
    (L.foldlM f (minted, overwritten) = .ok t ↔
      (keys minted ++ keys (mintedAt passes L)).Nodup ∧
        (keys overwritten ++ keys (overwrittenAt passes L)).Nodup ∧
        t = (minted ++ mintedAt passes L, overwritten ++ overwrittenAt passes L))
  | [], minted, overwritten, t, _, hm, ho => by
    simp only [List.foldlM_nil, mintedAt, overwrittenAt, List.flatMap_nil, keys, List.map_nil,
      List.append_nil]
    simp only [keys] at hm ho
    simp only [hm, ho, true_and]
    exact ⟨fun h => (Except.ok.inj h).symm, fun h => by rw [h]; rfl⟩
  | i :: L, minted, overwritten, t, hf, hm, ho => by
    obtain ⟨p, hp, hout, hfi⟩ := hf i List.mem_cons_self
    have hL := fun j hj => hf j (List.mem_cons_of_mem i hj)
    have hw : writesAt passes i = p.writes := by simp [writesAt, hp]
    -- the pass at `i` contributes its writes first, the rest of `L` after them
    have hmi : mintedAt passes (i :: L) =
        (p.writes.filterMap (·.output)).map (·, i) ++ mintedAt passes L := by
      simp [mintedAt, hw]
    have hoi : overwrittenAt passes (i :: L) =
        (p.writes.map (·.resource)).map (·, i) ++ overwrittenAt passes L := by
      simp [overwrittenAt, hw]
    rw [List.foldlM_cons, hfi, hmi, hoi]
    simp only [keys_append, keys_map_pair, ← List.append_assoc]
    constructor
    · intro h
      obtain ⟨t', h1, h2⟩ := Except.exists_of_bind_eq_ok h
      obtain ⟨hn1, hn2, rfl⟩ := (recordWrites_eq_ok_iff hout hm ho).mp h1
      have hm' : (keys (minted ++ (p.writes.filterMap (·.output)).map (·, i))).Nodup := by
        simpa only [keys_append, keys_map_pair] using hn1
      have ho' : (keys (overwritten ++ (p.writes.map (·.resource)).map (·, i))).Nodup := by
        simpa only [keys_append, keys_map_pair] using hn2
      obtain ⟨hn3, hn4, rfl⟩ := (foldlM_recordWrites_eq_ok_iff hL hm' ho').mp h2
      simp only [keys_append, keys_map_pair] at hn3 hn4
      exact ⟨hn3, hn4, by simp only [List.append_assoc]⟩
    · rintro ⟨hn3, hn4, rfl⟩
      have hn1 := hn3.sublist (List.sublist_append_left _ _)
      have hn2 := hn4.sublist (List.sublist_append_left _ _)
      rw [(recordWrites_eq_ok_iff hout hm ho).mpr ⟨hn1, hn2, rfl⟩]
      have hm' : (keys (minted ++ (p.writes.filterMap (·.output)).map (·, i))).Nodup := by
        simpa only [keys_append, keys_map_pair] using hn1
      have ho' : (keys (overwritten ++ (p.writes.map (·.resource)).map (·, i))).Nodup := by
        simpa only [keys_append, keys_map_pair] using hn2
      refine (foldlM_recordWrites_eq_ok_iff hL hm' ho').mpr ⟨?_, ?_, ?_⟩
      · simpa only [keys_append, keys_map_pair] using hn3
      · simpa only [keys_append, keys_map_pair] using hn4
      · simp only [List.append_assoc]

/-- Gathering per index over all passes is gathering per pass. -/
theorem flatMap_range_writesAt {β : Type} (g : List Interaction → List β) :
    (List.range passes.size).flatMap (fun i => g (writesAt passes i)) =
      passes.toList.flatMap fun p => g p.writes := by
  simp only [List.flatMap]
  congr 1
  refine List.ext_getElem (by simp) fun i h1 h2 => ?_
  have hi : i < passes.size := by simpa using h1
  simp [writesAt, Array.getElem?_eq_getElem hi]

/-- Checking the writes of all passes, whose writes all have outputs, succeeds exactly when no
version is minted twice and none is overwritten twice; it returns who mints each version. -/
theorem collectProducers_eq_ok_iff (hout : ∀ p ∈ passes, ∀ w ∈ p.writes, w.output.isSome)
    {producers : List (Res × Nat)} :
    collectProducers passes = .ok producers ↔
      (keys (mintedAt passes (List.range passes.size))).Nodup ∧
        (keys (overwrittenAt passes (List.range passes.size))).Nodup ∧
        producers = mintedAt passes (List.range passes.size) := by
  unfold collectProducers
  constructor
  · intro h
    obtain ⟨t, ht, h⟩ := Except.exists_of_bind_eq_ok h
    rw [foldlM_recordWrites_eq_ok_iff ?hf (by simp [keys]) (by simp [keys])] at ht
    case hf =>
      intro i hi
      have hi := List.mem_range.mp hi
      exact ⟨passes[i], Array.getElem?_eq_getElem hi, hout _ (Array.getElem_mem hi),
        fun acc => by simp [Array.getElem?_eq_getElem hi]⟩
    obtain ⟨h1, h2, rfl⟩ := ht
    cases h
    exact ⟨h1, h2, rfl⟩
  · rintro ⟨h1, h2, rfl⟩
    rw [(foldlM_recordWrites_eq_ok_iff ?hf (by simp [keys]) (by simp [keys])).mpr
      ⟨by simpa [keys] using h1, by simpa [keys] using h2, rfl⟩]
    case hf =>
      intro i hi
      have hi := List.mem_range.mp hi
      exact ⟨passes[i], Array.getElem?_eq_getElem hi, hout _ (Array.getElem_mem hi),
        fun acc => by simp [Array.getElem?_eq_getElem hi]⟩
    rfl

end Writes

/-! ### Keeping the first edge of each pair -/

section Dedup

/-- `addEdge` keeps the edges when one joins the same two passes, and appends the edge otherwise. -/
theorem addEdge_cases (acc : List Edge) (e : Edge) :
    (addEdge acc e = acc ∧ ∃ x ∈ acc, x.ends = e.ends) ∨
      (addEdge acc e = acc ++ [e] ∧ ∀ x ∈ acc, x.ends ≠ e.ends) := by
  unfold addEdge
  split
  · rename_i h
    obtain ⟨x, hx, hxe⟩ := List.any_eq_true.mp h
    simp only [Bool.and_eq_true, beq_iff_eq] at hxe
    exact .inl ⟨rfl, x, hx, by simp [Edge.ends, hxe.1, hxe.2]⟩
  · rename_i h
    refine .inr ⟨rfl, fun x hx hxe => h (List.any_eq_true.mpr ⟨x, hx, ?_⟩)⟩
    simp only [Edge.ends, Prod.mk.injEq] at hxe
    simp [hxe.1, hxe.2]

variable {L acc : List Edge}

/-- The kept edges join distinct pairs of passes. -/
theorem nodup_ends_foldl_addEdge (h : (acc.map Edge.ends).Nodup) :
    ((L.foldl addEdge acc).map Edge.ends).Nodup := by
  induction L generalizing acc with
  | nil => exact h
  | cons e L ih =>
    apply ih
    rcases addEdge_cases acc e with ⟨he, -⟩ | ⟨he, hnew⟩
    · rwa [he]
    · rw [he, List.map_append, List.nodup_append]
      refine ⟨h, List.nodup_singleton _, fun a ha b hb => ?_⟩
      obtain ⟨x, hx, rfl⟩ := List.mem_map.mp ha
      rw [List.map_singleton, List.mem_singleton] at hb
      exact hb ▸ hnew x hx

/-- Every pair joined by a found edge stays joined, by the edge first found. -/
theorem exists_ends_foldl_addEdge {q : Nat × Nat} :
    (∃ e ∈ L.foldl addEdge acc, e.ends = q) ↔ (∃ e ∈ acc, e.ends = q) ∨ ∃ e ∈ L, e.ends = q := by
  induction L generalizing acc with
  | nil => simp
  | cons e L ih =>
    rw [List.foldl_cons, ih]
    rcases addEdge_cases acc e with ⟨he, x, hx, hxe⟩ | ⟨he, -⟩
    · rw [he]
      constructor
      · rintro (h | ⟨y, hy, hyq⟩)
        · exact .inl h
        · exact .inr ⟨y, List.mem_cons_of_mem e hy, hyq⟩
      · rintro (h | ⟨y, hy, hyq⟩)
        · exact .inl h
        rcases List.mem_cons.mp hy with rfl | hy
        · exact .inl ⟨x, hx, hxe.trans hyq⟩
        · exact .inr ⟨y, hy, hyq⟩
    · rw [he]
      simp only [List.mem_append, List.mem_cons, List.not_mem_nil, or_false]
      constructor
      · rintro (⟨y, hy | rfl, hyq⟩ | ⟨y, hy, hyq⟩)
        · exact .inl ⟨y, hy, hyq⟩
        · exact .inr ⟨y, .inl rfl, hyq⟩
        · exact .inr ⟨y, .inr hy, hyq⟩
      · rintro (⟨y, hy, hyq⟩ | ⟨y, rfl | hy, hyq⟩)
        · exact .inl ⟨y, .inl hy, hyq⟩
        · exact .inl ⟨y, .inr rfl, hyq⟩
        · exact .inr ⟨y, hy, hyq⟩

/-- A kept edge was there before, or was met when no edge met earlier joined its passes. -/
theorem mem_foldl_addEdge {e : Edge} (h : e ∈ L.foldl addEdge acc) :
    e ∈ acc ∨ ∃ L₁ L₂, L = L₁ ++ e :: L₂ ∧ ∀ x ∈ acc ++ L₁, x.ends ≠ e.ends := by
  induction L generalizing acc with
  | nil => exact .inl h
  | cons y L ih =>
    rcases ih h with h | ⟨L₁, L₂, rfl, hnew⟩
    · rcases addEdge_cases acc y with ⟨hy, -⟩ | ⟨hy, hnew⟩
      · rw [hy] at h
        exact .inl h
      · rw [hy, List.mem_append, List.mem_singleton] at h
        rcases h with h | rfl
        · exact .inl h
        · exact .inr ⟨[], L, rfl, by simpa using hnew⟩
    · refine .inr ⟨y :: L₁, L₂, rfl, fun x hx => ?_⟩
      -- the edge met at the head is kept, or joins the same passes as one kept before it
      rcases addEdge_cases acc y with ⟨hy, z, hz, hzy⟩ | ⟨hy, -⟩
      · rw [hy] at hnew
        simp only [List.mem_append, List.mem_cons] at hx
        rcases hx with hx | rfl | hx
        · exact hnew x (List.mem_append_left _ hx)
        · exact hzy ▸ hnew z (List.mem_append_left _ hz)
        · exact hnew x (List.mem_append_right _ hx)
      · rw [hy] at hnew
        apply hnew
        simpa using hx

/-- The kept edges are ordered by `R` when every edge that joins new passes is preceded, under
`R`, by every edge met or kept before it. -/
theorem pairwise_foldl_addEdge {R : Edge → Edge → Prop} (hacc : acc.Pairwise R)
    (hL : ∀ L₁ e L₂, L = L₁ ++ e :: L₂ → (∀ x ∈ acc ++ L₁, x.ends ≠ e.ends) →
      ∀ x ∈ acc ++ L₁, R x e) :
    (L.foldl addEdge acc).Pairwise R := by
  induction L generalizing acc with
  | nil => exact hacc
  | cons y L ih =>
    rcases addEdge_cases acc y with ⟨hy, z, hz, hzy⟩ | ⟨hy, hnew⟩
    · rw [List.foldl_cons, hy]
      refine ih hacc fun L₁ e L₂ hL₁ hne x hx => ?_
      -- an edge that joins the head's passes was kept before the head
      have hne' : ∀ x ∈ acc ++ y :: L₁, x.ends ≠ e.ends := by
        intro x hx
        simp only [List.mem_append, List.mem_cons] at hx
        rcases hx with hx | rfl | hx
        · exact hne x (List.mem_append_left _ hx)
        · exact hzy ▸ hne z (List.mem_append_left _ hz)
        · exact hne x (List.mem_append_right _ hx)
      refine hL (y :: L₁) e L₂ (by rw [hL₁]; rfl) hne' x ?_
      simp only [List.mem_append, List.mem_cons] at hx ⊢
      tauto
    · rw [List.foldl_cons, hy]
      refine ih ?_ fun L₁ e L₂ hL₁ hne x hx => ?_
      · refine List.pairwise_append.mpr ⟨hacc, List.pairwise_singleton _ _, fun x hx z hz => ?_⟩
        rw [List.mem_singleton.mp hz]
        exact hL [] y L rfl (by simpa using hnew) x (by simpa using hx)
      · refine hL (y :: L₁) e L₂ (by rw [hL₁]; rfl) (fun x hx => hne x ?_) x ?_
        · simpa using hx
        · simpa using hx

end Dedup

/-! ### Where edges are looked for -/

section Candidates

variable {r : Registry} {producers : List (Res × Nat)}

/-- The passes an access of pass `c` puts before it, in the order they are found: the pass that
mints the version it consumes, or every other pass that reads the version it overwrites. -/
def finders (passes : Array PassInfo) (producers : List (Res × Nat)) (c : Nat) :
    Res × EdgeKind → List Nat
  | (v, .readAfterWrite) => (lookup producers v).toList
  | (v, .writeAfterRead) => (readersOf passes v).filter (· ≠ c)

/-- The edges the accesses `accs` of pass `c` find, access by access, each with the position of
its access. -/
def candidatesAt (passes : Array PassInfo) (producers : List (Res × Nat)) (c : Nat)
    (accs : List (Res × EdgeKind)) (k : Nat) : List (Edge × Nat) :=
  (accs.zipIdx k).flatMap fun a =>
    (finders passes producers c a.1).map fun x => (⟨x, c, a.1.1, a.1.2⟩, a.2)

/-- Every edge `collectEdges` meets, in the order it meets them, each with the position of the
access that finds it among the accesses of its consumer. -/
def candidates (passes : Array PassInfo) (producers : List (Res × Nat)) : List (Edge × Nat) :=
  (List.range passes.size).flatMap fun c =>
    candidatesAt passes producers c (((passes[c]?).map PassInfo.accesses).getD []) 0

/-- The edges into a pass are those its accesses find, access by access. -/
theorem edgesInto_eq (passes : Array PassInfo) (idx : Nat) (p : PassInfo) :
    edgesInto passes producers idx p =
      p.accesses.flatMap fun a => (finders passes producers idx a).map fun x => ⟨x, idx, a.1, a.2⟩ := by
  unfold edgesInto PassInfo.accesses
  simp only [List.flatMap_append, List.flatMap_map, List.filterMap_eq_flatMap_toList, finders,
    Option.toList_map]

theorem map_fst_candidatesAt (passes : Array PassInfo) (c : Nat) :
    ∀ (accs : List (Res × EdgeKind)) (k : Nat), (candidatesAt passes producers c accs k).map Prod.fst =
      accs.flatMap fun a => (finders passes producers c a).map fun x => ⟨x, c, a.1, a.2⟩
  | [], _ => rfl
  | a :: accs, k => by
    rw [candidatesAt, List.zipIdx_cons, List.flatMap_cons, List.map_append, ← candidatesAt,
      map_fst_candidatesAt passes c accs (k + 1), List.flatMap_cons, List.map_map]
    rfl

/-- `collectEdges` keeps, of the edges it meets, the first that joins each pair of passes. -/
theorem collectEdges_eq (passes : Array PassInfo) :
    collectEdges passes producers = ((candidates passes producers).map Prod.fst).foldl addEdge [] := by
  unfold collectEdges candidates
  rw [List.map_flatMap, List.foldl_flatMap]
  congr 1
  funext edges c
  split
  · rename_i p hp
    rw [hp, Option.map_some, Option.getD_some, map_fst_candidatesAt, edgesInto_eq]
  · rename_i hp
    rw [hp]
    rfl

/-- The finders of an access are in increasing order. -/
theorem finders_sorted (passes : Array PassInfo) (c : Nat) (a : Res × EdgeKind) :
    (finders passes producers c a).Pairwise (· < ·) := by
  obtain ⟨v, _ | _⟩ := a
  · cases lookup producers v <;> simp [finders]
  · exact (List.pairwise_lt_range.filter _).filter _

theorem zipIdx_sorted {α : Type} : ∀ (l : List α) (k : Nat), (l.zipIdx k).Pairwise (·.2 < ·.2)
  | [], _ => List.Pairwise.nil
  | x :: l, k => by
    rw [List.zipIdx_cons, List.pairwise_cons]
    exact ⟨fun b hb => Nat.lt_of_lt_of_le (Nat.lt_succ_self k) (List.le_snd_of_mem_zipIdx hb),
      zipIdx_sorted l (k + 1)⟩

/-- The candidates come consumer by consumer, access by access, and by increasing producer. -/
def ScanOrder (x y : Edge × Nat) : Prop :=
  x.1.consumer < y.1.consumer ∨
    x.1.consumer = y.1.consumer ∧ (x.2 < y.2 ∨ x.2 = y.2 ∧ x.1.producer < y.1.producer)

theorem candidatesAt_sorted (passes : Array PassInfo) (c : Nat) (accs : List (Res × EdgeKind))
    (k : Nat) : (candidatesAt passes producers c accs k).Pairwise ScanOrder := by
  refine List.pairwise_flatMap.mpr ⟨fun a _ => ?_, ?_⟩
  · -- one access: its finders in increasing order
    refine List.pairwise_map.mpr ((finders_sorted passes c a.1).imp fun hxy => ?_)
    exact .inr ⟨rfl, .inr ⟨rfl, hxy⟩⟩
  · refine (zipIdx_sorted _ k).imp fun hab x hx y hy => ?_
    obtain ⟨_, -, rfl⟩ := List.mem_map.mp hx
    obtain ⟨_, -, rfl⟩ := List.mem_map.mp hy
    exact .inr ⟨rfl, .inl hab⟩

theorem consumer_of_mem_candidatesAt {passes : Array PassInfo} {c : Nat}
    {accs : List (Res × EdgeKind)} {k : Nat} {x : Edge × Nat}
    (hx : x ∈ candidatesAt passes producers c accs k) : x.1.consumer = c := by
  obtain ⟨_, -, hx⟩ := List.mem_flatMap.mp hx
  obtain ⟨_, -, rfl⟩ := List.mem_map.mp hx
  rfl

theorem candidates_sorted (passes : Array PassInfo) (producers : List (Res × Nat)) :
    (candidates passes producers).Pairwise ScanOrder := by
  refine List.pairwise_flatMap.mpr ⟨fun c _ => candidatesAt_sorted passes c _ 0, ?_⟩
  refine List.pairwise_lt_range.imp fun hcd x hx y hy => .inl ?_
  rw [consumer_of_mem_candidatesAt hx, consumer_of_mem_candidatesAt hy]
  exact hcd

/-- An edge is met, with a position, exactly when the access at that position of its consumer
finds its producer. -/
theorem mem_candidates {e : Edge} {k : Nat} :
    (e, k) ∈ candidates r.passes producers ↔
      (r.accesses e.consumer)[k]? = some (e.resource, e.kind) ∧
        e.producer ∈ finders r.passes producers e.consumer (e.resource, e.kind) := by
  obtain ⟨x, c, v, kind⟩ := e
  simp only [candidates, candidatesAt, List.mem_flatMap, List.mem_range, List.mem_map,
    Prod.mk.injEq, Edge.mk.injEq, Registry.accesses]
  constructor
  · rintro ⟨c, -, ⟨a, k'⟩, hak, x', hx', ⟨rfl, rfl, rfl, rfl⟩, rfl⟩
    exact ⟨List.mem_zipIdx_iff_getElem?.mp hak, hx'⟩
  · rintro ⟨hk, hx⟩
    have hc : c < r.passes.size := by
      by_contra hc
      rw [Array.getElem?_eq_none (by omega)] at hk
      simp at hk
    exact ⟨c, hc, ((v, kind), k), List.mem_zipIdx_iff_getElem?.mpr hk, x, hx, ⟨rfl, rfl, rfl, rfl⟩, rfl⟩

end Candidates

/-! ### The edges of a built graph -/

section Laws

variable {r : Registry} {producers : List (Res × Nat)}

/-- Edge `a` is found before edge `b`: its consumer comes first; or both share the consumer, and
the first access that puts `a`'s producer before it comes first, or both are put there by one
access and `a`'s producer comes first. -/
def FoundBefore (r : Registry) (a b : Edge) : Prop :=
  a.consumer < b.consumer ∨ a.consumer = b.consumer ∧
    (r.firstReason a.producer a.consumer < r.firstReason b.producer b.consumer ∨
      r.firstReason a.producer a.consumer = r.firstReason b.producer b.consumer ∧
        a.producer < b.producer)

/-- An access finds exactly the passes it puts before its pass, once the producers table names
the pass that mints each version. -/
theorem mem_finders (hprod : ∀ v x, lookup producers v = some x ↔ r.mints x v = true)
    {x c : Nat} {a : Res × EdgeKind} :
    x ∈ finders r.passes producers c a ↔ r.justifies x c a = true := by
  obtain ⟨v, _ | _⟩ := a
  · simp [finders, Registry.justifies, hprod]
  · simp only [finders, readersOf, List.mem_filter, List.mem_range, Registry.justifies,
      Registry.reads, Bool.and_eq_true, bne_iff_ne, ne_eq, decide_eq_true_eq]
    constructor
    · rintro ⟨⟨-, h⟩, hc⟩
      exact ⟨hc, h⟩
    · rintro ⟨hc, h⟩
      refine ⟨⟨?_, h⟩, hc⟩
      by_contra hx
      rw [Array.getElem?_eq_none (by omega)] at h
      cases h

/-- A position splits the candidates around an edge that `collectEdges` met there. -/
theorem exists_split_candidates {L₁ L₂ : List Edge} {e : Edge}
    (h : (candidates r.passes producers).map Prod.fst = L₁ ++ e :: L₂) :
    ∃ T₁ T₂ k, candidates r.passes producers = T₁ ++ (e, k) :: T₂ ∧ T₁.map Prod.fst = L₁ := by
  obtain ⟨T₁, l₂, hT, rfl, hl₂⟩ := List.map_eq_append_iff.mp h
  obtain ⟨⟨e', k⟩, T₂, rfl, rfl, -⟩ := List.map_eq_cons_iff.mp hl₂
  exact ⟨T₁, T₂, k, hT, rfl⟩

/-- The first access that puts `p` before `c` comes no later than any access that does. -/
theorem firstReason_le {p c k : Nat} {a : Res × EdgeKind} (hk : (r.accesses c)[k]? = some a)
    (ha : r.justifies p c a = true) : r.firstReason p c ≤ k := by
  by_contra hlt
  obtain ⟨_, hka⟩ := List.getElem?_eq_some_iff.mp hk
  have hfalse := List.not_of_lt_findIdx (Nat.lt_of_not_le hlt)
  rw [hka, ha] at hfalse
  cases hfalse

/-- An edge met when no edge met before joins its passes is found by the first access of its
consumer that puts its producer before it. -/
theorem first_access_of_new (hprod : ∀ v x, lookup producers v = some x ↔ r.mints x v = true)
    {T₁ T₂ : List (Edge × Nat)} {e : Edge} {k : Nat}
    (hsplit : candidates r.passes producers = T₁ ++ (e, k) :: T₂)
    (hnew : ∀ x ∈ T₁, x.1.ends ≠ e.ends) :
    (r.accesses e.consumer)[k]? = some (e.resource, e.kind) ∧
      r.justifies e.producer e.consumer (e.resource, e.kind) = true ∧
      ∀ j < k, ∀ a, (r.accesses e.consumer)[j]? = some a →
        r.justifies e.producer e.consumer a = false := by
  have hmem : (e, k) ∈ candidates r.passes producers := by
    rw [hsplit]
    exact List.mem_append_right _ List.mem_cons_self
  obtain ⟨hk, hfind⟩ := mem_candidates.mp hmem
  refine ⟨hk, (mem_finders hprod).mp hfind, fun j hj a ha => ?_⟩
  -- an earlier access that found the producer would have met the same pair earlier
  by_contra hjust
  have hy : (⟨e.producer, e.consumer, a.1, a.2⟩, j) ∈ candidates r.passes producers :=
    mem_candidates.mpr ⟨ha, (mem_finders hprod).mpr (by simpa using hjust)⟩
  have hsorted := candidates_sorted r.passes producers
  rw [hsplit] at hy hsorted
  rcases List.mem_append.mp hy with hy | hy
  · exact hnew _ hy rfl
  rcases List.mem_cons.mp hy with hy | hy
  · rw [(Prod.mk.inj hy).2] at hj
    exact Nat.lt_irrefl _ hj
  · have hq := (List.pairwise_cons.mp (List.pairwise_append.mp hsorted).2.1).1 _ hy
    rcases hq with hq | ⟨-, hq | ⟨rfl, -⟩⟩
    · exact Nat.lt_irrefl _ hq
    · exact Nat.lt_asymm hq hj
    · exact Nat.lt_irrefl _ hj

/-- The first access found, at its position, is the one `find?` returns and `firstReason` names. -/
theorem find?_firstReason {p c k : Nat} {a : Res × EdgeKind} (hk : (r.accesses c)[k]? = some a)
    (ha : r.justifies p c a = true)
    (hbefore : ∀ j < k, ∀ a', (r.accesses c)[j]? = some a' → r.justifies p c a' = false) :
    (r.accesses c).find? (r.justifies p c) = some a ∧ r.firstReason p c = k := by
  obtain ⟨hk', hka⟩ := List.getElem?_eq_some_iff.mp hk
  have hb : ∀ j (hj : j < (r.accesses c).length), j < k →
      r.justifies p c (r.accesses c)[j] = false :=
    fun j _ hjk => hbefore j hjk _ (List.getElem?_eq_getElem _)
  exact ⟨List.find?_eq_some_iff_getElem.mpr
      ⟨ha, k, hk', hka, fun j hj => by simp [hb j (Nat.lt_trans hj hk') hj]⟩,
    (List.findIdx_eq hk').mpr ⟨hka ▸ ha, fun j hj => hb j (Nat.lt_trans hj hk') hj⟩⟩

variable (hprod : ∀ v x, lookup producers v = some x ↔ r.mints x v = true)
include hprod

/-- Every kept edge is found by the first access of its consumer that puts its producer before
it, at the position `firstReason` names. -/
theorem collectEdges_found {e : Edge} (he : e ∈ collectEdges r.passes producers) :
    ∃ k, (r.accesses e.consumer)[k]? = some (e.resource, e.kind) ∧
      (r.accesses e.consumer).find? (r.justifies e.producer e.consumer) = some (e.resource, e.kind) ∧
      r.firstReason e.producer e.consumer = k := by
  rw [collectEdges_eq] at he
  rcases mem_foldl_addEdge he with he | ⟨L₁, L₂, hL, hnew⟩
  · cases he
  obtain ⟨T₁, T₂, k, hsplit, rfl⟩ := exists_split_candidates hL
  obtain ⟨hk, hj, hbefore⟩ := first_access_of_new hprod hsplit
    fun x hx => hnew x.1 (List.mem_map.mpr ⟨x, hx, rfl⟩)
  exact ⟨k, hk, find?_firstReason hk hj hbefore⟩

/-- The kept edges come in the order they are found. -/
theorem collectEdges_sorted : (collectEdges r.passes producers).Pairwise (FoundBefore r) := by
  rw [collectEdges_eq]
  refine pairwise_foldl_addEdge List.Pairwise.nil fun L₁ e L₂ hL hnew x hx => ?_
  rw [List.nil_append] at hnew hx
  obtain ⟨T₁, T₂, k, hsplit, rfl⟩ := exists_split_candidates hL
  obtain ⟨y, hy, rfl⟩ := List.mem_map.mp hx
  obtain ⟨hk, hj, hbefore⟩ := first_access_of_new hprod hsplit
    fun x hx => hnew x.1 (List.mem_map.mpr ⟨x, hx, rfl⟩)
  have hrank_e := (find?_firstReason hk hj hbefore).2
  -- the earlier candidate is found no later than its own position
  have hy_mem : y ∈ candidates r.passes producers := by
    rw [hsplit]
    exact List.mem_append_left _ hy
  obtain ⟨hyk, hyf⟩ := mem_candidates.mp hy_mem
  have hrank_y := firstReason_le hyk ((mem_finders hprod).mp hyf)
  have hsorted := candidates_sorted r.passes producers
  rw [hsplit] at hsorted
  have hQ : ScanOrder y (e, k) := (List.pairwise_append.mp hsorted).2.2 y hy _ List.mem_cons_self
  unfold FoundBefore
  rw [hrank_e]
  rcases hQ with hQ | ⟨hc, hQ | ⟨hyk', hp⟩⟩
  · exact .inl hQ
  · exact .inr ⟨hc, .inl (by dsimp only at hQ; omega)⟩
  · dsimp only at hyk' hp
    rcases Nat.lt_or_eq_of_le hrank_y with hlt | heq
    · exact .inr ⟨hc, .inl (by omega)⟩
    · exact .inr ⟨hc, .inr ⟨by omega, hp⟩⟩

/-- Two passes are joined by a kept edge exactly when an access of the later one puts the earlier
one before it. -/
theorem exists_collectEdges_iff {p c : Nat} :
    (∃ e ∈ collectEdges r.passes producers, e.producer = p ∧ e.consumer = c) ↔
      ∃ a ∈ r.accesses c, r.justifies p c a = true := by
  have hends : ∀ e : Edge, e.ends = (p, c) ↔ e.producer = p ∧ e.consumer = c := fun e => by
    simp [Edge.ends]
  simp only [← hends]
  rw [collectEdges_eq, exists_ends_foldl_addEdge]
  simp only [List.not_mem_nil, false_and, exists_false, false_or, List.mem_map, hends]
  constructor
  · rintro ⟨_, ⟨⟨e, k⟩, hek, rfl⟩, rfl, rfl⟩
    obtain ⟨hk, hfind⟩ := mem_candidates.mp hek
    exact ⟨_, List.mem_of_getElem? hk, (mem_finders hprod).mp hfind⟩
  · rintro ⟨a, ha, hjust⟩
    obtain ⟨k, hk⟩ := List.mem_iff_getElem?.mp ha
    exact ⟨⟨p, c, a.1, a.2⟩, ⟨_, mem_candidates.mpr ⟨hk, (mem_finders hprod).mpr hjust⟩, rfl⟩,
      rfl, rfl⟩

end Laws

/-! ### The graph a registry builds -/

section Build

variable {r : Registry} {g : Graph}

/-- With distinct minted versions, the producers table names the pass that mints each. -/
theorem lookup_mintedAt_iff (h : (keys (mintedAt r.passes (List.range r.passes.size))).Nodup)
    {v : Res} {x : Nat} :
    lookup (mintedAt r.passes (List.range r.passes.size)) v = some x ↔ r.mints x v = true := by
  rw [lookup_eq_some_iff h]
  simp only [mintedAt, List.mem_flatMap, List.mem_range, List.mem_map, Prod.mk.injEq]
  constructor
  · rintro ⟨i, hi, v', hv', rfl, rfl⟩
    obtain ⟨w, hw, hwo⟩ := List.mem_filterMap.mp hv'
    simp only [writesAt, Array.getElem?_eq_getElem hi, Option.map_some, Option.getD_some] at hw
    simp only [Registry.mints, Array.getElem?_eq_getElem hi, Option.map_some, Option.getD_some,
      List.any_eq_true, beq_iff_eq]
    exact ⟨w, hw, hwo⟩
  · intro h
    have hx : x < r.passes.size := by
      by_contra hx
      simp [Registry.mints, Array.getElem?_eq_none (Nat.le_of_not_lt hx)] at h
    simp only [Registry.mints, Array.getElem?_eq_getElem hx, Option.map_some, Option.getD_some,
      List.any_eq_true, beq_iff_eq] at h
    obtain ⟨w, hw, hwo⟩ := h
    refine ⟨x, hx, v, List.mem_filterMap.mpr ⟨w, ?_, hwo⟩, rfl, rfl⟩
    simpa [writesAt, Array.getElem?_eq_getElem hx] using hw

theorem keys_mintedAt_range : keys (mintedAt r.passes (List.range r.passes.size)) = r.mintedVersions := by
  rw [keys_mintedAt, flatMap_range_writesAt (g := fun ws => ws.filterMap (·.output))]
  rfl

theorem keys_overwrittenAt_range :
    keys (overwrittenAt r.passes (List.range r.passes.size)) = r.overwrittenVersions := by
  rw [keys_overwrittenAt, flatMap_range_writesAt (g := fun ws => ws.map (·.resource))]
  rfl

/-- Where every write has an output, `Graph.build` succeeds exactly when no version is minted by
two writes and none is overwritten by two writes. -/
theorem build_succeeds_iff (hout : ∀ p ∈ r.passes, ∀ w ∈ p.writes, w.output.isSome) :
    (∃ g, Returns (Graph.build r) g) ↔ r.mintedVersions.Nodup ∧ r.overwrittenVersions.Nodup := by
  rw [← keys_mintedAt_range, ← keys_overwrittenAt_range]
  constructor
  · rintro ⟨g, hg⟩
    obtain ⟨producers, hp, -⟩ := build_returns hg
    obtain ⟨h1, h2, -⟩ := (collectProducers_eq_ok_iff hout).mp hp
    exact ⟨h1, h2⟩
  · rintro ⟨h1, h2⟩
    exact ⟨_, Returns.of_yields (build_yields ((collectProducers_eq_ok_iff hout).mpr ⟨h1, h2, rfl⟩))⟩

/-- A built graph's producers table names the pass that mints each version. -/
theorem build_lookup_iff (hout : ∀ p ∈ r.passes, ∀ w ∈ p.writes, w.output.isSome)
    (hg : Returns (Graph.build r) g) {v : Res} {x : Nat} :
    lookup g.producers v = some x ↔ r.mints x v = true := by
  obtain ⟨producers, hp, rfl⟩ := build_returns hg
  obtain ⟨h1, -, rfl⟩ := (collectProducers_eq_ok_iff hout).mp hp
  exact lookup_mintedAt_iff h1

theorem mem_succs {x p : Nat} : x ∈ g.succs p ↔ ∃ e ∈ g.edges, e.producer = p ∧ e.consumer = x := by
  simp only [succs, List.mem_map, List.mem_filter, beq_iff_eq]
  constructor
  · rintro ⟨e, ⟨he, hp⟩, hx⟩
    exact ⟨e, he, hp, hx⟩
  · rintro ⟨e, he, hp, hx⟩
    exact ⟨e, ⟨he, hp⟩, hx⟩

/-- The predecessors of a pass come once each, in the order their edges are found. -/
theorem preds_sorted (hsorted : g.edges.Pairwise (FoundBefore r)) (c : Nat) :
    (g.preds c).Pairwise fun x y => r.firstReason x c < r.firstReason y c ∨
      r.firstReason x c = r.firstReason y c ∧ x < y := by
  refine List.pairwise_map.mpr (List.pairwise_filter.mpr (hsorted.imp fun hab ha hb => ?_))
  simp only [beq_iff_eq] at ha hb
  subst ha
  rcases hab with hab | ⟨-, hab⟩
  · rw [hb] at hab
    exact absurd hab (Nat.lt_irrefl _)
  · rwa [hb] at hab

/-- The successors of a pass come once each, by increasing index. -/
theorem succs_sorted (hsorted : g.edges.Pairwise (FoundBefore r))
    (hnodup : (g.edges.map Edge.ends).Nodup) (p : Nat) : (g.succs p).Pairwise (· < ·) := by
  have hne := List.pairwise_map.mp hnodup
  refine List.pairwise_map.mpr (List.pairwise_filter.mpr ((hsorted.and hne).imp fun hab ha hb => ?_))
  simp only [beq_iff_eq] at ha hb
  obtain ⟨hab | ⟨hc, -⟩, hends⟩ := hab
  · exact hab
  · exact absurd (by simp [Edge.ends, ha, hb, hc]) hends

end Build

/-! ### What a built graph says -/

/-- What a built dependency graph says about the passes of its registry. -/
structure EdgeLaws (r : Registry) (g : Graph) : Prop where
  /-- `producerOf?` names the pass that mints a version. -/
  producerOf_iff : ∀ v p, g.producerOf? v = some p ↔ r.mints p v = true
  /-- Two passes are joined by an edge exactly when an access of the later one puts the earlier
  one before it. -/
  exists_edge_iff : ∀ p c, (∃ e ∈ g.edges, e.producer = p ∧ e.consumer = c) ↔
    ∃ a ∈ r.accesses c, r.justifies p c a = true
  /-- No two edges join the same passes. -/
  ends_nodup : (g.edges.map Edge.ends).Nodup
  /-- An edge carries the version and kind of the first access that puts its producer before its
  consumer. -/
  first_access : ∀ e ∈ g.edges,
    (r.accesses e.consumer).find? (r.justifies e.producer e.consumer) = some (e.resource, e.kind)
  /-- Edges come in the order they are found. -/
  sorted : g.edges.Pairwise (FoundBefore r)
  /-- The predecessors of a pass are the passes its accesses put before it, once each, in the
  order they are found. -/
  preds : ∀ c, (∀ x, x ∈ g.preds c ↔ ∃ a ∈ r.accesses c, r.justifies x c a = true) ∧
    (g.preds c).Nodup ∧ (g.preds c).Pairwise fun x y => r.firstReason x c < r.firstReason y c ∨
      r.firstReason x c = r.firstReason y c ∧ x < y
  /-- The successors of a pass are the passes whose accesses put it before them, once each, by
  increasing index. -/
  succs : ∀ p, (∀ x, x ∈ g.succs p ↔ ∃ a ∈ r.accesses x, r.justifies p x a = true) ∧
    (g.succs p).Pairwise (· < ·)

section Laws

variable {r : Registry} {g : Graph}

/-- Every graph built from a registry whose writes have outputs obeys `EdgeLaws`. -/
theorem build_edgeLaws (hout : ∀ p ∈ r.passes, ∀ w ∈ p.writes, w.output.isSome)
    (hg : Returns (Graph.build r) g) : EdgeLaws r g := by
  have hprod : ∀ v x, lookup g.producers v = some x ↔ r.mints x v = true :=
    fun _ _ => build_lookup_iff hout hg
  obtain ⟨producers, -, rfl⟩ := build_returns hg
  have hnodup : ((collectEdges r.passes producers).map Edge.ends).Nodup := by
    rw [collectEdges_eq]
    exact nodup_ends_foldl_addEdge List.nodup_nil
  have hsorted := collectEdges_sorted hprod
  refine ⟨hprod, fun p c => exists_collectEdges_iff hprod, hnodup,
    fun e he => (collectEdges_found hprod he).choose_spec.2.1, hsorted, fun c => ⟨fun x => ?_, ?_,
      preds_sorted hsorted c⟩, fun p => ⟨fun x => ?_, succs_sorted hsorted hnodup p⟩⟩
  · rw [mem_preds]
    exact exists_collectEdges_iff hprod
  · refine (preds_sorted hsorted c).imp fun hxy hxx => ?_
    subst hxx
    rcases hxy with h | ⟨-, h⟩ <;> exact Nat.lt_irrefl _ h
  · rw [mem_succs]
    exact exists_collectEdges_iff hprod

end Laws

/-- **The dependency graph of an ingested registry.** Building it succeeds exactly when no version
is minted by two writes and none is overwritten by two writes, within one pass or across passes.
The graph it builds joins two passes exactly when an access of the later one puts the earlier one
before it (the earlier mints a version the later reads or overwrites, or reads, being another
pass, a version the later overwrites), by one edge that carries the first such access, in the
order the edges are found; predecessors and successors list the other ends of the edges, once
each, in that order. -/
theorem build_finds_each_dependency_once {bytes : Bytes} {r : Registry}
    (hr : Returns (Registry.ingest bytes) r) :
    ((∃ g, Returns (Graph.build r) g) ↔ r.mintedVersions.Nodup ∧ r.overwrittenVersions.Nodup) ∧
      ∀ g, Returns (Graph.build r) g → EdgeLaws r g := by
  have hc := (Registry.consistent_of_ingest hr).1
  have hout : ∀ p ∈ r.passes, ∀ w ∈ p.writes, w.output.isSome := fun p hp w hw => by
    obtain ⟨o, ho, -⟩ := (hc.passes p hp).write_output w hw
    simp [ho]
  exact ⟨build_succeeds_iff hout, fun g hg => build_edgeLaws hout hg⟩

/-- Three buffers and three passes: the first writes buffer 0 into buffer 1, the second reads
buffer 1, and the third overwrites buffer 1 into buffer 2. -/
def overwriteStream : Bytes :=
  let buffer (id : UInt32) : Stream.Record :=
    Stream.Record.ofPayload .registerBuffer
      ({ size := 64, id, usage := 0x23, memory := 0, lifetime := 0, nameLen := 0, reserved := 0 } :
        Stream.BufferPayload) []
  let access (resource output binding : UInt32) : Stream.InteractionPayload :=
    { stage := 0x800, access := 0x20, resourceKind := 0, resource, output, binding, layout := 0,
      reserved := 0 }
  let pass (id queue reads writes : UInt32) (items : List Stream.InteractionPayload) :
      Stream.Record :=
    Stream.Record.ofPayload .registerPass
      ({ id, queue, program := Stream.noneId, bindless := Stream.noneId, readCount := reads,
         writeCount := writes, nameLen := 0, reserved := 0 } : Stream.PassPayload)
      (Stream.Tail.ofItems items)
  Stream.write Stream.inputMagic
    [Stream.Record.ofPayload .setBrief
        ({ bufferCount := 3, imageCount := 0, passCount := 3, programCount := 0,
           shaderCount := 0, samplerCount := 0, bindlessCount := 0, presentImage := Stream.noneId,
           renderWidth := 0, renderHeight := 0, renderFormat := 0, reserved := 0 } :
          Stream.BriefPayload) [],
     buffer 0, buffer 1, buffer 2,
     pass 0 1 0 1 [access 0 1 0],
     pass 1 0 1 0 [access 1 Stream.noneId 0],
     pass 2 1 0 1 [access 1 2 0]]

theorem overwriteStream_edgeLaws : ∃ r, Returns (Registry.ingest overwriteStream) r ∧
    (((∃ g, Returns (Graph.build r) g) ↔ r.mintedVersions.Nodup ∧ r.overwrittenVersions.Nodup) ∧
      ∀ g, Returns (Graph.build r) g → EdgeLaws r g) := by
  have hrun : ((Registry.ingest overwriteStream).run.run #[]).1.toOption.isSome = true := by
    decide +kernel
  cases hres : ((Registry.ingest overwriteStream).run.run #[]).1 with
  | error e =>
    rw [hres] at hrun
    cases hrun
  | ok r => exact ⟨r, ⟨#[], hres⟩, build_finds_each_dependency_once ⟨#[], hres⟩⟩

end Graph

end RenderGraph
