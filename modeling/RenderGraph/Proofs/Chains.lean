import RenderGraph.Proofs.Consistency
/-!
# Alias chains start at their base

Links number the aliases of a forest from 1 up and never number a root (`Forest.Ordered`), so in
every ingested registry the base of a chain is the one member of link order 0
(`chainOrder_eq_zero_iff`), and the base of a base is itself (`baseOf_baseOf`). A chain sorted by
link order therefore starts with its base.
-/

namespace RenderGraph

open Logged

namespace Registry

variable {r : Registry}

/-- The ranks of a registry: its forests are forests that ingestion builds, whose link orders
number the aliases of every chain and leave its base at 0. -/
structure Ranked (r : Registry) : Prop where
  forest : ∀ k, (r.forest k).Reachable

/-- **Every registry that ingestion returns is ranked.** -/
theorem ingest_ranked {bytes : Bytes} (h : Returns (Registry.ingest bytes) r) : r.Ranked :=
  ⟨(ingest_wf h).reachable⟩

/-- The base of a base is itself. -/
theorem Ranked.baseOf_baseOf (h : r.Ranked) (res : Res) : r.baseOf (r.baseOf res) = r.baseOf res := by
  unfold baseOf
  rw [Res.mk_kind, Res.mk_id, (h.forest res.kind).wf.root_root]

/-- The base is the one member of its chain with link order 0. -/
theorem Ranked.chainOrder_eq_zero_iff (h : r.Ranked) (res : Res) :
    r.chainOrder res = 0 ↔ r.baseOf res = res := by
  have ho := (h.forest res.kind).ordered
  unfold chainOrder baseOf
  constructor
  · intro h0
    by_contra hne
    -- an alias has a positive order
    have hr : (r.forest res.kind).root res.id ≠ res.id := fun hr => hne (by rw [hr, Res.mk_kind_id])
    exact absurd h0 (Nat.pos_iff_ne_zero.mp (ho.order_alias _ hr).1)
  · intro hbase
    exact ho.order_root _ (by simpa using congrArg Res.id hbase)

end Registry

end RenderGraph
