import RenderGraph.Proofs.Tables
import RenderGraph.Bake
/-!
# Byte sizes are capped exact values

The size of an image and the byte total of a bake are computed with saturating 64-bit steps.
The main statement, `byteSize_caps_exact_product`, says what they come to for every input: the
size of an image is its exact base product capped at the largest 64-bit value, plus a third of
that for a mip chain, capped again; and the byte total of a bake is the exact sum of its buckets'
sizes, capped.
-/

namespace RenderGraph

/-- The largest 64-bit value, as a power of two. -/
theorem u64Max_eq : u64Max = 2 ^ 64 - 1 := by norm_num [u64Max]

namespace ImageShape

/-- The width of an image is below the cap, so the saturating product may start from it. -/
theorem capU64_width (s : ImageShape) : capU64 s.width.toNat = s.width.toNat :=
  capU64_of_le (by have := s.width.toNat_lt; rw [u64Max_eq]; omega)

/-- The base size is the exact product of the factors, capped. -/
theorem baseSize_eq (s : ImageShape) :
    s.baseSize = capU64 (s.width.toNat * s.height.toNat * s.depth.toNat * s.arrayLayers.toNat *
      s.format.texelSize * max s.samples.toNat 1) := by
  have h := foldl_satMul s.width.toNat
    [s.height.toNat, s.depth.toNat, s.arrayLayers.toNat, s.format.texelSize, max s.samples.toNat 1]
  rw [s.capU64_width] at h
  exact h

end ImageShape

/-- The byte total of a bake is the exact sum of its buckets' sizes, capped. -/
theorem Bake.stats_bytes_eq (b : Bake) :
    b.stats.bytes = capU64 (b.memory.buckets.toList.map (·.desc.byteSize)).sum := by
  show List.foldl satAdd 0 _ = _
  rw [show (0 : Nat) = capU64 0 from rfl, foldl_satAdd, foldl_add_eq, Nat.zero_add, total_eq_sum]

theorem byteSize_caps_exact_product (s : ImageShape) (b : Bake) :
    (let base := min (s.width.toNat * s.height.toNat * s.depth.toNat * s.arrayLayers.toNat *
        s.format.texelSize * max 1 s.samples.toNat) (2 ^ 64 - 1);
      s.byteSize = if s.mipLevels.toNat ≤ 1 then base else min (base + base / 3) (2 ^ 64 - 1)) ∧
    b.stats.bytes = min (b.memory.buckets.toList.map (·.desc.byteSize)).sum (2 ^ 64 - 1) := by
  refine ⟨?_, by rw [b.stats_bytes_eq, capU64, u64Max_eq]⟩
  simp only [ImageShape.byteSize, ImageShape.baseSize_eq, satAdd, capU64, u64Max_eq,
    Nat.max_comm 1]
  by_cases h : s.mipLevels.toNat ≤ 1
  · rw [if_neg (by rw [gt_iff_lt, UInt32.lt_iff_toNat_lt, UInt32.toNat_one]; omega), if_pos h]
  · rw [if_pos (by rw [gt_iff_lt, UInt32.lt_iff_toNat_lt, UInt32.toNat_one]; omega), if_neg h]

end RenderGraph
