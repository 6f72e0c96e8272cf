import RenderGraph.Image.Format
import RenderGraph.Saturating
/-!
# Image shapes

The shape of an image is what decides whether two images can share memory: extent, format,
mip levels, array layers and samples, with render-sized extents already resolved.

`ImageShape.byteSize` estimates an image's memory. The base is the product of the width, the
height, the depth, the layers, the texel size and the sample count (at least one), multiplied
left to right with every step stopping at the largest 64-bit value; a mip chain adds a third of
the base, rounded down, again stopping at that value.

Stopping at the cap after every step gives the same number as capping the exact product once
(`foldl_satMul`).
-/

namespace RenderGraph

/-- The physical properties of an image after its extent is resolved. -/
structure ImageShape where
  width : UInt32
  height : UInt32
  depth : UInt32
  format : Format
  mipLevels : UInt32
  arrayLayers : UInt32
  /-- The raw sample count flags. -/
  samples : UInt32
  deriving DecidableEq, Repr, Inhabited

namespace ImageShape

/-- The memory of one mip level: width, height, depth, layers, texel size and samples,
multiplied with saturation. -/
def baseSize (s : ImageShape) : Nat :=
  [s.height.toNat, s.depth.toNat, s.arrayLayers.toNat, s.format.texelSize, max s.samples.toNat 1].foldl
    satMul s.width.toNat

/-- Estimated bytes of an image: a mip chain adds a third of the base level. -/
def byteSize (s : ImageShape) : Nat :=
  let base := s.baseSize
  if s.mipLevels > 1 then satAdd base (base / 3) else base

end ImageShape

end RenderGraph
