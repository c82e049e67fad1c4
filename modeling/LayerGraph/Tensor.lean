import LayerGraph.Bytes
import LayerGraph.Error

/-!
# Tensors

A shape and the data that should fill it, row by row. Nothing forces the two to
agree: a model file may say anything, and who needs the shape checks it with
`Tensor.fit`. Integer tensors are widened to 32 bit floating values when they are
read; only small whole numbers are ever read back out of them.
-/

namespace LayerGraph

structure Tensor where
  dims : List Nat
  data : List Single
  deriving DecidableEq, Inhabited

/-- The number of places of a shape. -/
def places (dims : List Nat) : Nat := dims.foldl (· * ·) 1

namespace Tensor

/-- A tensor of rank one. -/
def ofList (data : List Single) : Tensor := ⟨[data.length], data⟩

/-- Data from little-endian 32 bit floating values. -/
def ofSingleBytes (dims : List Nat) (raw : Bytes) : Tensor :=
  ⟨dims, (raw.words 4).map Floating.ofWord⟩

/-- Data from little-endian 64 bit floating values. -/
def ofDoubleBytes (dims : List Nat) (raw : Bytes) : Tensor :=
  ⟨dims, (raw.words 8).map fun w => Floating.toSingle (Floating.ofWord w)⟩

/-- Data from little-endian signed words of `width` bytes. -/
def ofIntBytes (width : Nat) (dims : List Nat) (raw : Bytes) : Tensor :=
  ⟨dims, (raw.words width).map fun w => Floating.ofInt (Word.signed (8 * width) w)⟩

/-- The elements as whole numbers, toward zero. -/
def ints (t : Tensor) : List Int := t.data.map Floating.truncate

/-- Whether the data fills the shape. A shape whose positive extents alone are too many
places to count is refused even if another extent is zero. -/
def fit (t : Tensor) : Except ShapeError Unit :=
  if twoPow 63 ≤ places (t.dims.filter (· ≠ 0)) then .error .overflow
  else if t.data.length < places t.dims then .error .outOfBounds
  else if places t.dims ≠ t.data.length then .error .incompatible
  else .ok ()

end Tensor

end LayerGraph
