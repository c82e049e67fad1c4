import LayerGraph.Floating.Basic

/-!
# Little-endian words

Weights and raw tensor data are words of four or eight bytes, least significant byte
first. Reading takes whole words from the front and leaves an incomplete one at the
end unread.
-/

namespace LayerGraph

abbrev Bytes := List UInt8

namespace Bytes

/-- The number with the given digits to base 256, least significant first. -/
def toNat : Bytes → Nat
  | [] => 0
  | b :: bs => b.toNat + 256 * toNat bs

/-- The `n` least significant digits of `w` to base 256. -/
def ofNat : Nat → Nat → Bytes
  | 0, _ => []
  | n + 1, w => UInt8.ofNat (w % 256) :: ofNat n (w / 256)

/-- The whole words of `n` bytes. -/
def words (n : Nat) (bs : Bytes) : List Nat :=
  if n = 0 ∨ (bs.take n).length < n then [] else toNat (bs.take n) :: words n (bs.drop n)
termination_by bs.length
decreasing_by
  rename_i h
  rw [List.length_take] at h
  rw [List.length_drop]
  omega

/-- The bytes of 32 bit values, one after the other. -/
def ofSingles (xs : List Single) : Bytes := xs.flatMap fun x => ofNat 4 x.word

end Bytes

end LayerGraph
