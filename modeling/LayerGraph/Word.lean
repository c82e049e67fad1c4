/-!
# Words

Powers of two and of ten, and what a word of a fixed number of bits holds: the values it
can tell apart, the signed number that it stands for, and what is left of a number that
is stored in it.
-/

namespace LayerGraph

def twoPow (k : Nat) : Nat := Nat.pow 2 k

def tenPow (k : Nat) : Nat := Nat.pow 10 k

namespace Word

/-- A word as a signed number, its highest bit being the sign. -/
def signed (bits : Nat) (w : Nat) : Int := Int.bmod w (twoPow bits)

/-- The low bits of a whole number. -/
def low (bits : Nat) (n : Int) : Nat := (n % (twoPow bits : Nat)).toNat

/-- The greatest signed number of 64 bits. -/
def maxInt : Int := (twoPow 63 : Nat) - 1

/-- The least signed number of 64 bits. -/
def minInt : Int := -(twoPow 63 : Nat)

end Word

end LayerGraph
