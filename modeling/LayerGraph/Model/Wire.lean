import LayerGraph.Text.Utf8

/-!
# The wire format of models

A message is a sequence of fields, each a number with a value of one of six kinds. Two of
the kinds open and close a *group*, an old form of nested message, which no field of a
model uses; groups are only skipped.

Reading takes two steps. `Wire.entries` cuts the bytes into entries without regard to
nesting, and `Wire.ungroup` drops the contents of groups, checking that they close in
order and nest no deeper than allowed. What a field means is up to the message it stands
in.
-/

namespace LayerGraph

namespace Wire

/-! ### Entries -/

/-- The value of a field as it is held. -/
inductive Payload where
  | varint (n : Nat)
  | fixed64 (w : Nat)
  | bytes (bs : Bytes)
  | fixed32 (w : Nat)
  | openGroup
  | closeGroup

structure Entry where
  number : Nat
  payload : Payload

/-- A number to base 128, least significant digit first, in at most `k + 1` bytes. The
tenth byte has room for a single bit. -/
def varintWithin : Nat → Bytes → Option (Nat × Bytes)
  | _, [] => none
  | 0, b :: bs => if b.toNat < 2 then some (b.toNat, bs) else none
  | k + 1, b :: bs =>
    if b.toNat < 128 then some (b.toNat, bs)
    else (varintWithin k bs).map fun (n, rest) => (b.toNat - 128 + 128 * n, rest)

/-- A number of 64 bits. -/
def varint (bs : Bytes) : Option (Nat × Bytes) := varintWithin 9 bs

/-- The first `n` bytes and the others. -/
def takeExactly (n : Nat) (bs : Bytes) : Option (Bytes × Bytes) :=
  let front := bs.take n
  if front.length < n then none else some (front, bs.drop n)

/-- The value of a field of some wire type. -/
def payload (type : Nat) (bs : Bytes) : Option (Payload × Bytes) :=
  match type with
  | 0 => (varint bs).map fun (n, rest) => (.varint n, rest)
  | 1 => (takeExactly 8 bs).map fun (w, rest) => (.fixed64 w.toNat, rest)
  | 2 => do
    let (n, rest) ← varint bs
    let (body, rest) ← takeExactly n rest
    return (.bytes body, rest)
  | 3 => some (.openGroup, bs)
  | 4 => some (.closeGroup, bs)
  | 5 => (takeExactly 4 bs).map fun (w, rest) => (.fixed32 w.toNat, rest)
  | _ => none

/-- One entry: a key of 32 bits, which holds number and wire type, and the value. -/
def entry (bs : Bytes) : Option (Entry × Bytes) := do
  let (key, rest) ← varint bs
  if key < twoPow 32 ∧ 8 ≤ key then
    let (value, rest) ← payload (key % 8) rest
    return (⟨key / 8, value⟩, rest)
  else none

/-- The entries of some bytes, at most `k` of them. -/
def entriesWithin : Nat → Bytes → Option (List Entry)
  | _, [] => some []
  | 0, _ :: _ => none
  | k + 1, bs => do
    let (e, rest) ← entry bs
    return e :: (← entriesWithin k rest)

/-- The entries of some bytes; none of them is without a byte of its own. -/
def entries (bs : Bytes) : Option (List Entry) := entriesWithin bs.length bs

/-! ### Groups -/

/-- Groups and messages nest to this depth. -/
def maxDepth : Nat := 100

/-- Drops what is inside of groups. `opened` holds the numbers of the open groups, the
innermost first, and `room` how deep they may nest; of a group only its opening stays. -/
def ungroup (room : Nat) : List Nat → List Entry → Option (List Entry)
  | [], [] => some []
  | _ :: _, [] => none
  | opened, e :: es =>
    match e.payload, opened with
    | .closeGroup, [] => none
    | .closeGroup, n :: opened => if e.number = n then ungroup room opened es else none
    | .openGroup, [] =>
      if room = 0 then none else (ungroup room [e.number] es).map (e :: ·)
    | .openGroup, n :: opened =>
      if room ≤ opened.length + 1 then none else ungroup room (e.number :: n :: opened) es
    | _, [] => (ungroup room [] es).map (e :: ·)
    | _, n :: opened =>
      if room ≤ opened.length + 1 then none else ungroup room (n :: opened) es

/-- The fields of a message at some depth. -/
def fields (depth : Nat) (bs : Bytes) : Option (List Entry) := do
  ungroup (maxDepth - depth) [] (← entries bs)

/-! ### Values of known fields -/

namespace Payload

def nat? : Payload → Option Nat
  | .varint n => some n
  | _ => none

/-- A signed number of 64 bits. -/
def int64? (p : Payload) : Option Int := p.nat?.map (Word.signed 64)

/-- A signed number held in the low 32 bits. -/
def int32? (p : Payload) : Option Int := p.nat?.map (Word.signed 32)

def bytes? : Payload → Option Bytes
  | .bytes bs => some bs
  | _ => none

def string? (p : Payload) : Option String := p.bytes?.bind Utf8.decode?

def single? : Payload → Option Single
  | .fixed32 w => some (.ofWord w)
  | _ => none

/-! ### Repeated numbers, one a field or packed -/

/-- All numbers of a packed field. -/
def packedVarints : Nat → Bytes → Option (List Nat)
  | _, [] => some []
  | 0, _ :: _ => none
  | k + 1, bs => do
    let (n, rest) ← Wire.varint bs
    return n :: (← packedVarints k rest)

def nats? : Payload → Option (List Nat)
  | .varint n => some [n]
  | .bytes bs => packedVarints bs.length bs
  | _ => none

def ints64? (p : Payload) : Option (List Int) :=
  p.nats?.map fun ns => ns.map (Word.signed 64)

def ints32? (p : Payload) : Option (List Int) :=
  p.nats?.map fun ns => ns.map (Word.signed 32)

def singles? : Payload → Option (List Single)
  | .fixed32 w => some [.ofWord w]
  | .bytes bs => if bs.length % 4 = 0 then some ((bs.words 4).map .ofWord) else none
  | _ => none

def doubles? : Payload → Option (List Double)
  | .fixed64 w => some [.ofWord w]
  | .bytes bs => if bs.length % 8 = 0 then some ((bs.words 8).map .ofWord) else none
  | _ => none

end Payload

end Wire

end LayerGraph
