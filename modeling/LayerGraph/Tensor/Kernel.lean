import LayerGraph.Tensor

/-!
# The order of a kernel

The engine reads a kernel with its output channels outermost, then input channels,
rows and columns. Models keep their kernels in orders of their own. Nothing is moved to
reorder one: the data stays where it is, and its axes change places before a walk along
them reads it out. An *axis* is an extent with a stride. Data that lies row by row has the
axes `Axis.rowMajor`, `KernelOrder.rearrange` exchanges two of them at a time, and
`Axis.offset` says where in the data the `k`-th step of a walk along some axes falls, when
the last axis moves fastest.
-/

namespace LayerGraph

/-- The order in which a kernel is held. -/
inductive KernelOrder where
  /-- As the engine wants it. -/
  | native
  /-- Rows, columns, inputs, outputs. -/
  | rowsColumnsInOut
  /-- Rows, columns, outputs, inputs. -/
  | rowsColumnsOutIn
  /-- Inputs, outputs; a kernel of rank one is a single column. -/
  | inOut
  deriving DecidableEq

/-- So many steps of a stride. -/
structure Axis where
  extent : Nat
  stride : Nat

namespace Axis

/-- The axes of data that lies row by row: a step along one of them passes over all places
of those after it. -/
def rowMajor : List Nat → List Axis
  | [] => []
  | d :: dims => ⟨d, places dims⟩ :: rowMajor dims

/-- The offset of the `k`-th place along the axes. The number of places along the inner
axes divides `k` into the steps of the outermost axis and the place left for the others. -/
def offset : List Axis → Nat → Nat
  | [], _ => 0
  | a :: axes, k =>
    let inner := places (axes.map Axis.extent)
    k / inner * a.stride + offset axes (k % inner)

end Axis

/-- Two elements of a list change places. -/
def exchange {α : Type} (xs : List α) (a b : Nat) : List α :=
  match xs[a]?, xs[b]? with
  | some x, some y => (xs.set a y).set b x
  | _, _ => xs

namespace KernelOrder

/-- The rank a kernel must have. -/
def rank : KernelOrder → Nat
  | .inOut => 2
  | _ => 4

/-- The exchanges that lead to the engine's order. The first two bring the channels before
rows and columns, the third changes inputs with outputs; where the outputs came first
before, it is taken back. -/
def exchanges : KernelOrder → List (Nat × Nat)
  | .native => []
  | .rowsColumnsInOut => [(0, 2), (1, 3), (0, 1)]
  | .rowsColumnsOutIn => [(0, 2), (1, 3), (0, 1), (0, 1)]
  | .inOut => [(0, 1)]

/-- What belongs to the axes of a kernel one by one, in the engine's order. -/
def rearrange {α : Type} (order : KernelOrder) (xs : List α) : List α :=
  order.exchanges.foldl (fun xs p => exchange xs p.1 p.2) xs

/-- The axes of a kernel as it is held; a vector is taken for a single column. -/
def heldAxes (order : KernelOrder) (dims : List Nat) : List Axis :=
  let axes := Axis.rowMajor dims
  if order = .inOut ∧ axes.length = 1 then axes ++ [⟨1, 1⟩] else axes

/-- The axes of a kernel in the engine's order; nothing if the rank is wrong. -/
def axes? (order : KernelOrder) (dims : List Nat) : Option (List Axis) :=
  let axes := order.heldAxes dims
  if axes.length = order.rank then some (order.rearrange axes) else none

end KernelOrder

/-- The data of a kernel in the engine's order. Data that does not fill its shape is
found before a wrong rank. -/
def Tensor.engineOrder (kernel : Tensor) (order : KernelOrder) : Except KernelError (List Single) :=
  if order = .native then .ok kernel.data
  else match kernel.fit with
    | .error e => .error (.shape e)
    | .ok () =>
      match order.axes? kernel.dims with
      | none => .error (.rank order.rank kernel.dims)
      | some axes =>
        let data := kernel.data.toArray
        .ok ((List.range data.size).map fun k => data.getD (Axis.offset axes k) .zero)

end LayerGraph
