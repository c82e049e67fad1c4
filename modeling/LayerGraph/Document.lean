import LayerGraph.Json.Writer
import LayerGraph.Record

/-!
# Documents

The document of a network is an object: a header, then every record under a numbered
key. It is written as a stream of members, so a key that stands twice in a record is
written twice; a record *as a JSON value* is an object like any other, where the last
value counts and the first position. Both come from one list of members,
`Record.members`.

The document leaves the weights out when they go into a file of their own, and names
that file in the header instead.
-/

namespace LayerGraph

/-- What is written for a value: JSON, an array of weights with 32 bit digits, or an
object of such. -/
inductive Sheet where
  | json (j : Json)
  | singles (xs : List Single)
  | obj (members : List (String × Sheet))

namespace Sheet

mutual

/-- The value that is written; weights are widened. -/
def toJson : Sheet → Json
  | .json j => j
  | .singles xs => .arr (xs.map fun x => Json.ofDouble x.toDouble)
  | .obj members => .obj (Entries.ofList (membersJson members))

def membersJson : List (String × Sheet) → List (String × Json)
  | [] => []
  | (k, s) :: ms => (k, toJson s) :: membersJson ms

end

mutual

/-- The indented text. -/
def chars (level : Nat) : Sheet → List Char
  | .json j => j.indentedChars level
  | .singles xs => Json.block '[' ']' level (xs.map (Json.number .single))
  | .obj members => Json.block '\x7b' '\x7d' level (memberChars (level + 1) members)

def memberChars (level : Nat) : List (String × Sheet) → List (List Char)
  | [] => []
  | (k, s) :: ms => Json.memberLine k (chars level s) :: memberChars level ms

end

end Sheet

/-! ### Records -/

def KernelWeights.sheet (w : KernelWeights) : Sheet :=
  .obj (("kernel", .singles w.kernel) :: (w.bias.map fun b => ("bias", Sheet.singles b)).toList)

def NormParams.sheet (p : NormParams) : Sheet :=
  .obj (p.parts.map fun (name, xs) => (name, .singles xs))

namespace Record

def nat (n : Nat) : Sheet := .json (.int n)

/-- **The members of a record**, in order. -/
def members (r : Record) (embed : Bool) : List (String × Sheet) :=
  [("name", .json (.str r.name)), ("type", .json (.str r.type))] ++
    r.fields.map (fun (k, v) => (k, .json v)) ++
    (if embed then
      (r.weights.map fun w => ("weights", w.sheet)).toList ++
        (r.norm.map fun p => ("batchNormalization", p.sheet)).toList
    else []) ++
    [("numInputs", nat r.numInputs), ("inputId", .json (Json.ints (r.inputIds.map Int.ofNat))),
      ("inputPlanes", nat r.inputPlanes), ("outputPlanes", nat r.planes)]

/-- A record as a JSON value. -/
def toJson (r : Record) (embed : Bool) : Json := (Sheet.obj (r.members embed)).toJson

end Record

/-! ### Documents -/

structure Document where
  records : List Record
  /-- The file that holds the weights, if they are not in the document. -/
  weightFile : Option String := none

namespace Document

/-- The record of a name, the first if there are several. -/
def record? (d : Document) (name : String) : Option Record :=
  d.records.find? fun r => r.name = name

def header (d : Document) : Sheet :=
  .obj (("count", .json (.int d.records.length)) ::
    (d.weightFile.map fun f => ("bin_file_name", Sheet.json (.str f))).toList)

def sheet (d : Document) : Sheet :=
  .obj (("numLayers", d.header) ::
    d.records.zipIdx.map fun (r, i) =>
      ("Layer_" ++ toString i, .obj (r.members d.weightFile.isNone)))

/-- The text of a document. -/
def text (d : Document) : String := String.ofList (d.sheet.chars 0)

end Document

end LayerGraph
