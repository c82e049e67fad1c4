import LayerGraph.Container
import LayerGraph.Error
import LayerGraph.Json.Outline
import LayerGraph.Json.Writer
import LayerGraph.Model.Network

/-!
# Models given by a configuration

A configuration is a JSON value that lists layers, and layers inside layers. The list may
be the value itself, or be found under one of several wrappings, one of which keeps it as
text. The weights come apart from it, under the names of layers and variables; reading a
layer takes the weights of its name out of the table, the innermost layers first.
-/

namespace LayerGraph

/-- Weights by layer and variable. -/
abbrev WeightTable := Entries (Entries Tensor)

structure Configuration where
  config : Json
  weights : WeightTable := []
  shapes : Entries (List Int) := []

/-! ### Weights -/

/-- What stands before the first colon. -/
def beforeColon (cs : List Char) : List Char := cs.takeWhile (· ≠ ':')

/-- What stands after the last slash; everything if there is none. -/
def afterSlash (cs : List Char) : List Char := (cs.reverse.takeWhile (· ≠ '/')).reverse

/-- What stands before the last slash, if there is one. -/
def beforeSlash? (cs : List Char) : Option (List Char) :=
  match cs.reverse.dropWhile (· ≠ '/') with
  | [] => none
  | _ :: r => some r.reverse

namespace Configuration

/-- Binds a variable of a layer; an earlier binding is replaced. -/
def addWeight (c : Configuration) (layer name : String) (t : Tensor) : Configuration :=
  { c with weights :=
      c.weights.set layer (((c.weights.value? layer).getD []).set name t) }

/-- Binds a variable under a path such as `block/conv/kernel:0`: the last component is the
variable, the one before it the layer. -/
def addWeightPath (c : Configuration) (path : String) (t : Tensor) :
    Except ConvertError Configuration :=
  let cs := beforeColon path.toList
  match beforeSlash? cs with
  | none => .error (.load (.invalidConfig (.missingLayerPrefix (String.ofList cs))))
  | some layer =>
    .ok (c.addWeight (String.ofList (afterSlash layer)) (String.ofList (afterSlash cs)) t)

/-- A configuration from its text. -/
def ofText (text : String) : Except ConvertError Configuration :=
  match Json.read? text with
  | some config => .ok { config }
  | none => .error (.table .malformed)

/-! ### Layers -/

/-- The list of layers of a model. -/
def layerList : Json → Except ConfigFault (List Json)
  | .arr layers => .ok layers
  | .obj members =>
    match Entries.value? members "layers" with
    | some (.arr layers) => .ok layers
    | _ => .error .missingLayers
  | _ => .error .notAnObject

/-- The layer that a reference names: a string, or a list that starts with one. -/
def reference (j : Json) : Except ConfigFault String :=
  match j with
  | .str s => .ok s
  | .arr (.str s :: _) => .ok s
  | _ => .error (.unreadableReference j.compact)

/-- The references of all calls of a layer, in order. -/
def references : List Json → Except ConfigFault (List String)
  | [] => .ok []
  | .arr args :: calls => do
    let names ← args.mapM reference
    return names ++ (← references calls)
  | _ :: _ => .error .callNotList

/-- The feeding layers of an entry, if it says anything of them. -/
def inboundOf (name : String) (entry : Json) : Except ConfigFault (Option (List String)) :=
  match entry.member? "inbound_nodes" with
  | none => .ok none
  | some (.arr calls) => do return some (← references calls)
  | some _ => .error (.operandsNotList name)

/-- The configuration of a layer itself. -/
def configOf (entry : Json) : Json := (entry.member? "config").getD .null

/-- The name of a layer stands in its entry, or else in its configuration. -/
def nameOf? (entry : Json) : Option String :=
  ((entry.member? "name").or ((configOf entry).member? "name")).bind Json.str?

/-- The attributes of a layer: its configuration without its name and inner layers. -/
def attributesOf (config : Json) : Attributes :=
  Entries.ofList (((config.obj?.getD []).filter fun p => p.1 ≠ "name" && p.1 ≠ "layers").map
    fun p => (p.1, AttrValue.ofJson p.2))

/-- A layer without what is inside it. -/
def shallowLayer (entry : Json) : Except ConfigFault Node :=
  match (entry.member? "class_name").bind Json.str? with
  | none => .error .missingClass
  | some className =>
    match nameOf? entry with
    | none => .error (.missingName className)
    | some name => do
      return {
        name
        opType := className
        attrs := attributesOf (configOf entry)
        inbound := ← inboundOf name entry }

/-- The entries of the layers inside a layer. -/
def innerEntries (n : Node) (entry : Json) : Except ConfigFault (List Json) :=
  if isContainerOp n.opType then layerList (configOf entry) else .ok []

/-! ### The entries of a layer are parts of it -/

theorem sizeOf_value?_lt {members : Entries Json} {key : String} {v : Json}
    (h : Entries.value? members key = some v) : sizeOf v < sizeOf members := by
  induction members with
  | nil => simp [Entries.value?] at h
  | cons p es ih =>
    obtain ⟨k, w⟩ := p
    rw [Entries.value?] at h
    split at h
    · cases h
      simp only [List.cons.sizeOf_spec, Prod.mk.sizeOf_spec]
      omega
    · have := ih h
      simp only [List.cons.sizeOf_spec]
      omega

theorem sizeOf_member?_lt {j : Json} {key : String} {v : Json}
    (h : j.member? key = some v) : sizeOf v < sizeOf j := by
  cases j with
  | obj members =>
    have := sizeOf_value?_lt h
    simp only [Json.obj.sizeOf_spec]
    omega
  | _ => simp [Json.member?] at h

theorem sizeOf_layerList_lt {j : Json} {layers : List Json}
    (h : layerList j = .ok layers) : sizeOf layers < sizeOf j := by
  cases j with
  | arr items =>
    cases h
    simp only [Json.arr.sizeOf_spec]
    omega
  | obj members =>
    rw [layerList] at h
    split at h
    · next hv =>
      cases h
      have := sizeOf_value?_lt hv
      simp only [Json.obj.sizeOf_spec, Json.arr.sizeOf_spec] at this ⊢
      omega
    · cases h
  | _ => cases h

theorem sizeOf_innerEntries_lt {n : Node} {entry : Json} {inner : List Json}
    (h : innerEntries n entry = .ok inner) : sizeOf inner < 1 + sizeOf entry := by
  rw [innerEntries] at h
  split at h
  · have hl := sizeOf_layerList_lt h
    rw [configOf] at hl
    cases hm : entry.member? "config" with
    | none => rw [configOf, hm] at h; cases h
    | some v =>
      have := sizeOf_member?_lt hm
      rw [hm, Option.getD_some] at hl
      omega
  · cases h
    have : 1 ≤ sizeOf entry := by cases entry <;> simp +arith
    simp only [List.nil.sizeOf_spec]
    omega

/-! ### Reading -/

mutual

/-- A layer with everything inside it, and the weights that are left. -/
def readLayer (weights : WeightTable) (entry : Json) : Except ConfigFault (Node × WeightTable) :=
  match shallowLayer entry with
  | .error e => .error e
  | .ok n =>
    match _h : innerEntries n entry with
    | .error e => .error e
    | .ok inner =>
      match readLayers weights inner with
      | .error e => .error e
      | .ok (children, weights) =>
        .ok ({ n with children, weights := (weights.value? n.name).getD [] }, weights.erase n.name)
termination_by (sizeOf entry, 2)
decreasing_by
  have := sizeOf_innerEntries_lt _h
  rw [Prod.lex_def]
  omega

/-- The layers of a list of entries, in order. -/
def readLayers (weights : WeightTable) (entries : List Json) :
    Except ConfigFault (List Node × WeightTable) :=
  match entries with
  | [] => .ok ([], weights)
  | entry :: entries =>
    match readLayer weights entry with
    | .error e => .error e
    | .ok (n, weights) =>
      match readLayers weights entries with
      | .error e => .error e
      | .ok (ns, weights) => .ok (n :: ns, weights)
termination_by (sizeOf entries, 1)
decreasing_by
  all_goals
    rw [Prod.lex_def]
    simp only [List.cons.sizeOf_spec]
    omega

end

/-- The model inside its wrappings. -/
def model (config : Json) : Except ConvertError Json :=
  match (config.member? "model_config").getD config with
  | .str s =>
    match Json.read? s with
    | some root => .ok ((root.member? "config").getD root)
    | none => .error (.table .malformed)
  | root => .ok ((root.member? "config").getD root)

/-- **Reading** a configuration as a network. -/
def load (c : Configuration) : Except ConvertError Network := do
  let model ← model c.config
  match layerList model with
  | .error e => throw (.load (.invalidConfig e))
  | .ok entries =>
    match readLayers c.weights entries with
    | .error e => throw (.load (.invalidConfig e))
    | .ok (nodes, _) => return ⟨nodes, c.shapes⟩

end Configuration

end LayerGraph
