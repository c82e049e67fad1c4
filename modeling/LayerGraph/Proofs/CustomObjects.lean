import LayerGraph.Proofs.Walk

/-!
# What a conversion asks of its custom objects

Custom objects are consulted in three places: for the family of an operator, when a node is visited
and when its layer is read, and for the constants that stand for strings in the attributes of a
described layer. A built-in family is found without them, so what they say of its operators does
not matter.

`LayerGraph.CustomObjects.AgreeOn` is what two tables must have in common as far as a node is
concerned: nothing, if the node is of a built-in family. Reclassification can give a node such a
family, but nothing that comes after it changes an operator or an attribute, so the nodes that it
leaves are the ones to look at. Two tables that agree on them give one and the same result
(`LayerGraph.convert_eq_of_agreeOn`).
-/

namespace LayerGraph

/-! ### Tables that agree on a node -/

/-- **Two tables agree on a node** if its family is built in, or if they describe its operator alike
and know the same constants by the names that the node gives in the attributes of the
description. -/
def CustomObjects.AgreeOn (format : ModelFormat) (c c' : CustomObjects) (n : Node) : Prop :=
  Family.ofOp? format n.opType = none →
    c.layer? n.opType = c'.layer? n.opType ∧
      ∀ l, c.layer? n.opType = some l → ∀ key ∈ l.attributes, ∀ s, n.attrs.str? key = some s →
        c.constant? s = c'.constant? s

section Tables

variable {format : ModelFormat} {policy : FusionPolicy} {shapes : Entries (List Int)}
  {c c' : CustomObjects} {n m : Node} {family : Family}

/-- The operator and the attributes of a node decide what two tables have to agree on. -/
theorem CustomObjects.AgreeOn.of_bare (h : c.AgreeOn format c' n) (hb : n.bare = m.bare) :
    c.AgreeOn format c' m := by
  rw [AgreeOn, ← Node.opType_of_bare hb, ← Node.attrs_of_bare hb]
  exact h

/-- **Tables that agree on a node give it the same family**, or none. -/
theorem CustomObjects.AgreeOn.resolve_eq (h : c.AgreeOn format c' n) :
    Family.resolve format c n.opType = Family.resolve format c' n.opType := by
  rw [Family.resolve, Family.resolve]
  cases hop : Family.ofOp? format n.opType with
  | some family => rfl
  | none => rw [(h hop).1]

/-- No built-in family is one that is described. -/
theorem Family.ofOp?_ne_custom (format : ModelFormat) (op : String) (l : CustomLayer) :
    ofOp? format op ≠ some (.custom l) := by
  cases format with
  | keras =>
    rw [ofOp?]
    unfold ofKerasOp?
    split <;> simp
  | onnx =>
    rw [ofOp?]
    unfold ofOnnxOp?
    split <;> simp

/-- A described family is the description of an operator that is not built in. -/
theorem Family.layer?_of_resolve {op : String} {l : CustomLayer}
    (h : resolve format c op = .ok (.custom l)) :
    ofOp? format op = none ∧ c.layer? op = some l := by
  rw [resolve] at h
  split at h
  · next family hop =>
    obtain rfl := Except.ok.inj h
    exact absurd hop (ofOp?_ne_custom format op l)
  · next hop =>
    split at h
    · next l' hl =>
      cases h
      exact ⟨hop, hl⟩
    · cases h

/-- What is handed on of the attributes depends on the constants that they name. -/
theorem CustomLayer.fields_congr {l : CustomLayer}
    (h : ∀ key ∈ l.attributes, ∀ s, n.attrs.str? key = some s → c.constant? s = c'.constant? s) :
    l.fields c n = l.fields c' n := by
  have hresolve : ∀ key ∈ l.attributes,
      ((Entries.value? n.attrs key).map fun v => (key, c.resolve v)) =
        (Entries.value? n.attrs key).map fun v => (key, c'.resolve v) := by
    intro key hkey
    cases hv : Entries.value? n.attrs key with
    | none => rfl
    | some v =>
      cases v with
      | str s =>
        have hs : c.constant? s = c'.constant? s := h key hkey s (by rw [Attributes.str?, hv])
        simp only [Option.map_some, CustomObjects.resolve, hs]
      | _ => rfl
  rw [fields, fields, List.filterMap_congr hresolve]

/-- **A layer of the family that a node has reads the same** with tables that agree on the node. -/
theorem CustomObjects.AgreeOn.read_eq (h : c.AgreeOn format c' n)
    (hf : Family.resolve format c n.opType = .ok family) :
    Layer.read ⟨format, shapes, c⟩ family n = Layer.read ⟨format, shapes, c'⟩ family n := by
  cases family with
  | custom l =>
    obtain ⟨hop, hl⟩ := Family.layer?_of_resolve hf
    have hfields : l.fields c n = l.fields c' n := CustomLayer.fields_congr ((h hop).2 l hl)
    exact congrArg (fun fields => Except.ok (Layer.custom l fields)) hfields
  | _ => rfl

namespace Graph

variable {g : Graph} {id : Nat}

/-! ### The walk -/

/-- The tables agree on the live nodes of a graph. -/
def AgreeOn (format : ModelFormat) (c c' : CustomObjects) (g : Graph) : Prop :=
  ∀ n ∈ g.live, c.AgreeOn format c' n

/-- **Tables that agree on a graph agree on it after a visit**: whoever is left says what it said
before. -/
theorem AgreeOn.of_visited {cx : FusionContext} {g' : Graph} {o : Outcome}
    (h : g.AgreeOn format c c') (hv : Visited cx g id g' o) : g'.AgreeOn format c c' := by
  intro n hn
  obtain ⟨i, hi⟩ := mem_live.mp hn
  obtain ⟨m, hm, hb⟩ := hv.exists_liveAt hi
  exact (h m (mem_live.mpr ⟨i, hm⟩)).of_bare hb.symm

/-- A visit consults the table for the family of the node alone. -/
theorem visit_congr (hn : g.LiveAt id n) (h : c.AgreeOn format c' n) :
    g.visit ⟨format, policy, c⟩ id = g.visit ⟨format, policy, c'⟩ id := by
  simp only [visit, hn.1, Option.map_some, h.resolve_eq]
  rfl

/-- **The walk over a graph is the same** with tables that agree on the graph. -/
theorem readLayers_congr (ids : List Nat) (h : g.AgreeOn format c c') :
    g.readLayers ⟨format, policy, c⟩ shapes ids = g.readLayers ⟨format, policy, c'⟩ shapes ids := by
  induction ids generalizing g with
  | nil => rfl
  | cons id ids ih =>
    rcases g.exists_liveAt_or id with ⟨n, hn⟩ | hmissing
    · have hagree : c.AgreeOn format c' n := h n (mem_live.mpr ⟨id, hn⟩)
      have hvisit : g.visit (ConvertContext.fusion ⟨format, policy, c⟩) id =
          g.visit (ConvertContext.fusion ⟨format, policy, c'⟩) id := visit_congr hn hagree
      rw [readLayers_cons hn, readLayers_cons hn]
      simp only [ConvertContext.layer, hvisit, ← hagree.resolve_eq]
      cases hf : Family.resolve format c n.opType with
      | error e => rfl
      | ok family =>
        simp only [hagree.read_eq hf]
        cases hv : g.visit (ConvertContext.fusion ⟨format, policy, c'⟩) id with
        | error e => rfl
        | ok r =>
          obtain ⟨g₁, o⟩ := r
          have hrest := ih (h.of_visited (visited_of_visit hv))
          cases o with
          | kept => simp only [hrest]
          | absorbedBy => exact hrest
          | elided => exact hrest
    · rw [readLayers_of_absent hmissing, readLayers_of_absent hmissing, ih h]

end Graph

/-! ### Conversions -/

/-- **A conversion gives the same result** with tables that agree on the reclassified normal
form. -/
theorem convert_congr (nodes : List Node)
    (h : ∀ g, normalize format nodes = .ok g → (g.reclassify format).AgreeOn format c c') :
    convert ⟨format, policy, c⟩ nodes shapes = convert ⟨format, policy, c'⟩ nodes shapes := by
  have hrecords : unlinkedRecords ⟨format, policy, c⟩ shapes nodes =
      unlinkedRecords ⟨format, policy, c'⟩ shapes nodes := by
    rw [unlinkedRecords, unlinkedRecords]
    cases hg : normalize format nodes with
    | error e => rfl
    | ok g => simp only [Graph.readLayers_congr _ (h g hg), bind, Except.bind]
  rw [convert, convert, hrecords]

/-- **Custom objects cannot touch what is built in.** Two tables give the same document, or the same
error, if they agree on the nodes that normalization and reclassification leave. So what a table
says of built-in operators never matters, and a table that speaks of no others is as good as
none. -/
theorem convert_eq_of_agreeOn (format : ModelFormat) (policy : FusionPolicy)
    (c c' : CustomObjects) (nodes : List Node) (shapes : Entries (List Int)) :
    ((∀ g, normalize format nodes = .ok g → ∀ n ∈ (g.reclassify format).live,
        c.AgreeOn format c' n) →
      convert ⟨format, policy, c⟩ nodes shapes = convert ⟨format, policy, c'⟩ nodes shapes) ∧
    ((∀ op, Family.ofOp? format op = none → c.layer? op = c'.layer? op) →
      (∀ s, c.constant? s = c'.constant? s) →
      convert ⟨format, policy, c⟩ nodes shapes = convert ⟨format, policy, c'⟩ nodes shapes) ∧
    ((∀ op, Family.ofOp? format op = none → c.layer? op = none) →
      convert ⟨format, policy, c⟩ nodes shapes = convert ⟨format, policy, {}⟩ nodes shapes) := by
  refine ⟨convert_congr nodes, fun hlayer hconstant => ?_, fun hlayer => ?_⟩
  · exact convert_congr nodes fun g _ n _ hop =>
      ⟨hlayer n.opType hop, fun l _ key _ s _ => hconstant s⟩
  · refine convert_congr nodes fun g _ n _ hop => ⟨hlayer n.opType hop, fun l hl => ?_⟩
    rw [hlayer n.opType hop] at hl
    cases hl

end Tables

/-- A table that describes sums in a way of its own, besides other layers. -/
def withOwnSum (layers : Entries CustomLayer) (constants : Entries Json) : CustomObjects :=
  ⟨("Add", { layerType := "Add", recordType? := some "MyAdd" }) :: layers, constants⟩

theorem layer?_withOwnSum {layers : Entries CustomLayer} {constants : Entries Json} {op : String}
    (h : Family.ofOp? .keras op = none) :
    (withOwnSum layers constants).layer? op = layers.value? op := by
  rw [CustomObjects.layer?, withOwnSum, Entries.value?]
  split
  · next hop =>
    subst hop
    cases h
  · rfl

/-- A layer that hands on one attribute. -/
def subPixel : CustomLayer where
  layerType := "SubPixel"
  recordType? := some "PixelShuffle"
  planes? := some 3
  attributes := ["upscale"]

/-- That layer, and the constant that its attribute names. -/
def plainObjects : CustomObjects := ⟨[("SubPixel", subPixel)], [("scale_x", .int 2)]⟩

/-- Besides, sums in a way of their own, and what nobody asks for. -/
def crowdedObjects : CustomObjects :=
  withOwnSum (("Riddle", { layerType := "Riddle" }) :: plainObjects.layers)
    (("valid", .int 0) :: plainObjects.constants)

/-- A described layer, whose attribute names a constant, and a sum. -/
def upscaledSum : List Node := [
  { name := "in", opType := "InputLayer", inbound := some [] },
  { name := "up", opType := "SubPixel", attrs := [("upscale", .str "scale_x")] },
  { name := "sum", opType := "Add", inbound := some ["up", "up"] }]

/-- The sum is written as a sum, and what the table says of layers that are not there, or of
constants that are not named, does not matter either. -/
theorem convert_upscaledSum :
    (∀ g, normalize .keras upscaledSum = .ok g → ∀ n ∈ (g.reclassify .keras).live,
      crowdedObjects.AgreeOn .keras plainObjects n) ∧
    (∃ doc, convert ⟨.keras, .standard, crowdedObjects⟩ upscaledSum [] = .ok doc ∧
      convert ⟨.keras, .standard, plainObjects⟩ upscaledSum [] = .ok doc ∧
      doc.records.map Record.type = ["InputLayer", "PixelShuffle", "Add"]) ∧
    convert ⟨.keras, .standard, withOwnSum plainObjects.layers plainObjects.constants⟩
        upscaledSum [] =
      convert ⟨.keras, .standard, plainObjects⟩ upscaledSum [] ∧
    convert ⟨.keras, .standard, withOwnSum [] []⟩ upscaledSum [] =
      .error (.unsupportedLayer "SubPixel") := by
  have hnorm : normalize .keras upscaledSum = .ok ⟨feedInOrder none (flatten upscaledSum)⟩ := rfl
  -- only one node is not built in, and it names one constant
  have hup : ∀ n ∈ (Graph.reclassify ⟨feedInOrder none (flatten upscaledSum)⟩ .keras).live,
      Family.ofOp? .keras n.opType = none →
        n.opType = "SubPixel" ∧ n.attrs.str? "upscale" = some "scale_x" := by decide
  have hagree : ∀ g, normalize .keras upscaledSum = .ok g → ∀ n ∈ (g.reclassify .keras).live,
      crowdedObjects.AgreeOn .keras plainObjects n := by
    intro g hg n hn hop
    obtain rfl := Except.ok.inj (hnorm.symm.trans hg)
    obtain ⟨hn, hs⟩ := hup n hn hop
    rw [hn]
    refine ⟨rfl, fun l hl key hkey s hks => ?_⟩
    obtain rfl := Option.some.inj hl
    obtain rfl := List.mem_singleton.mp hkey
    obtain rfl := Option.some.inj (hs.symm.trans hks)
    rfl
  have hok : (convert ⟨.keras, .standard, plainObjects⟩ upscaledSum []).toOption.map
      (fun doc => doc.records.map Record.type) = some ["InputLayer", "PixelShuffle", "Add"] := by
    decide
  obtain ⟨doc, hdoc, htypes⟩ := exists_ok_of_toOption_map hok
  refine ⟨hagree, ⟨doc, ?_, hdoc, htypes⟩, ?_, ?_⟩
  · rw [(convert_eq_of_agreeOn _ _ _ _ _ _).1 hagree, hdoc]
  · exact (convert_eq_of_agreeOn _ _ _ _ _ _).2.1 (fun op hop => layer?_withOwnSum hop) fun s => rfl
  · rw [(convert_eq_of_agreeOn _ _ _ {} _ _).2.2 fun op hop => layer?_withOwnSum hop]
    rfl

end LayerGraph
