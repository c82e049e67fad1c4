import LayerGraph.Proofs.Account

/-!
# What becomes of a declared activation

A layer with a kernel may declare an activation of its own, as an attribute. It applies right
after the layer, so what is merged into the layer has to come after it. For a batch normalization
this is refused (`LayerGraph.Graph.norm_eq_none_of_declares`): a node that declares an activation
never holds one.

An activation is not refused. The record has one field for both, and the absorbed activation takes
the place of the declared one (`LayerGraph.Layer.field?_activation`). So a declared activation
stands in the document exactly if nothing was merged over it, and a convolution that declares a
rectifier and is followed by a sigmoid becomes a convolution with a sigmoid
(`LayerGraph.doubleActivation`).
-/

namespace LayerGraph

/-! ### The nodes of a document -/

/-- Feeding in order changes the wiring only. -/
theorem map_feedInOrder {β : Type} {p : Node → β}
    (hp : ∀ (n : Node) xs, p { n with inbound := xs } = p n) (previous : Option String)
    (ns : List Node) : (feedInOrder previous ns).map p = ns.map p := by
  induction ns generalizing previous with
  | nil => rfl
  | cons n ns ih =>
    rw [feedInOrder, List.map_cons, List.map_cons, ih, hp]

/-- **The nodes of a normal form say of themselves** what the leaves of the list said. -/
theorem map_bare_of_normalize_keras {nodes : List Node} {g : Graph}
    (h : normalize .keras nodes = .ok g) :
    g.nodes.map Node.bare = ((postorder nodes).filter Node.isLeaf).map Node.bare := by
  obtain ⟨-, rfl⟩ := normalize_eq_ok_iff.mp h
  have hfed := map_feedInOrder (p := Node.bare) (fun _ _ => rfl) none (flatten nodes)
  refine hfed.trans ?_
  rw [flatten_eq, List.map_map]
  rfl

/-- Only a pooling over everything is reclassified, in models with named variables. -/
theorem Node.reclassify_keras {n : Node} (h : n.opType ≠ "GlobalAveragePooling2D") :
    n.reclassify .keras = n := by
  rw [reclassify, reclassified?, if_neg h]
  rfl

/-- What a node says of itself after reclassification depends on what it said before. -/
theorem Node.bare_reclassify_keras (n : Node) :
    (n.reclassify .keras).bare = n.bare.reclassify .keras := by
  have hop : n.bare.opType = n.opType := rfl
  simp only [reclassify, reclassified?, hop]
  split <;> rfl

/-- The canonical activation depends on what a node says of itself. -/
theorem Node.CanonicalActivation.of_bare {n m : Node} {format : ModelFormat} {act : String}
    {alpha : Option Single} (h : n.CanonicalActivation format act alpha) (hb : n.bare = m.bare) :
    m.CanonicalActivation format act alpha := by
  have hpart : n.activationPart format = m.activationPart format :=
    (congrArg (Node.activationPart · format) hb :)
  rw [canonicalActivation_iff, ← hpart]
  exact canonicalActivation_iff.mp h

/-! ### A declared activation refuses batch normalizations -/

theorem Node.declaresActivation_of_bare {n m : Node} (h : n.bare = m.bare) :
    n.declaresActivation = m.declaresActivation := by
  have hattrs : n.attrs = m.attrs := (congrArg attrs h :)
  rw [declaresActivation, declaresActivation, hattrs]

namespace Graph

variable {cx : FusionContext} {g g' : Graph} {id i : Nat} {n : Node} {o : Outcome}

/-- No node that declares an activation holds a batch normalization. -/
def NormsFollowNothing (g : Graph) : Prop :=
  ∀ i n, g.LiveAt i n → n.declaresActivation = true → n.absorbed.norm = none

theorem NormsFollowNothing.visited (h : g.NormsFollowNothing) (hv : Visited cx g id g' o) :
    g'.NormsFollowNothing := by
  cases hv with
  | kept => exact h
  | elided live dropout =>
    intro i n' hn' hact
    rw [elide_eq] at hn'
    obtain ⟨-, m, hm, rfl⟩ := liveAt_retire.mp hn'
    exact h i m hm hact
  | @absorbed n m c t live offers target found operand allowed accepts =>
    intro i n' hn' hact
    obtain ⟨-, k, hk, rfl⟩ := (liveAt_merge target.1).mp hn'
    rw [Node.rewire_absorbed]
    by_cases hit : i = t
    · subst hit
      obtain rfl := hk.unique target
      rw [if_pos rfl] at hact ⊢
      have hdecl : k.declaresActivation = true :=
        (Node.declaresActivation_of_bare (k.absorb_bare c)).symm.trans hact
      cases c with
      | activation a => exact h i k hk hdecl
      | norm p =>
        -- this is what the node does not accept
        simp [Node.accepts, hdecl] at accepts
    · rw [if_neg hit] at hact ⊢
      exact h i k hk hact

/-- **A node that declares an activation never absorbs a batch normalization.** -/
theorem norm_eq_none_of_declares (hfresh : ∀ n ∈ g.nodes, n.absorbed = {})
    (hn : (g.fuse cx).1.LiveAt i n) (hact : n.declaresActivation = true) :
    n.absorbed.norm = none := by
  have hinit : g.NormsFollowNothing := fun i n hn _ => by
    rw [hfresh n (List.mem_of_getElem? hn.1)]
  exact fuseFrom_invariant (P := NormsFollowNothing) _ (fun _ _ _ _ _ h hv => h.visited hv) hinit
    i n hn hact

end Graph

/-! ### What is written of it -/

theorem lastField?_absorbedFields_own {n : Node} (own : Option String)
    (h : n.absorbed.activation = none) :
    lastField? "activation" (n.absorbedFields own) = own.map Json.str := by
  cases own <;> simp [Node.absorbedFields, h, lastField?]

/-- The activation that a layer declares itself. -/
def Layer.declared? : Layer → Option String
  | .conv l => l.activation
  | .dense l => l.activation
  | _ => none

/-- **Without an absorbed activation the layer's own is written.** -/
theorem Layer.field?_activation_own {l : Layer} {n : Node} (hl : l.carriesActivation = true)
    (h : n.absorbed.activation = none) :
    (l.record n).field? "activation" = l.declared?.map Json.str := by
  cases l with
  | conv l =>
    have hnot : "activation" ∉ l.fields.map Prod.fst := by simp [ConvLayer.fields]
    rw [record, ConvLayer.field?_record, lastField?_append, lastField?_absorbedFields_own _ h,
      lastField?_of_not_mem hnot, Option.or_none]
    rfl
  | dense l =>
    have hnot : "activation" ∉ l.fields.map Prod.fst := by
      cases h : l.gemm <;> simp [DenseLayer.fields, DenseLayer.scalings, h]
    rw [record, DenseLayer.field?_record, lastField?_append, lastField?_absorbedFields_own _ h,
      lastField?_of_not_mem hnot, Option.or_none]
    rfl
  | add => simp [record, Node.field?_elementwiseRecord, lastField?, h, declared?]
  | multiply => simp [record, Node.field?_elementwiseRecord, lastField?, h, declared?]
  | _ => cases hl

/-- The operators of layers with a kernel, in models with named variables. -/
def kernelOps : List String := ["Conv2D", "DepthwiseConv2D", "Conv2DTranspose", "Dense"]

/-- **A layer with a kernel** can tell what it absorbed, and declares what its attribute says. -/
theorem Layer.declared?_of_read (cx : LayerContext) {family : Family} {n : Node} {l : Layer}
    (hformat : cx.format = .keras) (hop : n.opType ∈ kernelOps)
    (hf : Family.ofOp? .keras n.opType = some family) (h : Layer.read cx family n = .ok l) :
    l.carriesActivation = true ∧ l.carriesNorm = true ∧
      l.declared? = n.attrs.str? "activation" := by
  have hconv : ∀ {kind : ConvKind} {l : ConvLayer}, ConvLayer.read cx kind n = .ok l →
      l.activation = n.attrs.str? "activation" := by
    intro kind l hl
    rw [ConvLayer.read, hformat] at hl
    exact (ConvLayer.of_readKeras hl).2
  simp only [kernelOps, List.mem_cons, List.not_mem_nil, or_false] at hop
  rcases hop with hop | hop | hop | hop <;> rw [hop] at hf <;> obtain rfl := Option.some.inj hf <;>
    obtain ⟨k, hk, rfl⟩ := exists_ok_of_map h
  · exact ⟨rfl, rfl, hconv hk⟩
  · exact ⟨rfl, rfl, hconv hk⟩
  · exact ⟨rfl, rfl, hconv hk⟩
  · rw [DenseLayer.read, hformat] at hk
    exact ⟨rfl, rfl, (DenseLayer.of_readKeras hk).2⟩

/-! ### What stands in the document -/

section Keras

variable {nodes : List Node} {g : Graph} {n m : Node} {i : Nat}

/-- A node of a reclassified normal form says of itself what a leaf of the list says, once it is
reclassified. -/
theorem exists_leaf_of_reclassify (hg : normalize .keras nodes = .ok g)
    (hm : m ∈ (g.reclassify .keras).live) :
    ∃ l ∈ postorder nodes, l.isLeaf = true ∧ m.bare = (l.reclassify .keras).bare := by
  obtain ⟨i, hi⟩ := Graph.mem_live.mp hm
  obtain ⟨k, hk, rfl⟩ := Graph.liveAt_reclassify.mp hi
  have hmem : k.bare ∈ g.nodes.map Node.bare := List.mem_map_of_mem (List.mem_of_getElem? hk.1)
  rw [map_bare_of_normalize_keras hg] at hmem
  obtain ⟨l, hl, heq⟩ := List.mem_map.mp hmem
  obtain ⟨hl, hleaf⟩ := List.mem_filter.mp hl
  refine ⟨l, hl, hleaf, ?_⟩
  rw [Node.bare_reclassify_keras, Node.bare_reclassify_keras, heq]

/-- The leaves of a list that has a normal form are told apart by their names. -/
theorem eq_of_name_of_normalize {format : ModelFormat} (hg : normalize format nodes = .ok g)
    (hn : n ∈ postorder nodes) (hnleaf : n.isLeaf = true) (hm : m ∈ postorder nodes)
    (hmleaf : m.isLeaf = true) (hname : n.name = m.name) : n = m := by
  obtain ⟨hnd, -⟩ := normalize_eq_ok_iff.mp hg
  rw [flatten_eq, List.map_map] at hnd
  exact List.inj_on_of_nodup_map hnd (List.mem_filter.mpr ⟨hn, hnleaf⟩)
    (List.mem_filter.mpr ⟨hm, hmleaf⟩) hname

section Document

variable {shapes : Entries (List Int)} {g' : Graph} {records : List Record} {r : Record}
  {act : String}

/-- The record of a leaf that is no pooling over everything is that of a node that says of itself
what the leaf says. -/
theorem Documented.exists_node_of_leaf
    (hdoc : Documented .keras shapes (g.reclassify .keras) g' records)
    (hg : normalize .keras nodes = .ok g) (hn : n ∈ postorder nodes) (hleaf : n.isLeaf = true)
    (hop : n.opType ≠ "GlobalAveragePooling2D") (hr : r ∈ records) (hname : r.name = n.name) :
    ∃ t m, g'.LiveAt t m ∧ m.bare = n.bare ∧
      Written { format := .keras } shapes m r.unlinked := by
  obtain ⟨t, m, hm, hw⟩ := hdoc.exists_node hr
  obtain ⟨m₀, hm₀, hb⟩ := hdoc.ledger.kept t m hm
  obtain ⟨l, hl, hlleaf, hbl⟩ := exists_leaf_of_reclassify hg (Graph.mem_live.mpr ⟨t, hm₀⟩)
  have hmname : m.name = (l.reclassify .keras).name := Node.name_of_bare (hb.trans hbl)
  have hlname : l.name = n.name := by
    calc l.name = (l.reclassify .keras).name := (l.reclassify_name .keras).symm
      _ = m.name := hmname.symm
      _ = r.name := hw.name_eq.symm
      _ = n.name := hname
  obtain rfl := eq_of_name_of_normalize hg hl hlleaf hn hleaf hlname
  rw [Node.reclassify_keras hop] at hbl
  exact ⟨t, m, hm, hb.trans hbl, hw⟩

/-- What a record names as an absorbed activation is a leaf without a record. -/
theorem Documented.exists_leaf_of_act_name
    (hdoc : Documented .keras shapes (g.reclassify .keras) g' records)
    (hg : normalize .keras nodes = .ok g) {t : Nat} {a : ActivationPart} (hm : g'.LiveAt t m)
    (ha : m.absorbed.activation = some a) :
    ∃ l ∈ postorder nodes, l.isLeaf = true ∧ Family.ofOp? .keras l.opType = some .activation ∧
      Unrecorded records l ∧ a.source = l.name ∧ l.CanonicalActivation .keras a.name a.alpha := by
  obtain ⟨i, l', hl', hi, hoff, -⟩ := hdoc.exists_source (c := .activation a) hm ha
  obtain ⟨hf, hact⟩ := hoff.of_activation
  obtain ⟨l, hl, hleaf, hb⟩ := exists_leaf_of_reclassify hg (Graph.mem_live.mpr ⟨i, hl'⟩)
  -- a pooling is no activation, so this leaf was not reclassified
  have hop : l.opType ≠ "GlobalAveragePooling2D" := by
    intro hop
    have hpool : (l.reclassify .keras).opType = "AveragePooling2D" := by
      rw [Node.reclassify, Node.reclassified?, if_pos hop]
      rfl
    rw [Node.opType_of_bare hb, hpool] at hf
    cases hf
  rw [Node.reclassify_keras hop] at hb
  have hun : Unrecorded records l := by
    intro s hs hname
    exact hdoc.unrecorded hl' hi s hs (hname.trans (Node.name_of_bare hb).symm)
  have hsource : a.source = l.name := hoff.source_eq.trans (Node.name_of_bare hb)
  exact ⟨l, hl, hleaf, Node.opType_of_bare hb ▸ hf, hun, hsource, hact.of_bare hb⟩

end Document

/-- **What becomes of a declared activation.** The record of a layer with a kernel that declares an
activation has no batch normalization. It has the declared activation exactly if it names no
absorbed one; else it has the canonical activation of the absorbed one, which has no record. -/
theorem convert_declared {shapes : Entries (List Int)} {doc : Document}
    (hfresh : ∀ n ∈ postorder nodes, n.absorbed = {})
    (h : convert { format := .keras } nodes shapes = .ok doc) :
    ∀ n ∈ postorder nodes, n.isLeaf = true → n.opType ∈ kernelOps →
      ∀ act, n.attrs.str? "activation" = some act → act ≠ "linear" →
        ∀ r ∈ doc.records, r.name = n.name →
          r.field? "bn_name" = none ∧ r.norm = none ∧
          (r.field? "act_name" = none ∧ r.field? "activation" = some (.str act) ∨
            ∃ l ∈ postorder nodes, l.isLeaf = true ∧
              Family.ofOp? .keras l.opType = some .activation ∧ Unrecorded doc.records l ∧
              r.field? "act_name" = some (.str l.name) ∧ r.TellsActivation .keras l) := by
  obtain ⟨g, hg, hempty, hdoc⟩ := documented_of_convert hfresh h
  intro n hn hleaf hop act hact hlin r hr hname
  have hglobal : n.opType ≠ "GlobalAveragePooling2D" := fun he => by
    rw [he] at hop
    exact absurd hop (by decide)
  obtain ⟨t, m, hm, hb, hw⟩ := hdoc.exists_node_of_leaf hg hn hleaf hglobal hr hname
  obtain ⟨family, n', layer, hb', hf, hread, hrec, hcustom, -, -⟩ := hdoc.exists_layer hm hw
  have hn' : n'.bare = n.bare := hb'.trans hb
  have hattrs : n'.attrs = n.attrs := Node.attrs_of_bare hn'
  obtain ⟨hcarries, hnorms, hdecl⟩ := Layer.declared?_of_read (ConvertContext.layer _ shapes) rfl
    (Node.opType_of_bare hn' ▸ hop) (Node.opType_of_bare hb' ▸ hf) hread
  -- a batch normalization would have been refused
  have hnorm : m.absorbed.norm = none := by
    refine Graph.norm_eq_none_of_declares hempty hm ?_
    rw [Node.declaresActivation_of_bare hb, Node.declaresActivation, hact]
    simpa using hlin
  have hfield : ∀ key, r.field? key = (layer.record m).field? key := fun key =>
    (congrArg (Record.field? · key) hrec :)
  have hrnorm : r.norm = (layer.record m).norm := (congrArg Record.norm hrec :)
  refine ⟨?_, ?_, ?_⟩
  · rw [hfield, Layer.field?_bn_name hcustom (.inr hnorm), hnorm]
    rfl
  · rw [hrnorm, Layer.norm_record hnorms, hnorm]
    rfl
  cases ha : m.absorbed.activation with
  | none =>
    refine .inl ⟨?_, ?_⟩
    · rw [hfield, Layer.field?_act_name hcustom (.inr ha), ha]
      rfl
    · rw [hfield, Layer.field?_activation_own hcarries ha, hdecl, hattrs, hact]
      rfl
  | some a =>
    obtain ⟨l, hl, hlleaf, hlf, hun, hsource, hcanonical⟩ := hdoc.exists_leaf_of_act_name hg hm ha
    refine .inr ⟨l, hl, hlleaf, hlf, hun, ?_, a.name, a.alpha, hcanonical,
      hdoc.field?_of_activation hm hw ha⟩
    rw [hfield, Layer.field?_act_name hcustom (.inl hcarries), ha, ← hsource]
    rfl

/-- A convolution with a rectifier of its own, which a batch normalization follows, and a dense
layer without one, which an activation follows. -/
def declaredChain : List Node := [
  { name := "in", opType := "InputLayer", inbound := some [] },
  { name := "conv", opType := "Conv2D", attrs := [("activation", .str "relu")],
    weights := [("kernel", ⟨[1, 1, 1, 1], [.zero]⟩)] },
  { name := "norm", opType := "BatchNormalization",
    weights := [("moving_mean", ⟨[1], [.zero]⟩), ("moving_variance", ⟨[1], [.zero]⟩)] },
  { name := "dense", opType := "Dense", attrs := [("activation", .str "linear")],
    weights := [("kernel", ⟨[1, 1], [.zero]⟩)] },
  { name := "tanh", opType := "Activation", attrs := [("activation", .str "tanh")] }]

/-- The record of the convolution has its rectifier, and no batch normalization. -/
theorem convert_declaredChain :
    (∀ n ∈ postorder declaredChain, n.absorbed = {}) ∧
      ∃ doc, convert { format := .keras } declaredChain [] = .ok doc ∧
        ∃ r ∈ doc.records, r.name = "conv" ∧ r.field? "bn_name" = none ∧
          r.field? "activation" = some (.str "relu") := by
  have hfresh : ∀ n ∈ postorder declaredChain, n.absorbed = {} := by decide
  have hok : ((convert { format := .keras } declaredChain []).toOption.map fun doc =>
      doc.records.map fun r => (r.name, r.text? "act_name")) =
      some [("in", none), ("conv", none), ("norm", none), ("dense", some "tanh")] := by decide
  obtain ⟨doc, hdoc, hnames⟩ := exists_ok_of_toOption_map hok
  have hmem : ("conv", none) ∈ doc.records.map fun r => (r.name, r.text? "act_name") := by
    rw [hnames]
    decide
  obtain ⟨r, hr, heq⟩ := List.mem_map.mp hmem
  obtain ⟨hname, htext⟩ := Prod.mk.inj heq
  obtain ⟨hbn, -, ⟨-, hact⟩ | ⟨l, -, -, -, -, hact, -⟩⟩ := convert_declared hfresh hdoc _
    (List.mem_of_getElem? (i := 1) rfl) (by decide) (by decide) "relu" (by decide) (by decide)
    r hr hname
  · exact ⟨hfresh, doc, hdoc, r, hr, hname, hbn, hact⟩
  · rw [Record.text?, hact] at htext
    cases htext

/-- A convolution with a rectifier of its own, which a sigmoid follows. -/
def doubleActivation : List Node := [
  { name := "in", opType := "InputLayer", inbound := some [] },
  { name := "conv", opType := "Conv2D", attrs := [("activation", .str "relu")],
    weights := [("kernel", ⟨[1, 1, 1, 1], [.zero]⟩)] },
  { name := "act", opType := "Activation", attrs := [("activation", .str "sigmoid")] }]

/-- **A declared activation is lost** when another one is merged over it: the document has a
convolution with a sigmoid, and no rectifier. -/
theorem convert_doubleActivation :
    (∀ n ∈ postorder doubleActivation, n.absorbed = {}) ∧
      (∃ n ∈ postorder doubleActivation, n.name = "conv" ∧ n.opType ∈ kernelOps ∧
        n.attrs.str? "activation" = some "relu") ∧
      ((convert { format := .keras } doubleActivation []).toOption.map fun doc =>
          doc.records.map fun r => (r.name, r.text? "activation")) =
        some [("in", none), ("conv", some "sigmoid")] := by
  have hconv : doubleActivation[1] ∈ postorder doubleActivation :=
    List.mem_of_getElem? (i := 1) rfl
  exact ⟨by decide, ⟨_, hconv, rfl, by decide, by decide⟩, by decide⟩

end Keras

end LayerGraph
