import LayerGraph.Proofs.Conversion
import LayerGraph.Proofs.Fields

/-!
# The window of a global pooling

A global pooling has no window of its own: it takes one that spans the grid of its first operand,
as far as the height of that grid is known. Heights are known by name, and the name is looked up
when the layer is read. By then the nodes before have had their visits, and if the operand was
merged or elided on the way, the slot bears the name of another node
(`LayerGraph.convert_globalPool_mergedOperand`). As long as the operand is there when the pooling
is visited, its own height counts, whatever becomes of it later
(`LayerGraph.convert_globalPool`).

The record of the pooling is there in any case: a pooling has nothing to offer, so no policy makes
it leave (`LayerGraph.Graph.exists_liveAt_fuseFrom`).
-/

namespace LayerGraph

/-! ### The first operand -/

/-- The first name stays while others are substituted. -/
theorem head?_substitute {removed x : String} {names xs : List String} (h : xs.head? = some x)
    (hne : x ≠ removed) : (substitute removed names xs).head? = some x := by
  obtain ⟨ys, rfl⟩ := List.head?_eq_some_iff.mp h
  rw [substitute, List.flatMap_cons, if_neg hne]
  rfl

namespace Graph

variable {cx : FusionContext} {g g' : Graph} {i id : Nat} {n m : Node} {o : Outcome} {x : String}

/-- **The graph that a fusion has made** when it comes to a position. -/
def fusedUpTo (cx : FusionContext) (g : Graph) (i : Nat) : Graph :=
  (g.fuseFrom cx (g.liveIds.filter (· < i))).1

/-- The name of a node that leaves is borne by none of those that stay. -/
theorem Visited.name_ne (h : Visited cx g id g' o) (hd : g.Distinct) (ho : o ≠ .kept)
    (hn : g.LiveAt id n) (hx : x ∈ g'.live.map Node.name) : x ≠ n.name := by
  rintro rfl
  obtain ⟨l, hl, hname⟩ := List.mem_map.mp hx
  obtain ⟨j, hj⟩ := mem_live.mp hl
  obtain ⟨k, hk, hb⟩ := h.exists_liveAt hj
  obtain rfl := hd.eq_of_name hk.1 hn.1 ((Node.name_of_bare hb).symm.trans hname)
  exact h.not_liveAt ho hj

/-- **A visit leaves a first operand alone** if the node of that name is there after it. -/
theorem Visited.head?_inputs (h : Visited cx g id g' o) (hd : g.Distinct) (hn : g.LiveAt i n)
    (hm : g'.LiveAt i m) (hx : n.inputs.head? = some x) (hborne : x ∈ g'.live.map Node.name) :
    m.inputs.head? = some x := by
  have hv := h
  cases h with
  | kept => exact hm.unique hn ▸ hx
  | elided live =>
    obtain ⟨-, k, hk, rfl⟩ := liveAt_retire.mp hm
    obtain rfl := hk.unique hn
    rw [Node.rewire_inputs]
    exact head?_substitute hx (hv.name_ne hd nofun live hborne)
  | absorbed live _ target =>
    obtain ⟨-, k, hk, rfl⟩ := (liveAt_merge target.1).mp hm
    obtain rfl := hk.unique hn
    rw [Node.rewire_inputs, apply_ite Node.inputs, Node.absorb_inputs, ite_self]
    exact head?_substitute hx (hv.name_ne hd nofun live hborne)

/-- **A run leaves a first operand alone** if the node of that name is there after it. -/
theorem head?_inputs_fuseFrom (hd : g.Distinct) {ids : List Nat} (hn : g.LiveAt i n)
    (hm : (g.fuseFrom cx ids).1.LiveAt i m) (hx : n.inputs.head? = some x)
    (hborne : x ∈ (g.fuseFrom cx ids).1.live.map Node.name) : m.inputs.head? = some x := by
  -- a name that is borne after a visit was borne before it
  refine (fuseFrom_invariant (P := fun g' => g'.Distinct ∧ ∀ m, g'.LiveAt i m →
    x ∈ g'.live.map Node.name → m.inputs.head? = some x) ids ?_
    ⟨hd, fun m hm _ => hm.unique hn ▸ hx⟩).2 m hm hborne
  rintro id - g₁ g₂ o ⟨hd₁, hkeep⟩ hv
  refine ⟨hv.distinct hd₁, fun m hm hborne => ?_⟩
  obtain ⟨k, hk, -⟩ := hv.exists_liveAt hm
  refine hv.head?_inputs hd₁ hk hm (hkeep k hk ?_) hborne
  obtain ⟨l, hl, rfl⟩ := List.mem_map.mp hborne
  obtain ⟨j, hj⟩ := mem_live.mp hl
  obtain ⟨l', hl', hb⟩ := hv.exists_liveAt hj
  exact List.mem_map.mpr ⟨l', mem_live.mpr ⟨j, hl'⟩, (Node.name_of_bare hb).symm⟩

/-- **A pooling stays** under any policy, since it has nothing to offer. -/
theorem exists_liveAt_of_pooling {kind : PoolKind} (ids : List Nat) (hn : g.LiveAt i n)
    (hf : Family.resolve cx.format cx.custom n.opType = .ok (.pooling kind)) :
    ∃ m, (g.fuseFrom cx ids).1.LiveAt i m ∧ m.bare = n.bare := by
  refine exists_liveAt_fuseFrom ids hn (by rw [hf]; nofun) fun c hc => ?_
  rcases hc.cases with ⟨h, -⟩ | ⟨h, -⟩ <;> cases hf.symm.trans h

end Graph

/-! ### The record of a node -/

/-- The elements before a place in a sorted list are the smaller ones. -/
theorem eq_filter_lt {l before after : List Nat} {i : Nat} (h : l.Pairwise (· < ·))
    (hl : l = before ++ i :: after) : before = l.filter (· < i) := by
  subst hl
  obtain ⟨-, hafter, hbefore⟩ := List.pairwise_append.mp h
  have hsmall : before.filter (· < i) = before :=
    List.filter_eq_self.mpr fun j hj => by simpa using hbefore j hj i List.mem_cons_self
  have hlarge : (i :: after).filter (· < i) = [] := by
    refine List.filter_eq_nil_iff.mpr fun j hj => ?_
    rcases List.mem_cons.mp hj with rfl | hj
    · simp
    · simpa using Nat.le_of_lt ((List.pairwise_cons.mp hafter).1 j hj)
  rw [List.filter_append, hsmall, hlarge, List.append_nil]

section Walk

variable {cx : ConvertContext} {shapes : Entries (List Int)} {g g' : Graph} {doc : Document}
  {layers : List (Nat × Layer)} {i : Nat} {n : Node}

/-- **The record of a node that is left** has the fields of a layer that was read when fusion came
to the node. -/
theorem Graph.Walked.exists_record (hw : Graph.Walked cx shapes g g.liveIds g' layers)
    (hd : g.Distinct) (hl : Record.linkAll (g'.records layers) = (doc.records, none))
    (hn : g'.LiveAt i n) :
    ∃ m family layer r, (g.fusedUpTo cx.fusion i).LiveAt i m ∧ m.bare = n.bare ∧
      Family.resolve cx.format cx.custom m.opType = .ok family ∧
      Layer.read (cx.layer shapes) family m = .ok layer ∧
      doc.record? n.name = some r ∧ r.fields = (layer.record n).fields := by
  have hmem : i ∈ layers.map Prod.fst := by
    rw [hw.map_fst_liveIds]
    exact Graph.mem_liveIds.mpr ⟨n, hn⟩
  obtain ⟨⟨i, layer⟩, hlayer, rfl⟩ := List.mem_map.mp hmem
  obtain ⟨before, after, m, family, hids, hm, hf, hr⟩ := hw.readAt hlayer
  rw [eq_filter_lt Graph.pairwise_liveIds hids] at hm
  -- both nodes are what has become of one node of the graph before
  obtain ⟨k, hk, hmb⟩ := Graph.exists_liveAt_of_fuseFrom hm
  obtain ⟨k', hk', hnb⟩ := Graph.exists_liveAt_of_fuseFrom (hw.fuseFrom_fst ▸ hn)
  obtain rfl := hk.unique hk'
  have hlink : doc.records.map (fun r => (r.name, r.fields)) =
      (g'.records layers).map fun r => (r.name, r.fields) := by
    rw [← Record.map_linkAll (fun _ _ _ _ _ => rfl) (g'.records layers), hl]
  obtain ⟨r, hmem, heq⟩ := List.mem_map.mp
    (hlink ▸ List.mem_map_of_mem (Graph.record_mem_records hlayer hn))
  obtain ⟨hname, hfields⟩ := Prod.mk.inj heq
  have hd' : g'.Distinct := hw.fuseFrom_fst ▸ hd.fuseFrom _
  have hnodup : (doc.records.map Record.name).Nodup := by
    rw [(Document.lists_of_linkAll hd' hw.map_fst_liveIds hl).names]
    exact hd'.names_live
  refine ⟨m, family, layer, r, hm, hmb.trans hnb.symm, hf, hr, ?_, hfields⟩
  rw [← layer.record_name n, ← hname]
  exact Document.record?_eq_some hnodup hmem

end Walk

/-! ### Windows that span the grid -/

/-- The operator of a global average pooling. -/
def ModelFormat.globalPoolOp : ModelFormat → String
  | .keras => "GlobalAveragePooling2D"
  | .onnx => "GlobalAveragePool"

/-- A shape with a grid of positive height is known under a name. -/
def KnowsHeight (format : ModelFormat) (shapes : Entries (List Int)) (x : String) (d : Int) : Prop :=
  ∃ dims, shapes.value? x = some dims ∧ 3 < dims.length ∧ dims[format.heightAxis]? = some d ∧ 0 < d

/-- The window of a record spans a square grid. -/
def Record.SpansGrid (r : Record) (d : Int) : Prop :=
  r.field? "pool_size" = some (Json.ints [d, d]) ∧
    r.field? "strides" = some (Json.ints [1, 1]) ∧ r.field? "padding" = some (.str "valid")

theorem Record.SpansGrid.congr {r s : Record} {d : Int} (h : r.SpansGrid d)
    (hfields : s.fields = r.fields) : s.SpansGrid d := by
  rwa [SpansGrid, field?, field?, field?, hfields]

theorem PoolLayer.inputHeight?_eq_some {cx : LayerContext} {n : Node} {x : String} {d : Int}
    (hx : n.inputs.head? = some x) (hd : KnowsHeight cx.format cx.shapes x d) :
    inputHeight? cx n = some d := by
  obtain ⟨dims, hdims, hlen, haxis, hpos⟩ := hd
  simp [inputHeight?, hx, hdims, hlen, haxis, hpos]

/-- **A global pooling spans the grid** of the first operand of the node it is read from. -/
theorem Layer.spansGrid_of_read {cx : LayerContext} {kind : PoolKind} {m : Node} {l : Layer}
    {x : String} {d : Int} (h : Layer.read cx (.pooling kind) m = .ok l)
    (hglobal : m.attrs.bool? "global" = some true) (hx : m.inputs.head? = some x)
    (hd : KnowsHeight cx.format cx.shapes x d) (n : Node) : (l.record n).SpansGrid d := by
  obtain rfl : l = .pool (.read cx kind m) := (Except.ok.inj h).symm
  have hread : PoolLayer.read cx kind m = { PoolLayer.declared cx.format kind m with
      size := some [d, d], strides := some [1, 1], padding := some (.str "valid") } := by
    simp [PoolLayer.read, hglobal, PoolLayer.spanning, PoolLayer.inputHeight?_eq_some hx hd]
  rw [record, hread, PoolLayer.record]
  refine ⟨?_, ?_, ?_⟩ <;> rw [Record.field?_record_fill] <;> rfl

/-- Reclassification makes a global pooling an average pooling that is marked as global. -/
theorem Node.exists_globalPool {n : Node} {format : ModelFormat}
    (h : n.opType = format.globalPoolOp) :
    ∃ op, n.reclassify format = n.globalPool op ∧
      ∀ custom, Family.resolve format custom op = .ok (.pooling .average) := by
  cases format with
  | keras =>
    refine ⟨"AveragePooling2D", ?_, fun _ => rfl⟩
    simp [reclassify, reclassified?, h, ModelFormat.globalPoolOp]
  | onnx =>
    refine ⟨"AveragePool", ?_, fun _ => rfl⟩
    simp [reclassify, reclassified?, h, ModelFormat.globalPoolOp]

theorem Node.bool?_globalPool (op : String) (n : Node) :
    (n.globalPool op).attrs.bool? "global" = some true := by
  rw [Attributes.bool?, globalPool, Entries.value?_set_self]

/-- **A global pooling gets its window from the known shapes.** It has a record, which spans the
grid of what is its first operand when fusion comes to it. That is its first operand in the normal
form, as long as the node of that name is there at that time, whatever becomes of it later. -/
theorem convert_globalPool {cx : ConvertContext} {shapes : Entries (List Int)} {nodes : List Node}
    {doc : Document} (h : convert cx nodes shapes = .ok doc) :
    ∃ g, normalize cx.format nodes = .ok g ∧
      ∀ i n, g.LiveAt i n → n.opType = cx.format.globalPoolOp →
        ∃ m r, ((g.reclassify cx.format).fusedUpTo cx.fusion i).LiveAt i m ∧
          doc.record? n.name = some r ∧
          (∀ x d, m.inputs.head? = some x → KnowsHeight cx.format shapes x d → r.SpansGrid d) ∧
          ∀ x d, n.inputs.head? = some x → KnowsHeight cx.format shapes x d →
            x ∈ ((g.reclassify cx.format).fusedUpTo cx.fusion i).live.map Node.name →
              r.SpansGrid d := by
  obtain ⟨g, g', layers, hg, hw, hl⟩ := exists_of_convert h
  have hd : (g.reclassify cx.format).Distinct := (distinct_of_normalize hg).reclassify
  refine ⟨g, hg, fun i n hn hop => ?_⟩
  obtain ⟨op, hrec, hfam⟩ := n.exists_globalPool hop
  have hn₀ : (g.reclassify cx.format).LiveAt i (n.globalPool op) :=
    Graph.liveAt_reclassify.mpr ⟨n, hn, hrec.symm⟩
  obtain ⟨k, hk, hkb⟩ : ∃ k, g'.LiveAt i k ∧ k.bare = (n.globalPool op).bare := by
    rw [← hw.fuseFrom_fst]
    exact Graph.exists_liveAt_of_pooling _ hn₀ (hfam cx.custom)
  obtain ⟨m, family, layer, r, hm, hmb, hf, hr, hrecord, hfields⟩ := hw.exists_record hd hl hk
  replace hmb : m.bare = (n.globalPool op).bare := hmb.trans hkb
  have hop : m.opType = op := Node.opType_of_bare hmb
  have hglobal : m.attrs.bool? "global" = some true := by
    rw [Node.attrs_of_bare hmb]
    exact n.bool?_globalPool op
  obtain rfl : family = .pooling .average :=
    Except.ok.inj (hf.symm.trans (hop ▸ hfam cx.custom))
  have hspans : ∀ x d, m.inputs.head? = some x → KnowsHeight cx.format shapes x d →
      r.SpansGrid d := fun x d hx hknown =>
    (Layer.spansGrid_of_read hr hglobal hx hknown k).congr hfields
  have hname : k.name = n.name := Node.name_of_bare (m := n.globalPool op) hkb
  refine ⟨m, r, hm, hname ▸ hrecord, hspans, fun x d hx hknown hborne => ?_⟩
  exact hspans x d (Graph.head?_inputs_fuseFrom hd hn₀ hm hx hborne) hknown

/-- Two global poolings. The operand of the first stays; that of the second is a dropout, which is
listed after the pooling and elided only then. -/
def pooledBranches : List Node := [
  { name := "in", opType := "InputLayer", inbound := some [] },
  { name := "sum", opType := "Add", inbound := some ["in", "in"] },
  { name := "relu", opType := "ReLU", inbound := some ["sum"] },
  { name := "pool", opType := "GlobalAveragePooling2D", inbound := some ["sum"] },
  { name := "tail", opType := "GlobalAveragePooling2D", inbound := some ["drop"] },
  { name := "drop", opType := "Dropout", inbound := some ["relu"] }]

/-- Both windows span the grid of the operand, though in the end both records are fed by the
sum. -/
theorem convert_pooledBranches :
    ∃ doc, convert ⟨.keras, .standard, {}⟩ pooledBranches
        [("sum", [1, 7, 7, 3]), ("drop", [1, 5, 5, 3])] = .ok doc ∧
      doc.records.map Record.inbounds = [[], ["in", "in"], ["sum"], ["sum"]] ∧
      (∃ r, doc.record? "pool" = some r ∧ r.SpansGrid 7) ∧
      ∃ r, doc.record? "tail" = some r ∧ r.SpansGrid 5 := by
  have hok : (convert ⟨.keras, .standard, {}⟩ pooledBranches
      [("sum", [1, 7, 7, 3]), ("drop", [1, 5, 5, 3])]).toOption.map
        (fun doc => doc.records.map Record.inbounds) =
          some [[], ["in", "in"], ["sum"], ["sum"]] := by decide
  have hnorm : normalize .keras pooledBranches = .ok ⟨pooledBranches⟩ := rfl
  obtain ⟨doc, hdoc, hinbounds⟩ := exists_ok_of_toOption_map hok
  obtain ⟨g, hg, hall⟩ := convert_globalPool hdoc
  obtain rfl := Except.ok.inj (hnorm.symm.trans hg)
  refine ⟨doc, hdoc, hinbounds, ?_, ?_⟩
  · obtain ⟨-, r, -, hr, -, hspans⟩ := hall 3 _ ⟨rfl, rfl⟩ rfl
    exact ⟨r, hr, hspans "sum" 7 rfl ⟨_, rfl, by decide, rfl, by decide⟩ (by decide)⟩
  · obtain ⟨-, r, -, hr, -, hspans⟩ := hall 4 _ ⟨rfl, rfl⟩ rfl
    exact ⟨r, hr, hspans "drop" 5 rfl ⟨_, rfl, by decide, rfl, by decide⟩ (by decide)⟩

/-- A rectifier between a sum and a global pooling. -/
def pooledRectifier : List Node := [
  { name := "in", opType := "InputLayer", inbound := some [] },
  { name := "sum", opType := "Add", inbound := some ["in", "in"] },
  { name := "relu", opType := "ReLU", inbound := some ["sum"] },
  { name := "pool", opType := "GlobalAveragePooling2D", inbound := some ["relu"] }]

/-- **The window is lost** if the shape is known of an operand that was merged before: the pooling
looks for the shape of the sum, which took the rectifier in. -/
theorem convert_globalPool_mergedOperand :
    ∃ g i n doc r, normalize .keras pooledRectifier = .ok g ∧ g.LiveAt i n ∧
      n.opType = ModelFormat.globalPoolOp .keras ∧ n.inputs.head? = some "relu" ∧
      KnowsHeight .keras [("relu", [1, 7, 7, 3])] "relu" 7 ∧
      convert ⟨.keras, .standard, {}⟩ pooledRectifier [("relu", [1, 7, 7, 3])] = .ok doc ∧
      doc.record? n.name = some r ∧ r.inbounds = ["sum"] ∧ r.field? "pool_size" = none ∧
      ¬ r.SpansGrid 7 := by
  have hok : (convert ⟨.keras, .standard, {}⟩ pooledRectifier
      [("relu", [1, 7, 7, 3])]).toOption.map (fun doc =>
        (doc.record? "pool").map fun r => (r.inbounds, r.field? "pool_size")) =
          some (some (["sum"], none)) := by rfl
  obtain ⟨doc, hdoc, hrecord⟩ := exists_ok_of_toOption_map hok
  obtain ⟨r, hr, hfields⟩ := Option.map_eq_some_iff.mp hrecord
  obtain ⟨hin, hsize⟩ := Prod.mk.inj hfields
  refine ⟨⟨pooledRectifier⟩, 3, _, doc, r, rfl, ⟨rfl, rfl⟩, rfl, rfl,
    ⟨_, rfl, by decide, rfl, by decide⟩, hdoc, hr, hin, hsize, fun hspans => ?_⟩
  rw [hspans.1] at hsize
  cases hsize

end LayerGraph
