import LayerGraph.Proofs.Linking
import LayerGraph.Proofs.Normalize
import LayerGraph.Proofs.Reclassify
import LayerGraph.Proofs.Walk

/-!
# Conversions as a whole

A conversion that succeeds is a walk over the reclassified normal form whose records could be
linked (`LayerGraph.exists_of_convert`). There is one record for each live node of the graph
that the walk leaves, with its name and its operands (`LayerGraph.Graph.map_records`), and that
graph is the one that fusion alone makes (`LayerGraph.convert_lists_fused`).

For a well-referenced list nothing can be wrong with the graph
(`LayerGraph.WellReferenced.convert_valid`): every stage leaves it ordered, and the operands of
an ordered graph are just what linking asks for (`LayerGraph.Graph.Ordered.linkAll_records`).
What a conversion can fail for is an operator without a family, or a single layer.
-/

namespace LayerGraph

/-! ### The records of a graph -/

namespace Graph

variable {g : Graph} {layers : List (Nat × Layer)}

/-- **There is one record for each live node**, in order, if the layers are those of the live
nodes. -/
theorem forall₂_records {R : Node → Record → Prop}
    (h : ∀ i layer n, (i, layer) ∈ layers → g.LiveAt i n → R n (layer.record n))
    (hids : layers.map Prod.fst = g.liveIds) : List.Forall₂ R g.live (g.records layers) := by
  -- each layer finds its node by itself, so this holds of any part of the layers
  have key : ∀ ls : List (Nat × Layer), ls ⊆ layers → (∀ l ∈ ls, l.1 ∈ g.liveIds) →
      List.Forall₂ R ((ls.map Prod.fst).filterMap g.node?) (g.records ls) := by
    intro ls hsub hlive
    induction ls with
    | nil => exact .nil
    | cons l ls ih =>
      obtain ⟨i, layer⟩ := l
      obtain ⟨hl, hls⟩ := List.cons_subset.mp hsub
      obtain ⟨hi, hlive⟩ := List.forall_mem_cons.mp hlive
      obtain ⟨n, hn⟩ := mem_liveIds.mp hi
      have hrec : g.records ((i, layer) :: ls) = layer.record n :: g.records ls :=
        List.filterMap_cons_some (by simp [hn.1, hn.2])
      rw [hrec, List.map_cons, List.filterMap_cons_some hn.1]
      exact .cons (h i layer n hl hn) (ih hls hlive)
  rw [live_eq_filterMap, ← hids]
  exact key layers (List.Subset.refl _) fun l hl => hids ▸ List.mem_map_of_mem hl

/-- **The records say of the live nodes what every layer takes over.** -/
theorem map_records {β : Type} {p : Record → β} {q : Node → β}
    (hpq : ∀ (l : Layer) n, p (l.record n) = q n) (h : layers.map Prod.fst = g.liveIds) :
    (g.records layers).map p = g.live.map q := by
  have hall : List.Forall₂ (fun n r => q n = p r) g.live (g.records layers) :=
    forall₂_records (fun _ layer n _ _ => (hpq layer n).symm) h
  rw [eq_comm, ← List.forall₂_eq_eq_eq, List.forall₂_map_left_iff, List.forall₂_map_right_iff]
  exact hall

theorem record_mem_records {i : Nat} {layer : Layer} {n : Node} (hl : (i, layer) ∈ layers)
    (hn : g.LiveAt i n) : layer.record n ∈ g.records layers :=
  List.mem_filterMap.mpr ⟨(i, layer), hl, by simp [hn.1, hn.2]⟩

theorem Distinct.names_live (h : g.Distinct) : (g.live.map Node.name).Nodup :=
  h.sublist (List.filter_sublist.map _)

/-- **The records of an ordered graph can be linked.** -/
theorem Ordered.linkAll_records (hg : g.Ordered) (h : layers.map Prod.fst = g.liveIds) :
    (Record.linkAll (g.records layers)).2 = none := by
  have hnames : (g.records layers).map Record.name = g.live.map Node.name :=
    map_records (fun l n => l.record_name n) h
  have hinbounds : (g.records layers).map Record.inbounds = g.live.map Node.inputs :=
    map_records (fun l n => l.record_inbounds n) h
  rw [Record.linkAll, Record.linkFrom_eq_none_iff]
  intro k r hr x hx
  -- the record at position `k` lists the operands of the live node there
  obtain ⟨n, hn, hin⟩ : ∃ n, g.live[k]? = some n ∧ n.inputs = r.inbounds := by
    have hk := congrArg (·[k]?) hinbounds
    simp only [List.getElem?_map, hr, Option.map_some] at hk
    exact Option.map_eq_some_iff.mp hk.symm
  obtain ⟨j, m, hj, hm, rfl⟩ := hg.exists_live_before hn (hin ▸ hx)
  refine ⟨j, ?_, by simpa using hj⟩
  rw [hnames, lastPosition?_eq_some_iff hg.distinct.names_live, List.getElem?_map, hm]
  rfl

end Graph

/-! ### The stages of a conversion -/

section Stages

variable {cx : ConvertContext} {shapes : Entries (List Int)} {nodes : List Node} {doc : Document}
  {e : ConvertError}

/-- **A conversion that succeeds** is a walk whose records could be linked. -/
theorem exists_of_convert (h : convert cx nodes shapes = .ok doc) :
    ∃ g g' layers, normalize cx.format nodes = .ok g ∧
      Graph.Walked cx shapes (g.reclassify cx.format) (g.reclassify cx.format).liveIds g' layers ∧
      Record.linkAll (g'.records layers) = (doc.records, none) := by
  rw [convert, unlinkedRecords] at h
  cases hg : normalize cx.format nodes with
  | error e => simp [hg, bind, Except.bind] at h
  | ok g =>
    cases hw : (g.reclassify cx.format).readLayers cx shapes (g.reclassify cx.format).liveIds with
    | error e => simp [hg, hw, bind, Except.bind] at h
    | ok r =>
      simp only [hg, hw, bind, Except.bind, pure, Except.pure] at h
      split at h
      · next records hl =>
        obtain rfl := Except.ok.inj h
        exact ⟨g, r.1, r.2, rfl, Graph.walked_of_readLayers hw, hl⟩
      · cases h

/-- **What is written for a node**, as far as it does not depend on other records: the record of
the layer that was read from it, possibly before its neighbours were fused. -/
def Written (cx : ConvertContext) (shapes : Entries (List Int)) (n : Node) (r : Record) : Prop :=
  ∃ family m layer, m.bare = n.bare ∧
    Family.resolve cx.format cx.custom n.opType = .ok family ∧
    Layer.read (cx.layer shapes) family m = .ok layer ∧ r = (layer.record n).unlinked

/-- **The records of a document are those of the nodes that fusion leaves**, in order. -/
theorem forall₂_written_of_convert (h : convert cx nodes shapes = .ok doc) :
    ∃ g g' k, normalize cx.format nodes = .ok g ∧
      (g.reclassify cx.format).fuse cx.fusion = (g', .ok k) ∧
      List.Forall₂ (fun n r => Written cx shapes n r.unlinked) g'.live doc.records := by
  obtain ⟨g, g', layers, hg, hw, hl⟩ := exists_of_convert h
  obtain ⟨k, hk⟩ := hw.fuseFrom_eq
  refine ⟨g, g', k, hg, hk, ?_⟩
  have hbare : g'.nodes.map Node.bare = (g.reclassify cx.format).nodes.map Node.bare := by
    rw [← hw.fuseFrom_fst]
    exact Graph.map_bare_fuseFrom _
  have hrecs : List.Forall₂ (fun n r => Written cx shapes n r.unlinked) g'.live
      (g'.records layers) := by
    refine Graph.forall₂_records (fun i layer n hmem hn => ?_) hw.map_fst_liveIds
    obtain ⟨m, m₀, family, hm₀, hb, hf, hr⟩ := hw.exists_read hmem
    obtain ⟨n₀, hn₀, hb'⟩ := Graph.exists_node?_of_bare hbare hn.1
    obtain rfl : n₀ = m₀ := Option.some.inj (hn₀.symm.trans hm₀.1)
    have hmn : m.bare = n.bare := hb.trans hb'.symm
    exact ⟨family, m, layer, hmn, Node.opType_of_bare hmn ▸ hf, hr, rfl⟩
  -- linking changes nothing that a record has without it
  have hlink : doc.records.map Record.unlinked = (g'.records layers).map Record.unlinked := by
    rw [← Record.map_linkAll (fun _ _ _ _ _ => rfl) (g'.records layers), hl]
  rw [← List.forall₂_map_right_iff, ← hlink, List.forall₂_map_right_iff] at hrecs
  exact hrecs

/-- **A conversion that fails** fails to normalize the list, to walk over the graph or to link
the records of a walk. -/
theorem cases_of_convert_error (h : convert cx nodes shapes = .error e) :
    normalize cx.format nodes = .error e ∨
      ∃ g, normalize cx.format nodes = .ok g ∧
        ((g.reclassify cx.format).readLayers cx shapes (g.reclassify cx.format).liveIds = .error e ∨
          ∃ g' layers fault, Graph.Walked cx shapes (g.reclassify cx.format)
            (g.reclassify cx.format).liveIds g' layers ∧
            (Record.linkAll (g'.records layers)).2 = some fault ∧ e = .invalidGraph fault) := by
  rw [convert, unlinkedRecords] at h
  cases hg : normalize cx.format nodes with
  | error e' =>
    simp only [hg, bind, Except.bind, Except.error.injEq] at h
    exact Or.inl (h ▸ rfl)
  | ok g =>
    refine Or.inr ⟨g, rfl, ?_⟩
    cases hw : (g.reclassify cx.format).readLayers cx shapes (g.reclassify cx.format).liveIds with
    | error e' =>
      simp only [hg, hw, bind, Except.bind, Except.error.injEq] at h
      exact Or.inl (h ▸ rfl)
    | ok r =>
      simp only [hg, hw, bind, Except.bind, pure, Except.pure] at h
      split at h
      · cases h
      · next fault hl =>
        obtain rfl := Except.error.inj h
        exact Or.inr ⟨r.1, r.2, fault, Graph.walked_of_readLayers hw, by rw [hl], rfl⟩

end Stages

/-! ### The graph that a document lists -/

namespace Document

variable {doc : Document} {g : Graph} {layers : List (Nat × Layer)}

/-- The only record of a name stands at a position. -/
def Places (doc : Document) (x : String) (j : Nat) : Prop :=
  ∀ l, (doc.records.map Record.name)[l]? = some x ↔ l = j

/-- **A document lists a graph**: its records are those of the live nodes in order, with their
names and their operands, and carry the places of the operands, slot by slot. -/
structure Lists (doc : Document) (g : Graph) : Prop where
  names : doc.records.map Record.name = g.live.map Node.name
  inbounds : doc.records.map Record.inbounds = g.live.map Node.inputs
  places : ∀ r ∈ doc.records, List.Forall₂ doc.Places r.inbounds r.inputIds

/-- Where the names of the records are distinct, an operand is settled by the only record of its
name. -/
theorem places_of_locates {i j : Nat} {x : String} (h : (doc.records.map Record.name).Nodup)
    (hx : Record.Locates (doc.records.map Record.name) i x j) : doc.Places x j := by
  intro l
  rw [← lastPosition?_eq_some_iff h, hx.1, Option.some.injEq, eq_comm]

/-- **Linked records list their graph** if no name is borne twice in it. The order of the graph
does not matter: a reference that could not be settled would have ended the linking. -/
theorem lists_of_linkAll (hg : g.Distinct) (hids : layers.map Prod.fst = g.liveIds)
    (hl : Record.linkAll (g.records layers) = (doc.records, none)) : doc.Lists g := by
  have hnames : doc.records.map Record.name = g.live.map Node.name := by
    rw [← Graph.map_records (fun l n => l.record_name n) hids,
      ← Record.map_linkAll (fun _ _ _ _ _ => rfl) (g.records layers), hl]
  have hnodup : (doc.records.map Record.name).Nodup := hnames ▸ hg.names_live
  refine ⟨hnames, ?_, fun r hr => ?_⟩
  · rw [← Graph.map_records (fun l n => l.record_inbounds n) hids,
      ← Record.map_linkAll (fun _ _ _ _ _ => rfl) (g.records layers), hl]
  · obtain ⟨i, hi⟩ := List.mem_iff_getElem?.mp hr
    exact (Record.settledAt_of_linkAll hl hi).imp fun x j hx => places_of_locates hnodup hx

/-- A record is the one that its name finds. -/
theorem record?_eq_some {r : Record} (h : (doc.records.map Record.name).Nodup)
    (hr : r ∈ doc.records) : doc.record? r.name = some r := by
  cases hfind : doc.record? r.name with
  | none => exact absurd (List.find?_eq_none.mp hfind r hr) (by simp)
  | some s =>
    have hname : s.name = r.name := by simpa using List.find?_some hfind
    rw [List.inj_on_of_nodup_map h (List.mem_of_find?_eq_some hfind) hr hname]

end Document

/-- **A document lists what fusion alone makes of the graph.** The walk reads layers on the way
and stops at what has no family, where a run of fusion goes on; if it comes to its end, both
have made the same visits. Nothing is asked of the order of the nodes. -/
theorem convert_lists_fused {cx : ConvertContext} {shapes : Entries (List Int)} {nodes : List Node}
    {doc : Document} (h : convert cx nodes shapes = .ok doc) :
    ∃ g g' k, normalize cx.format nodes = .ok g ∧
      (g.reclassify cx.format).fuse cx.fusion = (g', .ok k) ∧ doc.Lists g' := by
  obtain ⟨g, g', layers, hg, hw, hl⟩ := exists_of_convert h
  obtain ⟨k, hk⟩ := hw.fuseFrom_eq
  have hd : g'.Distinct := hw.fuseFrom_fst ▸ (distinct_of_normalize hg).reclassify.fuseFrom _
  exact ⟨g, g', k, hg, hk, Document.lists_of_linkAll hd hw.map_fst_liveIds hl⟩

/-- A sum that is listed before the dropout that feeds it, and a rectifier that follows the sum
by the order of the nodes alone. -/
def scatteredBranches : List Node := [
  { name := "in", opType := "InputLayer", inbound := some [] },
  { name := "flat", opType := "Flatten", inbound := some ["drop"] },
  { name := "sum", opType := "Add", inbound := some ["flat", "drop"] },
  { name := "relu", opType := "ReLU" },
  { name := "drop", opType := "Dropout", inbound := some ["in"] },
  { name := "out", opType := "Add", inbound := some ["relu", "drop"] }]

/-- The dropout gives way to the input in the nodes that stand before it, too. -/
theorem convert_scatteredBranches_lists :
    ∃ doc, convert ⟨.keras, .standard, {}⟩ scatteredBranches [] = .ok doc ∧
      doc.records.map Record.inbounds = [[], ["in"], ["flat", "in"], ["sum", "in"]] ∧
      ∃ g g' k, normalize .keras scatteredBranches = .ok g ∧
        (g.reclassify .keras).fuse ⟨.keras, .standard, {}⟩ = (g', .ok k) ∧ doc.Lists g' := by
  have hok : (convert ⟨.keras, .standard, {}⟩ scatteredBranches []).toOption.map
      (fun doc => doc.records.map Record.inbounds) =
        some [[], ["in"], ["flat", "in"], ["sum", "in"]] := by decide
  obtain ⟨doc, hdoc, hinbounds⟩ := exists_ok_of_toOption_map hok
  exact ⟨doc, hdoc, hinbounds, convert_lists_fused hdoc⟩

/-! ### What a conversion fails for -/

/-- No node of a reclassified normal form is a container. -/
theorem isContainerOp_of_mem_reclassify {format : ModelFormat} {nodes : List Node} {g : Graph}
    (hg : normalize format nodes = .ok g) :
    ∀ n ∈ (g.reclassify format).nodes, isContainerOp n.opType = false := by
  refine Graph.forall_mem_reclassify (fun n hn => ?_)
    (forall_mem_normalize (fun n _ => rfl) (fun n xs d hn => hn) ?_ hg)
  · rcases n.reclassify_opType format with h | h
    · rwa [h]
    · have hops : ∀ op ∈ Node.reclassifiedOps, isContainerOp op = false := by decide
      exact hops _ h
  · intro n _ hleaf
    rw [Node.isLeaf, Bool.and_eq_true, Bool.not_eq_true'] at hleaf
    exact hleaf.2

/-- Neither normalization nor reclassification makes a node absorb anything. -/
theorem absorbed_of_mem_reclassify {format : ModelFormat} {nodes : List Node} {g : Graph}
    (hfresh : ∀ n ∈ postorder nodes, n.absorbed = {}) (hg : normalize format nodes = .ok g) :
    ∀ n ∈ (g.reclassify format).nodes, n.absorbed = {} := by
  refine Graph.forall_mem_reclassify (fun n hn => (n.reclassify_absorbed format).trans hn) ?_
  exact forall_mem_normalize (fun _ hn => hn) (fun _ _ _ hn => hn) (fun n hn _ => hfresh n hn) hg

/-- **A conversion of a normal form fails** at a node, or in linking after a walk to the end. -/
theorem stops_or_linkAll_of_convert {cx : ConvertContext} {nodes : List Node}
    {shapes : Entries (List Int)} {g : Graph} {e : ConvertError}
    (hg : normalize cx.format nodes = .ok g) (h : convert cx nodes shapes = .error e) :
    (g.reclassify cx.format).Stops cx shapes (g.reclassify cx.format).liveIds e ∨
      ∃ g' layers fault,
        Graph.Walked cx shapes (g.reclassify cx.format) (g.reclassify cx.format).liveIds g' layers ∧
        (Record.linkAll (g'.records layers)).2 = some fault ∧ e = .invalidGraph fault := by
  rcases cases_of_convert_error h with hnorm | ⟨g₁, hg₁, hwalk | hlink⟩
  · rw [hg] at hnorm
    cases hnorm
  · obtain rfl := Except.ok.inj (hg.symm.trans hg₁)
    exact Or.inl (Graph.stops_of_readLayers (isContainerOp_of_mem_reclassify hg) hwalk)
  · obtain rfl := Except.ok.inj (hg.symm.trans hg₁)
    exact Or.inr hlink

/-! ### Well-referenced lists -/

/-- **What the conversion of a well-referenced list fails for** is an operator without a family or
a single layer: the graph that the walk leaves is ordered, so its records can be linked. -/
theorem WellReferenced.error_of_convert {nodes : List Node} {cx : ConvertContext}
    {shapes : Entries (List Int)} {e : ConvertError} (h : WellReferenced nodes)
    (he : convert cx nodes shapes = .error e) :
    (∃ op, e = .unsupportedLayer op) ∨ ∃ layer fault, e = .invalidLayer layer fault := by
  obtain ⟨g, hg, hord⟩ := h.exists_normalize cx.format
  rcases stops_or_linkAll_of_convert hg he with hstop | ⟨g', layers, fault, hw, hl, -⟩
  · exact hstop.cases
  · have hord' : g'.Ordered := hw.fuseFrom_fst ▸ hord.reclassify.fuseFrom _
    rw [hord'.linkAll_records hw.map_fst_liveIds] at hl
    cases hl

/-- **A well-referenced list never becomes an invalid graph.** Its flat form is ordered, so is
its normal form, with or without reclassification, and so is whatever any visits of fusion make
of that. A conversion that fails does so for an operator without a family or for a single
layer, and in a document every operand is settled by a record before. -/
theorem WellReferenced.convert_valid {nodes : List Node} (h : WellReferenced nodes)
    (cx : ConvertContext) (shapes : Entries (List Int)) :
    (Graph.mk (feedInOrder none (flatten nodes))).Ordered ∧
      (∃ g, normalize cx.format nodes = .ok g ∧ g.Ordered ∧ (g.reclassify cx.format).Ordered ∧
        ∀ ids, ((g.reclassify cx.format).fuseFrom cx.fusion ids).1.Ordered) ∧
      (∀ e, convert cx nodes shapes = .error e →
        (∃ op, e = .unsupportedLayer op) ∨ ∃ layer fault, e = .invalidLayer layer fault) ∧
      ∀ doc, convert cx nodes shapes = .ok doc →
        ∀ k (r : Record), doc.records[k]? = some r →
          r.SettledAt (doc.records.map Record.name) k := by
  obtain ⟨g, hg, hord⟩ := h.exists_normalize cx.format
  have hrec : (g.reclassify cx.format).Ordered := hord.reclassify
  refine ⟨h.ordered, ⟨g, hg, hord, hrec, fun ids => hrec.fuseFrom ids⟩,
    fun e he => h.error_of_convert he, fun doc hdoc k r hr => ?_⟩
  obtain ⟨g₁, g', layers, -, -, hl⟩ := exists_of_convert hdoc
  exact Record.settledAt_of_linkAll hl hr

/-- Nested containers, the last of them empty. References to them are settled by the leaves that
they stand for. -/
def nestedForest : List Node := [
  { name := "in", opType := "InputLayer", inbound := some [] },
  { name := "body", opType := "Functional", children := [
    { name := "sum", opType := "Add", inbound := some ["in", "in"] },
    { name := "head", opType := "Sequential", children := [
      { name := "relu", opType := "ReLU" },
      { name := "drop", opType := "Dropout" }] },
    { name := "tail", opType := "Sequential" }] },
  { name := "flat", opType := "Flatten", inbound := some ["tail", "head", "body"] }]

/-- The nested containers become a document whose operands are settled. -/
theorem convert_nestedForest_valid :
    WellReferenced nestedForest ∧ ∃ doc, convert ⟨.keras, .standard, {}⟩ nestedForest [] = .ok doc ∧
      ∀ k (r : Record), doc.records[k]? = some r → r.SettledAt (doc.records.map Record.name) k := by
  have hforest : WellReferenced nestedForest := by decide
  have hok : (convert ⟨.keras, .standard, {}⟩ nestedForest []).toOption.isSome = true := by decide
  obtain ⟨doc, hdoc⟩ := exists_ok_of_isSome hok
  exact ⟨hforest, doc, hdoc, (hforest.convert_valid _ _).2.2.2 doc hdoc⟩

end LayerGraph
