import LayerGraph.Proofs.Conversion

/-!
# Where a conversion fails

A conversion looks at the live nodes one after the other, and what it reports is the first thing
that is wrong. No node is skipped, although nodes leave the graph on the way: a visit removes at
most the node that it is made to, so whoever is still to be visited is still there. A document
therefore means that every operator had a family, and of several operators without a family the
first is reported, unless a layer before it was invalid (`LayerGraph.convert_firstFailure`).

Two failures take more than a node. Two nodes of one name are found before the first visit, and
operands that cannot be settled are found after the last one. That a family has no layers is never
a failure: containers are gone before the first visit, and a dropout never survives its own.
-/

namespace LayerGraph

/-! ### The failures of the single stages -/

/-- A list cannot be normalized only for a name that is borne twice. -/
theorem exists_duplicateName_of_normalize {format : ModelFormat} {nodes : List Node}
    {e : ConvertError} (h : normalize format nodes = .error e) :
    ∃ name, e = .invalidGraph (.duplicateName name) := by
  obtain ⟨-, name, -, -, -, -, he⟩ := normalize_eq_error_iff.mp h
  exact ⟨name, he⟩

theorem Record.ne_untranslatable_of_linkAll {records : List Record} {fault : GraphFault}
    (h : (linkAll records).2 = some fault) (family : String) : fault ≠ .untranslatable family := by
  obtain ⟨k, r, x, -, -, hfail⟩ := exists_operand_of_linkFrom h
  rcases cases_of_operandId_error hfail with rfl | ⟨j, rfl⟩ <;> exact nofun

namespace Graph

variable {cx : ConvertContext} {shapes : Entries (List Int)} {g g' : Graph} {id : Nat}
  {before after : List Nat} {layers : List (Nat × Layer)} {n : Node} {e : ConvertError}

/-- The live nodes, cut at one of them. -/
theorem live_eq_append (h : g.liveIds = before ++ id :: after) (hn : g.LiveAt id n) :
    g.live = before.filterMap g.node? ++ n :: after.filterMap g.node? := by
  rw [live_eq_filterMap, h, List.filterMap_append, List.filterMap_cons_some hn.1]

/-- **No node is skipped**: the next one is there when its turn comes. -/
theorem Walked.exists_next (h : Walked cx shapes g before g' layers)
    (hids : g.liveIds = before ++ id :: after) : ∃ n, g'.LiveAt id n := by
  have hnd : (before ++ id :: after).Nodup := hids ▸ nodup_liveIds
  have hmem : id ∈ g.liveIds := hids ▸ List.mem_append_right _ List.mem_cons_self
  exact h.exists_liveAt hmem fun hin => List.disjoint_of_nodup_append hnd hin List.mem_cons_self

/-- **A walk to the end** has found a family for every operator. -/
theorem Walked.supported_of_mem_live (h : Walked cx shapes g g.liveIds g' layers) :
    ∀ n ∈ g.live, n.Supported cx := by
  intro n hn
  obtain ⟨i, hi⟩ := mem_live.mp hn
  exact h.supported (mem_liveIds.mpr ⟨n, hi⟩) hi

/-- **A walk over all live nodes stops at one of them**, and the operators before have a family. If
that of the node has none, the error says so; otherwise it names the node. -/
theorem Stops.exists_node (h : g.Stops cx shapes g.liveIds e) :
    ∃ before n after, g.live = before ++ n :: after ∧ (∀ m ∈ before, m.Supported cx) ∧
      (¬ n.Supported cx ∧ e = .unsupportedLayer n.opType ∨
        n.Supported cx ∧ ∃ fault, e = .invalidLayer n.name fault) := by
  obtain ⟨before, id, after, g', layers, n', hids, hw, hn', hfail⟩ := h
  -- the node, as it was before the walk
  obtain ⟨n, hn, hb⟩ := exists_liveAt_of_fuseFrom (hw.fuseFrom_fst ▸ hn')
  have hname : n'.name = n.name := Node.name_of_bare hb
  have hop : n'.opType = n.opType := Node.opType_of_bare hb
  have hsupp : n'.Supported cx ↔ n.Supported cx := by rw [Node.Supported, Node.Supported, hop]
  refine ⟨_, n, _, live_eq_append hids hn, fun m hm => ?_, ?_⟩
  · obtain ⟨i, hi, hm⟩ := List.mem_filterMap.mp hm
    have hlive : i ∈ g.liveIds := hids ▸ List.mem_append_left _ hi
    obtain ⟨k, hk⟩ := mem_liveIds.mp hlive
    exact hw.supported hi (Option.some.inj (hk.1.symm.trans hm) ▸ hk)
  · cases hfail with
    | unsupported unresolved => exact Or.inl ⟨hsupp.not.mp unresolved, by rw [hop]⟩
    | unvisited supported _ => exact Or.inr ⟨hsupp.mp supported, _, by rw [hname]⟩
    | unread resolved _ _ => exact Or.inr ⟨hsupp.mp ⟨_, resolved⟩, _, by rw [hname]⟩

/-- **Of several operators without a family the first is reported**, unless a layer before it is
invalid. -/
theorem Stops.exists_first_unsupported (h : g.Stops cx shapes g.liveIds e)
    (hex : ∃ n ∈ g.live, ¬ n.Supported cx) :
    ∃ before n after, g.live = before ++ n :: after ∧ (∀ m ∈ before, m.Supported cx) ∧
      ¬ n.Supported cx ∧
      (e = .unsupportedLayer n.opType ∨ ∃ m ∈ before, ∃ fault, e = .invalidLayer m.name fault) := by
  obtain ⟨before, n, after, hlive, hbefore, ⟨hn, he⟩ | ⟨hn, he⟩⟩ := h.exists_node
  · exact ⟨before, n, after, hlive, hbefore, hn, Or.inl he⟩
  · -- the first operator without a family comes after the layer that is invalid
    have hafter : ∃ m ∈ after, ¬ m.Supported cx := by
      obtain ⟨m, hm, hun⟩ := hex
      rw [hlive, List.mem_append, List.mem_cons] at hm
      rcases hm with hm | rfl | hm
      · exact absurd (hbefore m hm) hun
      · exact absurd hn hun
      · exact ⟨m, hm, hun⟩
    obtain ⟨m, hfind⟩ : ∃ m, after.find? (fun m => ¬ m.Supported cx) = some m :=
      Option.isSome_iff_exists.mp (by simpa using hafter)
    obtain ⟨hm, between, rest, rfl, hbetween⟩ := List.find?_eq_some_iff_append.mp hfind
    refine ⟨before ++ n :: between, m, rest, by rw [hlive, List.append_assoc, List.cons_append],
      fun k hk => ?_, by simpa using hm, Or.inr ⟨n, by simp, he⟩⟩
    rcases List.mem_append.mp hk with hk | hk
    · exact hbefore k hk
    · rcases List.mem_cons.mp hk with rfl | hk
      · exact hn
      · simpa using hbetween k hk

end Graph

/-! ### Conversions -/

section Conversions

variable {cx : ConvertContext} {nodes : List Node} {shapes : Entries (List Int)} {g : Graph}
  {doc : Document}

/-- **A document means that every operator had a family.** -/
theorem supported_of_convert (hg : normalize cx.format nodes = .ok g)
    (h : convert cx nodes shapes = .ok doc) :
    ∀ n ∈ (g.reclassify cx.format).live, n.Supported cx := by
  obtain ⟨g₁, g', layers, hg₁, hw, -⟩ := exists_of_convert h
  obtain rfl := Except.ok.inj (hg.symm.trans hg₁)
  exact hw.supported_of_mem_live

/-- **That a family has no layers is never reported**: neither by the stages that know names only,
nor by a walk, for containers do not come to it and dropouts leave the graph. -/
theorem convert_ne_untranslatable (cx : ConvertContext) (nodes : List Node)
    (shapes : Entries (List Int)) (family : String) :
    convert cx nodes shapes ≠ .error (.invalidGraph (.untranslatable family)) := by
  intro h
  cases hg : normalize cx.format nodes with
  | error e =>
    obtain ⟨name, rfl⟩ := exists_duplicateName_of_normalize hg
    rw [convert, unlinkedRecords, hg] at h
    cases h
  | ok g =>
    rcases stops_or_linkAll_of_convert hg h with hstop | ⟨g', layers, fault, -, hl, he⟩
    · rcases hstop.cases with ⟨op, he⟩ | ⟨layer, fault, he⟩ <;> cases he
    · cases he
      exact Record.ne_untranslatable_of_linkAll hl family rfl

/-- **Without a family for all operators a conversion fails**: for the first operator that has none,
or for a layer before it. -/
theorem exists_first_unsupported_of_convert (hg : normalize cx.format nodes = .ok g)
    (hex : ∃ n ∈ (g.reclassify cx.format).live, ¬ n.Supported cx) :
    ∃ before n after, (g.reclassify cx.format).live = before ++ n :: after ∧
      (∀ m ∈ before, m.Supported cx) ∧ ¬ n.Supported cx ∧
      (convert cx nodes shapes = .error (.unsupportedLayer n.opType) ∨
        ∃ m ∈ before, ∃ fault, convert cx nodes shapes = .error (.invalidLayer m.name fault)) := by
  have hnot : ¬ ∀ n ∈ (g.reclassify cx.format).live, n.Supported cx := by simpa using hex
  cases hconv : convert cx nodes shapes with
  | ok doc => exact absurd (supported_of_convert hg hconv) hnot
  | error e =>
    rcases stops_or_linkAll_of_convert hg hconv with hstop | ⟨g', layers, fault, hw, -, -⟩
    · simpa using hstop.exists_first_unsupported hex
    · exact absurd hw.supported_of_mem_live hnot

/-- What is not the fault of the graph is that of a node. -/
theorem stops_of_convert {e : ConvertError} (hg : normalize cx.format nodes = .ok g)
    (h : convert cx nodes shapes = .error e) (he : ∀ fault, e ≠ .invalidGraph fault) :
    (g.reclassify cx.format).Stops cx shapes (g.reclassify cx.format).liveIds e := by
  rcases stops_or_linkAll_of_convert hg h with hstop | ⟨g', layers, fault, -, -, heq⟩
  · exact hstop
  · exact absurd heq (he fault)

/-- **A normal form is at fault as a whole only in linking**, when all nodes have been visited. -/
theorem exists_readLayers_of_convert {fault : GraphFault} (hg : normalize cx.format nodes = .ok g)
    (h : convert cx nodes shapes = .error (.invalidGraph fault)) :
    ∃ g' layers,
      (g.reclassify cx.format).readLayers cx shapes (g.reclassify cx.format).liveIds =
        .ok (g', layers) ∧
      (Record.linkAll (g'.records layers)).2 = some fault := by
  rcases stops_or_linkAll_of_convert hg h with hstop | ⟨g', layers, fault', hw, hl, heq⟩
  · rcases hstop.cases with ⟨op, heq⟩ | ⟨layer, fault, heq⟩ <;> cases heq
  · cases heq
    exact ⟨g', layers, Graph.readLayers_of_walked hw, hl⟩

/-- **The first failure is reported, and no node is skipped.** Whoever has not been visited is there
when its turn comes. A document means that every operator of the graph had a family; if one has
none, that of the first such node is reported, unless a layer before it is invalid. In any case a
walk that fails stops at the node that the error is about. The graph as a whole is at fault only
after all nodes have been visited without an error, and never for a family that has no layers. -/
theorem convert_firstFailure (cx : ConvertContext) (nodes : List Node)
    (shapes : Entries (List Int)) :
    (∀ family, convert cx nodes shapes ≠ .error (.invalidGraph (.untranslatable family))) ∧
      ∀ g₀ g, normalize cx.format nodes = .ok g₀ → g = g₀.reclassify cx.format →
        (∀ before id after g' layers, g.liveIds = before ++ id :: after →
          Graph.Walked cx shapes g before g' layers → ∃ n, g'.LiveAt id n) ∧
        (∀ doc, convert cx nodes shapes = .ok doc → ∀ n ∈ g.live, n.Supported cx) ∧
        ((∃ n ∈ g.live, ¬ n.Supported cx) → ∃ before n after, g.live = before ++ n :: after ∧
          (∀ m ∈ before, m.Supported cx) ∧ ¬ n.Supported cx ∧
          (convert cx nodes shapes = .error (.unsupportedLayer n.opType) ∨
            ∃ m ∈ before, ∃ fault, convert cx nodes shapes = .error (.invalidLayer m.name fault))) ∧
        (∀ e, convert cx nodes shapes = .error e → (∀ fault, e ≠ .invalidGraph fault) →
          g.Stops cx shapes g.liveIds e) ∧
        ∀ fault, convert cx nodes shapes = .error (.invalidGraph fault) →
          ∃ g' layers, g.readLayers cx shapes g.liveIds = .ok (g', layers) ∧
            (Record.linkAll (g'.records layers)).2 = some fault := by
  refine ⟨convert_ne_untranslatable cx nodes shapes, ?_⟩
  rintro g₀ g hg rfl
  exact ⟨fun _ _ _ _ _ hids hw => hw.exists_next hids, fun _ hdoc => supported_of_convert hg hdoc,
    exists_first_unsupported_of_convert hg, fun _ he hne => stops_of_convert hg he hne,
    fun _ he => exists_readLayers_of_convert hg he⟩

end Conversions

/-- A chain with a layer of some operator in it, and a sum that refers past that layer. -/
def patchedChain (op x : String) : List Node := [
  { name := "in", opType := "InputLayer", inbound := some [] },
  { name := "drop", opType := "Dropout" },
  { name := "patch", opType := op },
  { name := "sum", opType := "Add", inbound := some ["patch", x] }]

/-- The chain becomes a document, or fails for an operator that nobody knows, for a layer without a
kernel or for an operand that nobody bears the name of. -/
theorem convert_patchedChain :
    (∃ g doc, normalize .keras (patchedChain "Flatten" "in") = .ok g ∧
      convert ⟨.keras, .standard, {}⟩ (patchedChain "Flatten" "in") [] = .ok doc ∧
      ∀ n ∈ (g.reclassify .keras).live, n.Supported ⟨.keras, .standard, {}⟩) ∧
    (∃ g before n after, normalize .keras (patchedChain "Mystery" "ghost") = .ok g ∧
      (g.reclassify .keras).live = before ++ n :: after ∧ n.opType = "Mystery" ∧
      ¬ n.Supported ⟨.keras, .standard, {}⟩ ∧
      convert ⟨.keras, .standard, {}⟩ (patchedChain "Mystery" "ghost") [] =
        .error (.unsupportedLayer "Mystery")) ∧
    (∃ g, normalize .keras (patchedChain "Conv2D" "ghost") = .ok g ∧
      (g.reclassify .keras).Stops ⟨.keras, .standard, {}⟩ [] (g.reclassify .keras).liveIds
        (.invalidLayer "patch" .missingKernel)) ∧
    ∃ g g' layers, normalize .keras (patchedChain "Flatten" "ghost") = .ok g ∧
      (g.reclassify .keras).readLayers ⟨.keras, .standard, {}⟩ [] (g.reclassify .keras).liveIds =
        .ok (g', layers) ∧
      (Record.linkAll (g'.records layers)).2 = some (.unknownReference "sum" "ghost") := by
  have key := fun op x => (convert_firstFailure ⟨.keras, .standard, {}⟩ (patchedChain op x) []).2
  refine ⟨?_, ?_, ?_, ?_⟩
  · have hok : (convert ⟨.keras, .standard, {}⟩ (patchedChain "Flatten" "in") []).toOption.isSome :=
      by decide
    obtain ⟨doc, hdoc⟩ := exists_ok_of_isSome hok
    obtain ⟨-, hsupported, -⟩ := key "Flatten" "in" _ _ rfl rfl
    exact ⟨_, doc, rfl, hdoc, hsupported doc hdoc⟩
  · have herr : convert ⟨.keras, .standard, {}⟩ (patchedChain "Mystery" "ghost") [] =
        .error (.unsupportedLayer "Mystery") := rfl
    obtain ⟨-, -, hfirst, -⟩ := key "Mystery" "ghost" _ _ rfl rfl
    obtain ⟨before, n, after, hlive, -, hn, hconv⟩ := hfirst (by decide)
    rw [herr] at hconv
    rcases hconv with hop | ⟨m, -, fault, hfault⟩
    · have hn' : n.opType = "Mystery" :=
        (ConvertError.unsupportedLayer.inj (Except.error.inj hop)).symm
      exact ⟨_, before, n, after, rfl, hlive, hn', hn, herr⟩
    · cases hfault
  · obtain ⟨-, -, -, hstops, -⟩ := key "Conv2D" "ghost" _ _ rfl rfl
    exact ⟨_, rfl, hstops _ rfl nofun⟩
  · obtain ⟨-, -, -, -, hlinks⟩ := key "Flatten" "ghost" _ _ rfl rfl
    obtain ⟨g', layers, hread, hl⟩ := hlinks _ rfl
    exact ⟨_, g', layers, rfl, hread, hl⟩

end LayerGraph
