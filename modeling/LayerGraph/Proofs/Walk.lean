import LayerGraph.Convert
import LayerGraph.Proofs.Layer
import Mathlib.Data.List.Sort

/-!
# The walk that fuses and reads

A conversion visits the nodes once and reads the layers of those that are kept on the way.
`LayerGraph.Graph.Walked` has one constructor for each thing that can happen at a position, and
a walk that succeeds is such a derivation (`LayerGraph.Graph.walked_of_readLayers`). Two things
follow. The graph is what the run of fusion alone would make of it
(`LayerGraph.Graph.Walked.fuseFrom_eq`), and the layers are those of the nodes that are left
(`LayerGraph.Graph.Walked.map_fst`), although a layer was read before it was known whether its
node stays. It was read from the node as the visits before had left it
(`LayerGraph.Graph.Walked.readAt`): later visits may still change what feeds the node.

No node is skipped on the way (`LayerGraph.Graph.Walked.exists_liveAt`), and in a graph without
containers a walk that fails stops at a node that something is wrong with
(`LayerGraph.Graph.stops_of_readLayers`): its operator has no family, or its layer is invalid.
-/

namespace LayerGraph

/-- The operator of a node has a family, built in or described. -/
def Node.Supported (cx : ConvertContext) (n : Node) : Prop :=
  ∃ family, Family.resolve cx.format cx.custom n.opType = .ok family

instance (cx : ConvertContext) : DecidablePred (Node.Supported cx) := fun n =>
  decidable_of_iff ((Family.resolve cx.format cx.custom n.opType).toOption.isSome = true) <| by
    rw [Node.Supported]
    cases Family.resolve cx.format cx.custom n.opType <;> simp [Except.toOption]

namespace Graph

variable {cx : ConvertContext} {shapes : Entries (List Int)} {g g' : Graph} {i id : Nat}
  {ids : List Nat} {layers : List (Nat × Layer)} {n : Node} {e : ConvertError}

/-- **A walk** over the nodes at some positions, with the layers read on the way. -/
inductive Walked (cx : ConvertContext) (shapes : Entries (List Int)) :
    Graph → List Nat → Graph → List (Nat × Layer) → Prop
  | done {g : Graph} : Walked cx shapes g [] g []
  /-- There is no live node at the position. -/
  | absent {g g' : Graph} {id : Nat} {ids : List Nat} {layers : List (Nat × Layer)}
      (missing : ∀ n, ¬ g.LiveAt id n) (rest : Walked cx shapes g ids g' layers) :
      Walked cx shapes g (id :: ids) g' layers
  /-- The node is kept, and its layer is read. -/
  | kept {g g' : Graph} {id : Nat} {ids : List Nat} {layers : List (Nat × Layer)} {n : Node}
      {family : Family} {layer : Layer} (live : g.LiveAt id n)
      (resolved : Family.resolve cx.format cx.custom n.opType = .ok family)
      (visit : g.visit cx.fusion id = .ok (g, .kept))
      (read : Layer.read (cx.layer shapes) family n = .ok layer)
      (rest : Walked cx shapes g ids g' layers) :
      Walked cx shapes g (id :: ids) g' ((id, layer) :: layers)
  /-- The node leaves the graph. -/
  | removed {g g₁ g' : Graph} {id : Nat} {ids : List Nat} {layers : List (Nat × Layer)}
      {o : Outcome} (visit : g.visit cx.fusion id = .ok (g₁, o)) (leaves : o ≠ .kept)
      (rest : Walked cx shapes g₁ ids g' layers) :
      Walked cx shapes g (id :: ids) g' layers

/-- A visit to a node whose family is known. -/
theorem visit_of_resolve {cx : FusionContext} {family : Family} (hn : g.node? id = some n)
    (hf : Family.resolve cx.format cx.custom n.opType = .ok family) :
    g.visit cx id = g.fuseNode cx id family := by
  rw [visit, hn, Option.map_some, hf]

/-- A visit that keeps a node leaves the graph as it is. -/
theorem eq_of_visit_kept {cx : FusionContext} (h : g.visit cx id = .ok (g', .kept)) : g' = g := by
  cases visited_of_visit h
  rfl

/-- **A step of the walk**, as far as the node is there. -/
theorem readLayers_cons (hn : g.LiveAt id n) :
    g.readLayers cx shapes (id :: ids) =
      match Family.resolve cx.format cx.custom n.opType with
      | .error e => .error e
      | .ok family =>
        match g.visit cx.fusion id with
        | .error e => .error e
        | .ok (g₁, .kept) =>
          match Layer.read (cx.layer shapes) family n with
          | .error e => .error e
          | .ok layer => (g₁.readLayers cx shapes ids).map fun r => (r.1, (id, layer) :: r.2)
        | .ok (g₁, _) => g₁.readLayers cx shapes ids := by
  rw [readLayers, hn.1]
  simp only [hn.2, Bool.false_eq_true, if_false]
  cases hf : Family.resolve cx.format cx.custom n.opType with
  | error e => rfl
  | ok family =>
    have hvisit : g.visit cx.fusion id = g.fuseNode cx.fusion id family := visit_of_resolve hn.1 hf
    simp only [hvisit]
    cases hv : g.fuseNode cx.fusion id family with
    | error e => simp [bind, Except.bind, hv]
    | ok r =>
      obtain ⟨g₁, o⟩ := r
      cases o with
      | kept =>
        cases hr : Layer.read (cx.layer shapes) family n with
        | error e => simp [bind, Except.bind, hv, hr]
        | ok layer =>
          cases hrest : g₁.readLayers cx shapes ids <;>
            simp [bind, Except.bind, pure, Except.pure, Except.map, hv, hr, hrest]
      | absorbedBy t => simp [bind, Except.bind, hv]
      | elided => simp [bind, Except.bind, hv]

theorem readLayers_of_absent (h : ∀ n, ¬ g.LiveAt id n) :
    g.readLayers cx shapes (id :: ids) = g.readLayers cx shapes ids := by
  rw [readLayers]
  split
  · rfl
  · next n hn =>
    have hd : n.deleted = true := by simpa [LiveAt, hn] using h n
    rw [if_pos hd]

/-- **A walk that succeeds** is a derivation. -/
theorem walked_of_readLayers (h : g.readLayers cx shapes ids = .ok (g', layers)) :
    Walked cx shapes g ids g' layers := by
  induction ids generalizing g layers with
  | nil =>
    cases h
    exact .done
  | cons id ids ih =>
    -- a position counts only as far as its node has not been removed on the way
    rcases g.exists_liveAt_or id with ⟨n, hn⟩ | hmissing
    · rw [readLayers_cons hn] at h
      split at h
      · cases h
      · next family hf =>
        split at h
        · cases h
        · next g₁ hv =>
          obtain rfl := eq_of_visit_kept hv
          split at h
          · cases h
          · next layer hr =>
            obtain ⟨rest, hrest, heq⟩ := exists_ok_of_map h
            obtain ⟨rfl, rfl⟩ := Prod.mk.inj heq
            exact .kept hn hf hv hr (ih hrest)
        · next g₁ o hne hv => exact .removed hv hne (ih h)
    · rw [readLayers_of_absent hmissing] at h
      exact .absent hmissing (ih h)

/-- Conversely, what is derived is what the walk gives. -/
theorem readLayers_of_walked (h : Walked cx shapes g ids g' layers) :
    g.readLayers cx shapes ids = .ok (g', layers) := by
  induction h with
  | done => rfl
  | absent missing _ ih => rw [readLayers_of_absent missing, ih]
  | kept live resolved visit read _ ih =>
    rw [readLayers_cons live, resolved]
    simp only [visit, read, ih]
    rfl
  | @removed g g₁ g' id ids layers o visit leaves _ ih =>
    obtain ⟨n, family, live, hf⟩ := (visited_of_visit visit).exists_resolve leaves
    have resolved : Family.resolve cx.format cx.custom n.opType = .ok family := hf
    rw [readLayers_cons live, resolved]
    simp only [visit]
    cases o with
    | kept => exact absurd rfl leaves
    | absorbedBy => exact ih
    | elided => exact ih

/-- A layer is read at one of some positions, from the node as the visits to the positions before
it leave the node. -/
def ReadAt (cx : ConvertContext) (shapes : Entries (List Int)) (g : Graph) (ids : List Nat) (i : Nat)
    (layer : Layer) : Prop :=
  ∃ before after n family, ids = before ++ i :: after ∧
    (g.fuseFrom cx.fusion before).1.LiveAt i n ∧
    Family.resolve cx.format cx.custom n.opType = .ok family ∧
    Layer.read (cx.layer shapes) family n = .ok layer

theorem ReadAt.of_visit {g₁ : Graph} {o : Outcome} {layer : Layer}
    (h : g₁.ReadAt cx shapes ids i layer) (hv : g.visit cx.fusion id = .ok (g₁, o)) :
    g.ReadAt cx shapes (id :: ids) i layer := by
  obtain ⟨before, after, n, family, rfl, hn, hf, hr⟩ := h
  exact ⟨id :: before, after, n, family, rfl, by rwa [fuseFrom_cons_fst hv], hf, hr⟩

namespace Walked

/-- **A walk makes of a graph what the run of fusion alone makes of it.** -/
theorem fuseFrom_eq (h : Walked cx shapes g ids g' layers) :
    ∃ k, g.fuseFrom cx.fusion ids = (g', .ok k) := by
  induction h with
  | done => exact ⟨0, rfl⟩
  | absent missing _ ih =>
    obtain ⟨k, hk⟩ := ih
    exact ⟨_, fuseFrom_of_visit (visit_of_forall_not_liveAt missing) hk⟩
  | kept _ _ visit _ _ ih =>
    obtain ⟨k, hk⟩ := ih
    exact ⟨_, fuseFrom_of_visit visit hk⟩
  | removed visit _ _ ih =>
    obtain ⟨k, hk⟩ := ih
    exact ⟨_, fuseFrom_of_visit visit hk⟩

theorem fuseFrom_fst (h : Walked cx shapes g ids g' layers) :
    (g.fuseFrom cx.fusion ids).1 = g' := by
  obtain ⟨k, hk⟩ := h.fuseFrom_eq
  rw [hk]

/-- **The layers are those of the visited nodes that are left.** -/
theorem map_fst (h : Walked cx shapes g ids g' layers) (hnd : ids.Nodup) :
    layers.map Prod.fst = ids.filter fun i => i ∈ g'.liveIds := by
  induction h with
  | done => rfl
  | @absent g g' id ids layers missing rest ih =>
    have hnot : id ∉ g'.liveIds := by
      rw [← rest.fuseFrom_fst]
      intro hmem
      obtain ⟨n, hn⟩ := mem_liveIds.mp (mem_liveIds_of_fuseFrom hmem)
      exact missing n hn
    rw [ih (List.nodup_cons.mp hnd).2, List.filter_cons_of_neg (by simpa using hnot)]
  | @kept g g' id ids layers n family layer live _ visit _ rest ih =>
    have hmem : id ∈ g'.liveIds := by
      rw [← rest.fuseFrom_fst]
      exact mem_liveIds_fuseFrom (mem_liveIds.mpr ⟨n, live⟩) (List.nodup_cons.mp hnd).1
    rw [List.map_cons, ih (List.nodup_cons.mp hnd).2, List.filter_cons_of_pos (by simpa using hmem)]
  | @removed g g₁ g' id ids layers o visit leaves rest ih =>
    have hnot : id ∉ g'.liveIds := by
      rw [← rest.fuseFrom_fst]
      intro hmem
      obtain ⟨n, hn⟩ := mem_liveIds.mp (mem_liveIds_of_fuseFrom hmem)
      exact (visited_of_visit visit).not_liveAt leaves hn
    rw [ih (List.nodup_cons.mp hnd).2, List.filter_cons_of_neg (by simpa using hnot)]

/-- After a walk over all live nodes the layers are those of the nodes that are left. -/
theorem map_fst_liveIds (h : Walked cx shapes g g.liveIds g' layers) :
    layers.map Prod.fst = g'.liveIds := by
  rw [h.map_fst nodup_liveIds]
  refine (pairwise_liveIds.filter _).eq_of_mem_iff pairwise_liveIds fun i => ?_
  rw [List.mem_filter, decide_eq_true_eq, and_iff_right_iff_imp]
  intro hi
  rw [← h.fuseFrom_fst] at hi
  exact mem_liveIds_of_fuseFrom hi

/-- **A layer is read from the node as the visits before have left it.** -/
theorem readAt (h : Walked cx shapes g ids g' layers) {layer : Layer} (hl : (i, layer) ∈ layers) :
    g.ReadAt cx shapes ids i layer := by
  induction h with
  | done => exact absurd hl List.not_mem_nil
  | absent missing _ ih => exact (ih hl).of_visit (visit_of_forall_not_liveAt missing)
  | kept live resolved visit read _ ih =>
    rcases List.mem_cons.mp hl with heq | hl
    · obtain ⟨rfl, rfl⟩ := Prod.mk.inj heq
      exact ⟨[], _, _, _, rfl, live, resolved, read⟩
    · exact (ih hl).of_visit visit
  | removed visit _ _ ih => exact (ih hl).of_visit visit

/-- **A layer is read from a node that says what the node at its position says.** -/
theorem exists_read (h : Walked cx shapes g ids g' layers) {layer : Layer}
    (hl : (i, layer) ∈ layers) :
    ∃ n m family, g.LiveAt i m ∧ n.bare = m.bare ∧
      Family.resolve cx.format cx.custom n.opType = .ok family ∧
      Layer.read (cx.layer shapes) family n = .ok layer := by
  obtain ⟨_, _, n, family, -, hn, hf, hr⟩ := h.readAt hl
  obtain ⟨m, hm, hb⟩ := exists_liveAt_of_fuseFrom hn
  exact ⟨n, m, family, hm, hb, hf, hr⟩

/-- **Whatever was there at a visited position has a family**, also if it has left the graph. -/
theorem supported (h : Walked cx shapes g ids g' layers) (hi : i ∈ ids) (hn : g.LiveAt i n) :
    n.Supported cx := by
  induction h generalizing n with
  | done => exact absurd hi List.not_mem_nil
  | absent missing _ ih =>
    rcases List.mem_cons.mp hi with rfl | hi
    · exact absurd hn (missing n)
    · exact ih hi hn
  | kept live resolved _ _ _ ih =>
    rcases List.mem_cons.mp hi with rfl | hi
    · exact ⟨_, live.unique hn ▸ resolved⟩
    · exact ih hi hn
  | @removed g g₁ g' id ids layers o visit leaves _ ih =>
    by_cases hne : i = id
    · subst hne
      obtain ⟨m, family, live, resolved⟩ := (visited_of_visit visit).exists_resolve leaves
      exact ⟨family, live.unique hn ▸ resolved⟩
    · obtain ⟨m, hm⟩ := (visited_of_visit visit).exists_liveAt_of_ne hne hn
      obtain ⟨k, hk, hb⟩ := (visited_of_visit visit).exists_liveAt hm
      obtain ⟨family, hf⟩ := ih ((List.mem_cons.mp hi).resolve_left hne) hm
      exact ⟨family, Node.opType_of_bare (hk.unique hn ▸ hb) ▸ hf⟩

/-- **No node is skipped**: whoever has not been visited yet is still there. -/
theorem exists_liveAt (h : Walked cx shapes g ids g' layers) (hi : i ∈ g.liveIds)
    (hnot : i ∉ ids) : ∃ n, g'.LiveAt i n :=
  mem_liveIds.mp (h.fuseFrom_fst ▸ mem_liveIds_fuseFrom hi hnot)

end Walked

/-! ### What a walk fails for -/

/-- What a bare node tells holds of all nodes of a graph with the same bare nodes. -/
theorem forall_mem_of_bare {P : Node → Prop} (hP : ∀ n m : Node, n.bare = m.bare → P m → P n)
    (h : g'.nodes.map Node.bare = g.nodes.map Node.bare) (hg : ∀ n ∈ g.nodes, P n) :
    ∀ n ∈ g'.nodes, P n := by
  intro n hn
  obtain ⟨i, hi⟩ := List.mem_iff_getElem?.mp hn
  obtain ⟨m, hm, hb⟩ := exists_node?_of_bare h hi
  exact hP n m hb (hg m (List.mem_of_getElem? hm))

/-- Only containers are of the family of containers. -/
theorem isContainerOp_of_resolve {format : ModelFormat} {custom : CustomObjects} {op : String}
    (h : Family.resolve format custom op = .ok .sequential) : isContainerOp op = true := by
  have hop := Family.ofOp?_of_resolve h nofun
  cases format with
  | keras =>
    rw [Family.ofOp?] at hop
    unfold Family.ofKerasOp? at hop
    split at hop <;> simp_all [isContainerOp]
  | onnx =>
    rw [Family.ofOp?] at hop
    unfold Family.ofOnnxOp? at hop
    split at hop <;> simp_all

/-- Only for want of a family is there none for an operator. -/
theorem eq_unsupportedLayer_of_resolve {format : ModelFormat} {custom : CustomObjects} {op : String}
    (h : Family.resolve format custom op = .error e) : e = .unsupportedLayer op := by
  rw [Family.resolve] at h
  split at h
  · cases h
  · split at h
    · cases h
    · cases h
      rfl

/-- A visit to a node that is there fails only for the sake of that node. -/
theorem exists_invalidLayer_of_visit {cx : FusionContext} {family : Family} (hn : g.LiveAt id n)
    (hf : Family.resolve cx.format cx.custom n.opType = .ok family)
    (h : g.visit cx id = .error e) : ∃ fault, e = .invalidLayer n.name fault := by
  rw [visit_of_resolve hn.1 hf] at h
  exact exists_invalidLayer_of_fuseNode hn.1 h

/-- A node that is kept cannot be read only for its own sake: it is no dropout, and if it is no
container either, its family has layers. -/
theorem exists_invalidLayer_of_kept {family : Family} (hn : g.LiveAt id n)
    (hflat : isContainerOp n.opType = false)
    (hf : Family.resolve cx.format cx.custom n.opType = .ok family)
    (hv : g.visit cx.fusion id = .ok (g, .kept))
    (h : Layer.read (cx.layer shapes) family n = .error e) :
    ∃ fault, e = .invalidLayer n.name fault := by
  refine Layer.exists_invalidLayer_of_read h ?_ ?_
  · rintro rfl
    rw [isContainerOp_of_resolve hf] at hflat
    cases hflat
  · have hfuse : g.visit cx.fusion id = g.fuseNode cx.fusion id family := visit_of_resolve hn.1 hf
    rw [hfuse] at hv
    exact ((fuseNode_eq_kept_iff hn).mp hv).1

/-- **What can be wrong with a node** when it is visited: it has no family, it cannot hand over
what it stands for, or its layer cannot be read. The error names the operator or the node. -/
inductive FailsAt (cx : ConvertContext) (shapes : Entries (List Int)) (g : Graph) (id : Nat)
    (n : Node) : ConvertError → Prop
  | unsupported (unresolved : ¬ n.Supported cx) :
      FailsAt cx shapes g id n (.unsupportedLayer n.opType)
  | unvisited {fault : LayerFault} (supported : n.Supported cx)
      (visit : g.visit cx.fusion id = .error (.invalidLayer n.name fault)) :
      FailsAt cx shapes g id n (.invalidLayer n.name fault)
  | unread {family : Family} {fault : LayerFault}
      (resolved : Family.resolve cx.format cx.custom n.opType = .ok family)
      (visit : g.visit cx.fusion id = .ok (g, .kept))
      (read : Layer.read (cx.layer shapes) family n = .error (.invalidLayer n.name fault)) :
      FailsAt cx shapes g id n (.invalidLayer n.name fault)

/-- A walk over some positions stops at one of them: it has come there without an error, and
something is wrong with the node. -/
def Stops (cx : ConvertContext) (shapes : Entries (List Int)) (g : Graph) (ids : List Nat)
    (e : ConvertError) : Prop :=
  ∃ before id after g' layers n, ids = before ++ id :: after ∧ Walked cx shapes g before g' layers ∧
    g'.LiveAt id n ∧ g'.FailsAt cx shapes id n e

/-- A walk that starts with a step stops where the rest of it stops. -/
theorem Stops.cons {g₁ : Graph} (h : g₁.Stops cx shapes ids e)
    (step : ∀ {before g' layers}, Walked cx shapes g₁ before g' layers →
      ∃ layers, Walked cx shapes g (id :: before) g' layers) : g.Stops cx shapes (id :: ids) e := by
  obtain ⟨before, i, after, g', layers, n, rfl, hw, hn, hfail⟩ := h
  obtain ⟨layers', hw'⟩ := step hw
  exact ⟨id :: before, i, after, g', layers', n, rfl, hw', hn, hfail⟩

/-- **In a graph without containers a walk that fails stops at a node**, with an error that is
about that node. -/
theorem stops_of_readLayers (hflat : ∀ n ∈ g.nodes, isContainerOp n.opType = false)
    (h : g.readLayers cx shapes ids = .error e) : g.Stops cx shapes ids e := by
  induction ids generalizing g with
  | nil => cases h
  | cons id ids ih =>
    rcases g.exists_liveAt_or id with ⟨n, hn⟩ | hmissing
    · have here : g.FailsAt cx shapes id n e → g.Stops cx shapes (id :: ids) e :=
        fun hfail => ⟨[], id, ids, g, [], n, rfl, .done, hn, hfail⟩
      rw [readLayers_cons hn] at h
      split at h
      · next e' hf =>
        cases h
        obtain rfl := eq_unsupportedLayer_of_resolve hf
        exact here (.unsupported fun ⟨_, hok⟩ => nomatch hf.symm.trans hok)
      · next family hf =>
        split at h
        · next e' hv =>
          cases h
          obtain ⟨fault, rfl⟩ := exists_invalidLayer_of_visit hn hf hv
          exact here (.unvisited ⟨family, hf⟩ hv)
        · next g₁ hv =>
          obtain rfl := eq_of_visit_kept hv
          split at h
          · next e' hr =>
            cases h
            have hop := hflat n (List.mem_of_getElem? hn.1)
            obtain ⟨fault, rfl⟩ := exists_invalidLayer_of_kept hn hop hf hv hr
            exact here (.unread hf hv hr)
          · next layer hr =>
            exact (ih hflat (eq_error_of_map h)).cons fun hw => ⟨_, .kept hn hf hv hr hw⟩
        · next g₁ o hne hv =>
          refine (ih (forall_mem_of_bare ?_ (visited_of_visit hv).map_bare hflat) h).cons
            fun hw => ⟨_, .removed hv hne hw⟩
          exact fun n m hb hm => Node.opType_of_bare hb ▸ hm
    · rw [readLayers_of_absent hmissing] at h
      exact (ih hflat h).cons fun hw => ⟨_, .absent hmissing hw⟩

/-- The error that a walk stops with is about an operator without a family or about a layer. -/
theorem Stops.cases (h : g.Stops cx shapes ids e) :
    (∃ op, e = .unsupportedLayer op) ∨ ∃ layer fault, e = .invalidLayer layer fault := by
  obtain ⟨_, _, _, _, _, _, _, _, _, hfail⟩ := h
  cases hfail with
  | unsupported => exact Or.inl ⟨_, rfl⟩
  | unvisited => exact Or.inr ⟨_, _, rfl⟩
  | unread => exact Or.inr ⟨_, _, rfl⟩

end Graph

end LayerGraph
