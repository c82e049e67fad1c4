import LayerGraph.Proofs.Ledger
import Mathlib.Data.List.Sort

/-!
# Fusion under any policy

A policy may let an operator be absorbed that absorbs others itself, so a node that holds
something may well be one that the policy lets go. That it stays is a matter of order: a node is
absorbed by an earlier one, which has had its visit by then and was kept. So nothing is handed to
a node that is still to be visited, and a node that leaves holds nothing
(`LayerGraph.Graph.Unspent`).

With this the ledger of a fusion is balanced whatever the policy is, and the nodes are conserved
(`LayerGraph.Graph.fuse_conserves`): as many are gone as the run counts, and each of them was a
dropout or is held in one slot of one node that is left.
-/

namespace LayerGraph

/-- Only dropouts are of the family of dropouts. -/
theorem Family.eq_dropout_of_resolve {format : ModelFormat} {custom : CustomObjects} {op : String}
    (h : Family.resolve format custom op = .ok .dropout) : op = "Dropout" := by
  have hop := ofOp?_of_resolve h nofun
  cases format with
  | keras =>
    rw [ofOp?] at hop
    unfold ofKerasOp? at hop
    split at hop <;> simp_all
  | onnx =>
    rw [ofOp?] at hop
    unfold ofOnnxOp? at hop
    split at hop <;> simp_all

namespace Graph

variable {cx : FusionContext} {g₀ g g' : Graph} {i id k : Nat} {ids : List Nat} {n m : Node}
  {o : Outcome}

/-! ### Counting what leaves -/

theorem length_liveIds (g : Graph) : g.liveIds.length = g.nodes.countP fun n => !n.deleted :=
  g.length_idsWhere _

/-- **A visit that does not keep the node removes it and no other.** -/
theorem Visited.liveIds (h : Visited cx g id g' o) (ho : o ≠ .kept) :
    id ∈ g.liveIds ∧ g'.liveIds = g.liveIds.erase id := by
  obtain ⟨n, -, live, -⟩ := h.exists_resolve ho
  refine ⟨mem_liveIds.mpr ⟨n, live⟩, ?_⟩
  refine pairwise_liveIds.eq_of_mem_iff (pairwise_liveIds.sublist List.erase_sublist) fun i => ?_
  rw [nodup_liveIds.mem_erase_iff]
  constructor
  · intro hi
    obtain ⟨n, hn⟩ := mem_liveIds.mp hi
    obtain ⟨m, hm, -⟩ := h.exists_liveAt hn
    refine ⟨?_, mem_liveIds.mpr ⟨m, hm⟩⟩
    rintro rfl
    exact h.not_liveAt ho hn
  · rintro ⟨hne, hi⟩
    obtain ⟨n, hn⟩ := mem_liveIds.mp hi
    exact mem_liveIds.mpr (h.exists_liveAt_of_ne hne hn)

/-- **A run counts the nodes that leave.** -/
theorem length_liveIds_fuseFrom :
    ∀ {ids : List Nat} {g : Graph} {k : Nat}, g.fuseFrom cx ids = (g', .ok k) →
      g'.liveIds.length + k = g.liveIds.length
  | [], g, k, hrun => by
    obtain ⟨rfl, hk⟩ := Prod.mk.inj hrun
    obtain rfl := Except.ok.inj hk
    rfl
  | id :: ids, g, k, hrun => by
    obtain ⟨g₁, o, k', hv, hrest, rfl⟩ := fuseFrom_cons_ok hrun
    have hcount := length_liveIds_fuseFrom hrest
    have hvis := visited_of_visit hv
    by_cases ho : o = .kept
    · subst ho
      cases hvis
      exact hcount
    · obtain ⟨hid, hids⟩ := hvis.liveIds ho
      have hpos : 0 < g.liveIds.length := List.length_pos_of_mem hid
      rw [hids, List.length_erase_of_mem hid] at hcount
      rw [if_neg ho]
      omega

/-- Where nothing was deleted before, the run counts what is deleted after it. -/
theorem countP_deleted_of_fuse (hlive : ∀ n ∈ g.nodes, n.deleted = false)
    (run : g.fuse cx = (g', .ok k)) : g'.nodes.countP Node.deleted = k := by
  have hbare : (g.fuse cx).1.nodes.map Node.bare = g.nodes.map Node.bare := map_bare_fuseFrom _
  have hlen : g'.nodes.length = g.nodes.length := by simpa [run] using congrArg List.length hbare
  have hall : g.nodes.countP (fun n => !n.deleted) = g.nodes.length :=
    List.countP_eq_length.mpr fun n hn => by simp [hlive n hn]
  have hcount := length_liveIds_fuseFrom run
  have hsplit := List.length_eq_countP_add_countP Node.deleted (l := g'.nodes)
  rw [length_liveIds, length_liveIds, hall] at hcount
  simp only [Bool.not_eq_true, Bool.decide_eq_false] at hsplit
  omega

/-! ### Who holds something -/

theorem exists_node?_of_retire {name : String} {names : List String}
    (hn : (g.retire id name names).node? i = some n) :
    ∃ m, g.node? i = some m ∧ n.absorbed = m.absorbed ∧
      (n.deleted = true → m.deleted = true ∨ i = id) := by
  simp only [retire, remove, node?_modify, node?_splice, Option.map_map,
    Option.map_eq_some_iff, Function.comp] at hn
  obtain ⟨m, hm, rfl⟩ := hn
  refine ⟨m, hm, ?_, fun hd => ?_⟩
  · split <;> split <;> rfl
  · by_cases hi : i = id
    · exact Or.inr hi
    · rw [if_neg hi] at hd
      split at hd <;> exact Or.inl hd

/-- **What a visit does to a node**, deleted or not: only a live node comes to hold more, and none
but the visited one is marked. -/
theorem Visited.exists_node? (h : Visited cx g id g' o) (hn : g'.node? i = some n) :
    ∃ m, g.node? i = some m ∧
      (n.absorbed = m.absorbed ∨ o = .absorbedBy i ∧ m.deleted = false) ∧
      (n.deleted = true → m.deleted = true ∨ i = id) := by
  cases h with
  | kept => exact ⟨n, hn, Or.inl rfl, Or.inl⟩
  | elided =>
    obtain ⟨m, hm, habs, hdel⟩ := exists_node?_of_retire hn
    exact ⟨m, hm, Or.inl habs, hdel⟩
  | @absorbed _ _ c t _ _ target =>
    rw [merge_eq target.1] at hn
    obtain ⟨l, hl, habs, hdel⟩ := exists_node?_of_retire hn
    rw [node?_modify, Option.map_eq_some_iff] at hl
    obtain ⟨m, hm, rfl⟩ := hl
    by_cases hit : i = t
    · subst hit
      rw [if_pos rfl] at hdel
      obtain rfl := Option.some.inj (hm.symm.trans target.1)
      exact ⟨m, hm, Or.inr ⟨rfl, target.2⟩, hdel⟩
    · rw [if_neg hit] at habs hdel
      exact ⟨m, hm, Or.inl habs, hdel⟩

/-- **What a run relies on** when the nodes at some positions are still to be visited: the ledger
is balanced, and neither these nodes hold anything nor those that have left. -/
structure Unspent (cx : FusionContext) (g₀ : Graph) (ids : List Nat) (g : Graph) : Prop where
  ordered : g.Ordered
  ledger : Ledger cx g₀ g
  empty : ∀ i n, g.node? i = some n → i ∈ ids ∨ n.deleted = true → n.absorbed = {}

/-- **A visit spends nothing on the nodes after it**, since a node is merged into an earlier one. -/
theorem Unspent.visited (h : Unspent cx g₀ (id :: ids) g) (hd : g₀.Distinct)
    (hlt : ∀ i ∈ ids, id < i) (hv : Visited cx g id g' o) : Unspent cx g₀ ids g' where
  ordered := hv.ordered h.ordered
  ledger := by
    refine h.ledger.visited hd hv (fun _ n c hn => ?_) ?_
    · exact Node.not_holds_of_absorbed (h.empty id n hn.1 (Or.inl List.mem_cons_self))
    · rintro rfl
      exact Nat.lt_irrefl id (hv.target_lt h.ordered.backward)
  empty := by
    intro i n hn hi
    obtain ⟨m, hm, habs, hdel⟩ := hv.exists_node? hn
    -- the node was to be visited or had left before, or it is the visited one
    have hbefore : i ∈ id :: ids ∨ m.deleted = true := by
      rcases hi with hi | hi
      · exact Or.inl (List.mem_cons_of_mem _ hi)
      · rcases hdel hi with hm | rfl
        · exact Or.inr hm
        · exact Or.inl List.mem_cons_self
    rcases habs with habs | ⟨rfl, hlive⟩
    · rw [habs]
      exact h.empty i m hm hbefore
    · have hi' : i < id := hv.target_lt h.ordered.backward
      rcases hbefore with hmem | hm
      · rcases List.mem_cons.mp hmem with rfl | hmem
        · exact absurd hi' (Nat.lt_irrefl i)
        · exact absurd (Nat.lt_trans hi' (hlt i hmem)) (Nat.lt_irrefl i)
      · rw [hlive] at hm
        cases hm

theorem Unspent.fuseFrom (hd : g₀.Distinct) :
    ∀ {ids : List Nat} {g : Graph} {k : Nat}, g.fuseFrom cx ids = (g', .ok k) →
      ids.Pairwise (· < ·) → Unspent cx g₀ ids g → Unspent cx g₀ [] g'
  | [], g, k, hrun, _, h => by
    obtain ⟨rfl, -⟩ := Prod.mk.inj hrun
    exact h
  | id :: ids, g, k, hrun, hids, h => by
    obtain ⟨g₁, o, k', hv, hrest, -⟩ := fuseFrom_cons_ok hrun
    obtain ⟨hlt, hids⟩ := List.pairwise_cons.mp hids
    exact Unspent.fuseFrom hd hrest hids (h.visited hd hlt (visited_of_visit hv))

/-! ### The account of a run -/

/-- **The node of a name is held once**: one slot of one node tells what came from it, and that
node is live. -/
def HeldOnce (g : Graph) (name : String) : Prop :=
  ∃ t m c, g.LiveAt t m ∧ m.Holds c ∧ c.source = name ∧
    ∀ t' m' c', g.node? t' = some m' → m'.Holds c' → c'.source = name → t' = t ∧ c' = c

/-- What comes from one node is one contribution, held in one place. -/
theorem Ledger.heldOnce (h : Ledger cx g₀ g) (hd : g₀.Distinct)
    (hgone : ∀ i n, g.node? i = some n → n.deleted = true → n.absorbed = {}) (hn : g₀.LiveAt i n)
    {t : Nat} {c : Contribution} (hm : g.LiveAt t m) (hh : m.Holds c) (hc : n.Offers cx c) :
    g.HeldOnce n.name := by
  refine ⟨t, m, c, hm, hh, hc.source_eq, fun t' m' c' hm' hh' hname => ?_⟩
  have hlive : g.LiveAt t' m' := by
    refine ⟨hm', Bool.eq_false_iff.mpr fun hdel => ?_⟩
    exact Node.not_holds_of_absorbed (hgone t' m' hm' hdel) hh'
  obtain ⟨j, l, hl, -, hoff, -⟩ := h.sources t' m' c' hlive hh'
  -- the source of the other slot bears the same name, so it is the same node
  obtain rfl : j = i := hd.eq_of_name hl.1 hn.1 (hoff.source_eq.symm.trans hname)
  obtain rfl := hl.unique hn
  obtain rfl := hoff.unique hc
  exact ⟨h.unique t' t m' m c' hlive hm hh' hh, rfl⟩

/-- **Fusion conserves the nodes** under every policy. No node changes what it says of itself. As
many are gone as the run counts, and each of these was a dropout or is held once, by a node that
is left. What is held comes from nodes that are gone; and these neither hold anything nor are
referred to. -/
theorem fuse_conserves (hg : g.Ordered)
    (hfresh : ∀ n ∈ g.nodes, n.deleted = false ∧ n.absorbed = {}) (run : g.fuse cx = (g', .ok k)) :
    g'.nodes.map Node.bare = g.nodes.map Node.bare ∧ g'.nodes.countP Node.deleted = k ∧
      (∀ n ∈ g'.nodes, n.deleted = true → n.opType = "Dropout" ∨ g'.HeldOnce n.name) ∧
      (∀ m ∈ g'.live, ∀ c, m.Holds c → ∃ n ∈ g'.nodes, n.deleted = true ∧ n.name = c.source) ∧
      ∀ n ∈ g'.nodes, n.deleted = true → n.absorbed = {} ∧ ∀ m ∈ g'.live, n.name ∉ m.inputs := by
  have hbare : g'.nodes.map Node.bare = g.nodes.map Node.bare := by
    rw [← show (g.fuse cx).1 = g' by rw [run]]
    exact map_bare_fuseFrom _
  have hlive : ∀ {i n}, g.node? i = some n → g.LiveAt i n := fun hn =>
    ⟨hn, (hfresh _ (List.mem_of_getElem? hn)).1⟩
  have hend : Unspent cx g [] g' := Unspent.fuseFrom hg.distinct run pairwise_liveIds
    ⟨hg, Ledger.initial fun n hn => (hfresh n (List.mem_of_mem_filter hn)).2,
      fun _ n hn _ => (hfresh n (List.mem_of_getElem? hn)).2⟩
  have hgone : ∀ i n, g'.node? i = some n → n.deleted = true → n.absorbed = {} :=
    fun i n hn hdel => hend.empty i n hn (Or.inr hdel)
  refine ⟨hbare, countP_deleted_of_fuse (fun n hn => (hfresh n hn).1) run, fun n hn hdel => ?_,
    fun m hm c hh => ?_, fun n hn hdel => ?_⟩
  · -- a node that is gone is on record in the ledger
    obtain ⟨i, hi⟩ := List.mem_iff_getElem?.mp hn
    obtain ⟨n₀, hn₀, hb⟩ := exists_node?_of_bare hbare hi
    have hnot : i ∉ g'.liveIds := by
      intro hmem
      obtain ⟨l, hl⟩ := mem_liveIds.mp hmem
      obtain rfl := Option.some.inj (hi.symm.trans hl.1)
      rw [hl.2] at hdel
      cases hdel
    rcases hend.ledger.removed i n₀ (hlive hn₀) hnot with hf | ⟨c, hc, t, m, hm, hh⟩
    · exact Or.inl ((Node.opType_of_bare hb).trans (Family.eq_dropout_of_resolve hf))
    · rw [Node.name_of_bare hb]
      exact Or.inr (hend.ledger.heldOnce hg.distinct hgone (hlive hn₀) hm hh hc)
  · obtain ⟨t, ht⟩ := mem_live.mp hm
    obtain ⟨i, n₀, hn₀, hnot, hoff, -⟩ := hend.ledger.sources t m c ht hh
    obtain ⟨n, hn, hb⟩ := exists_node?_of_bare hbare.symm hn₀.1
    refine ⟨n, List.mem_of_getElem? hn, ?_, (Node.name_of_bare hb).symm.trans hoff.source_eq.symm⟩
    exact Bool.of_not_eq_false fun hd => hnot (mem_liveIds.mpr ⟨n, hn, hd⟩)
  · obtain ⟨i, hi⟩ := List.mem_iff_getElem?.mp hn
    exact ⟨hgone i n hi hdel, fun m hm => hend.ordered.not_mem_inputs hi hdel hm⟩

/-- A policy under which activations and batch normalizations absorb each other. -/
def mutualPolicy : FusionPolicy :=
  FusionPolicy.empty.insertAll .keras
    [.allowing "ReLU" ["BatchNormalization"], .allowing "BatchNormalization" ["ReLU", "Add"]]

/-- Activations and batch normalizations in a row, with a dropout between them. -/
def mutualChain : Graph := ⟨[
  { name := "in", opType := "InputLayer", inbound := some [] },
  { name := "sum", opType := "Add", inbound := some ["in", "in"] },
  { name := "norm", opType := "BatchNormalization", inbound := some ["in"],
    weights := [("moving_mean", ⟨[0], []⟩), ("moving_variance", ⟨[0], []⟩)] },
  { name := "relu", opType := "ReLU", inbound := some ["norm"] },
  { name := "drop", opType := "Dropout", inbound := some ["relu"] },
  { name := "late", opType := "ReLU", inbound := some ["drop"] },
  { name := "tail", opType := "BatchNormalization", inbound := some ["late", "sum"],
    weights := [("moving_mean", ⟨[0], []⟩), ("moving_variance", ⟨[0], []⟩)] },
  { name := "flat", opType := "Flatten", inbound := some ["tail", "sum"] }]⟩

/-- The first normalization absorbs an activation and the second activation a normalization, and
each of these is held once. -/
theorem fuse_mutualChain_conserves :
    mutualChain.Ordered ∧ (∀ n ∈ mutualChain.nodes, n.deleted = false ∧ n.absorbed = {}) ∧
      (mutualChain.fuse ⟨.keras, mutualPolicy, {}⟩).2 = .ok 3 ∧
      (mutualChain.fuse ⟨.keras, mutualPolicy, {}⟩).1.nodes.countP Node.deleted = 3 ∧
      (mutualChain.fuse ⟨.keras, mutualPolicy, {}⟩).1.live.map Node.name =
        ["in", "sum", "norm", "late", "flat"] ∧
      ∀ n ∈ (mutualChain.fuse ⟨.keras, mutualPolicy, {}⟩).1.nodes, n.deleted = true →
        n.opType = "Dropout" ∨ (mutualChain.fuse ⟨.keras, mutualPolicy, {}⟩).1.HeldOnce n.name := by
  have hord : mutualChain.Ordered := by decide
  have hfresh : ∀ n ∈ mutualChain.nodes, n.deleted = false ∧ n.absorbed = {} := by decide
  have hrun : (mutualChain.fuse ⟨.keras, mutualPolicy, {}⟩).2 = .ok 3 := by decide
  have hall := fuse_conserves (k := 3) hord hfresh (Prod.ext rfl hrun)
  exact ⟨hord, hfresh, hrun, hall.2.1, by decide, hall.2.2.1⟩

end Graph

end LayerGraph
