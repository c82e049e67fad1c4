import LayerGraph.Proofs.Exhaustion
import LayerGraph.Proofs.Forest
import LayerGraph.Proofs.Normalize

/-!
# What a normal form is

Everything after normalization relies on a flat graph in which every node lists its operands and no
name is borne twice. `LayerGraph.normalize_exact` says that every node list has such a normal form
or is rejected, and rejected only for a name that two of its leaves share. Nothing is assumed of the
names: containers may share theirs with each other and with leaves, since they are gone before names
are compared.

Before swish is contracted, the nodes of the normal form are the leaves themselves, in depth-first
order, and a leaf differs from its node in the operand list alone (`LayerGraph.FedLeaves`).
-/

namespace LayerGraph

variable {format : ModelFormat} {nodes : List Node} {g : Graph} {i : Nat} {n : Node} {x : String}

/-! ### Rejected lists -/

/-- **The first repetition** in a list of nodes: a node under a name that came up before, while no
name before it did. -/
def FirstRepeat (ns : List Node) (n : Node) : Prop :=
  ∃ before after, ns = before ++ n :: after ∧ (before.map Node.name).Nodup ∧
    n.name ∈ before.map Node.name

theorem names_flatten (nodes : List Node) :
    (flatten nodes).map Node.name = (leaves nodes).map Node.name := by
  rw [flatten_eq_leaves, List.map_map]
  rfl

/-- **A list is rejected for the first repetition** among its leaves. -/
theorem normalize_eq_error_iff_firstRepeat {e : ConvertError} : normalize format nodes = .error e ↔
    ∃ n, FirstRepeat (leaves nodes) n ∧ e = .invalidGraph (.duplicateName n.name) := by
  rw [normalize_eq_error_iff, names_flatten]
  constructor
  · rintro ⟨names, name, rest, hsplit, hnd, hmem, rfl⟩
    obtain ⟨before, tail, hleaves, rfl, htail⟩ := List.map_eq_append_iff.mp hsplit
    obtain ⟨n, after, rfl, rfl, -⟩ := List.map_eq_cons_iff.mp htail
    exact ⟨n, ⟨before, after, hleaves, hnd, hmem⟩, rfl⟩
  · rintro ⟨n, ⟨before, after, hleaves, hnd, hmem⟩, rfl⟩
    exact ⟨_, _, after.map Node.name, by rw [hleaves, List.map_append, List.map_cons], hnd, hmem,
      rfl⟩

/-- A list is rejected exactly if two of its leaves share a name. -/
theorem exists_error_iff : (∃ e, normalize format nodes = .error e) ↔
    ∃ (i j : Nat) (l m : Node), i < j ∧ (leaves nodes)[i]? = some l ∧ (leaves nodes)[j]? = some m ∧
      l.name = m.name := by
  have hok : (∃ e, normalize format nodes = .error e) ↔
      ¬ ((leaves nodes).map Node.name).Nodup := by
    rw [← names_flatten, iff_not_comm]
    constructor
    · intro hnd h
      obtain ⟨e, he⟩ := h
      rw [normalize_eq_ok_iff.mpr ⟨hnd, rfl⟩] at he
      cases he
    · intro h
      cases hres : normalize format nodes with
      | error e => exact absurd ⟨e, hres⟩ h
      | ok g => exact (normalize_eq_ok_iff.mp hres).1
  rw [hok, List.nodup_iff_getElem?_ne_getElem?]
  simp only [List.getElem?_map, List.length_map]
  constructor
  · intro h
    push Not at h
    obtain ⟨i, j, hij, hj, heq⟩ := h
    have hm := List.getElem?_eq_getElem hj
    rw [hm, List.getElem?_eq_getElem (Nat.lt_trans hij hj)] at heq
    exact ⟨i, j, _, _, hij, List.getElem?_eq_getElem (Nat.lt_trans hij hj), hm,
      Option.some.inj heq⟩
  · rintro ⟨i, j, l, m, hij, hl, hm, hname⟩ hall
    refine hall i j hij (List.getElem?_eq_some_iff.mp hm).1 ?_
    rw [hl, hm, Option.map_some, Option.map_some, hname]

/-! ### Fed leaves -/

/-- **The leaves of a forest as the nodes of a graph**, which differ from them in the operand list
alone: one that is there is kept, with the names of containers redirected; where there is none, the
node is fed by the leaf before. -/
structure FedLeaves (nodes : List Node) (g : Graph) : Prop where
  length : g.nodes.length = (leaves nodes).length
  listed : ∀ i l xs, (leaves nodes)[i]? = some l → l.inbound = some xs →
    g.node? i = some { l with inbound := some (xs.map (redirect (forestAliases nodes))) }
  first : ∀ l, (leaves nodes)[0]? = some l → l.inbound = none →
    g.node? 0 = some { l with inbound := some [] }
  next : ∀ i p l, (leaves nodes)[i]? = some p → (leaves nodes)[i + 1]? = some l →
    l.inbound = none → g.node? (i + 1) = some { l with inbound := some [p.name] }

/-- Only the names of containers are redirected. -/
theorem exists_container_of_redirect_ne (h : redirect (forestAliases nodes) x ≠ x) :
    ∃ n ∈ postorder nodes, n.isLeaf = false ∧ n.name = x := by
  by_contra hnot
  have hnone : (forestAliases nodes).value? x = none := by
    rw [forestAliases_eq, aliasesOf]
    exact Flattening.value?_foldl_close_of_forall_ne {} fun n hn hleaf hname =>
      hnot ⟨n, hn, hleaf, hname⟩
  exact h (follow_of_value?_eq_none hnone _)

theorem node?_feedInOrder (nodes : List Node) (i : Nat) :
    (Graph.mk (feedInOrder none (flatten nodes))).node? i = (leaves nodes)[i]?.map fun l =>
      (l.redirected (forestAliases nodes)).feed (nameBefore none (leaves nodes) i) := by
  have hbefore : nameBefore none (flatten nodes) i = nameBefore none (leaves nodes) i := by
    cases i with
    | zero => rfl
    | succ i => simp only [nameBefore, ← List.getElem?_map, names_flatten]
  rw [Graph.node?, getElem?_feedInOrder, hbefore, flatten_eq_leaves, List.getElem?_map,
    Option.map_map]
  rfl

theorem fedLeaves_feedInOrder (nodes : List Node) :
    FedLeaves nodes ⟨feedInOrder none (flatten nodes)⟩ where
  length := by
    have hnames := congrArg List.length (names_feedInOrder none (flatten nodes))
    rwa [names_flatten, List.length_map, List.length_map] at hnames
  listed := by
    intro i l xs hl hin
    rw [node?_feedInOrder, hl]
    simp [Node.feed, Node.redirected, hin]
  first := by
    intro l hl hin
    rw [node?_feedInOrder, hl]
    simp [Node.feed, Node.redirected, hin, nameBefore]
  next := by
    intro i p l hp hl hin
    rw [node?_feedInOrder, hl]
    simp [Node.feed, Node.redirected, hin, nameBefore, hp]

namespace FedLeaves

variable (h : FedLeaves nodes g)

include h in
/-- A fed leaf is a leaf but for its operand list. -/
theorem exists_leaf (hn : g.node? i = some n) :
    ∃ l xs, (leaves nodes)[i]? = some l ∧ n = { l with inbound := some xs } := by
  have hi : i < (leaves nodes).length := h.length ▸ (List.getElem?_eq_some_iff.mp hn).1
  have hl := List.getElem?_eq_getElem hi
  cases hin : ((leaves nodes)[i]).inbound with
  | some xs => exact ⟨_, _, hl, Option.some.inj (hn.symm.trans (h.listed i _ xs hl hin))⟩
  | none =>
    cases i with
    | zero => exact ⟨_, _, hl, Option.some.inj (hn.symm.trans (h.first _ hl hin))⟩
    | succ i =>
      have hp := List.getElem?_eq_getElem (Nat.lt_trans (Nat.lt_succ_self i) hi)
      exact ⟨_, _, hl, Option.some.inj (hn.symm.trans (h.next i _ _ hp hl hin))⟩

include h in
/-- What holds of all leaves whatever feeds them holds of the fed leaves. -/
theorem forall_mem {P : Node → Prop} (hP : ∀ l ∈ leaves nodes, ∀ xs, P { l with inbound := some xs }) :
    ∀ n ∈ g.nodes, P n := by
  intro n hn
  obtain ⟨i, hi⟩ := List.mem_iff_getElem?.mp hn
  obtain ⟨l, xs, hl, rfl⟩ := h.exists_leaf hi
  exact hP l (List.mem_of_getElem? hl) xs

include h in
theorem names : g.nodes.map Node.name = (leaves nodes).map Node.name := by
  refine List.ext_getElem? fun i => ?_
  rw [List.getElem?_map, List.getElem?_map]
  cases hn : g.node? i with
  | none =>
    have hi := List.getElem?_eq_none_iff.mp hn
    rw [show g.nodes[i]? = none from hn, List.getElem?_eq_none (h.length ▸ hi)]
  | some n =>
    obtain ⟨l, xs, hl, rfl⟩ := h.exists_leaf hn
    rw [show g.nodes[i]? = _ from hn, hl]
    rfl

end FedLeaves

/-! ### Normal forms -/

theorem names_normalForm (format : ModelFormat) (g : Graph) :
    (normalForm format g).nodes.map Node.name = g.nodes.map Node.name := by
  cases format with
  | keras => rfl
  | onnx => exact Graph.map_contractSwish fun _ _ _ _ => rfl

/-- What holds of a swish, and of a node that is rewired or marked, holds of all nodes after
contracting swish if it did before. -/
theorem forall_mem_normalForm {P : Node → Prop} (hs : ∀ n, P n → P n.toSwish)
    (hr : ∀ (n : Node) r names, P n → P (n.rewire r names))
    (hd : ∀ n : Node, P n → P { n with deleted := true }) (h : ∀ n ∈ g.nodes, P n) :
    ∀ n ∈ (normalForm format g).nodes, P n := by
  cases format with
  | keras => exact h
  | onnx =>
    refine Graph.contractPairs_invariant (P := fun _ g' => ∀ n ∈ g'.nodes, P n)
      (fun _ _ _ h => h) ?_ _ h
    intro i j ps g₁ g' hg hc
    obtain ⟨s, m, -, -, -, rfl⟩ := Graph.exists_of_contractPair? hc
    refine Graph.forall_mem_modify hd (fun n hn => ?_) j
    obtain ⟨l, hl, rfl⟩ := List.mem_map.mp hn
    have hl' : P l := Graph.forall_mem_modify hs hg i l hl
    split
    · exact hl'
    · exact hr l _ _ hl'

/-- A name finds its node if that is live, and nothing otherwise. -/
theorem Graph.Distinct.get?_eq (hg : g.Distinct) (hn : g.node? i = some n) :
    g.get? n.name = if n.deleted then none else some n := by
  have hfind : g.find? n.name = some i := hg.find?_eq_some_iff.mpr ⟨n, hn, rfl⟩
  rw [get?, hfind, Option.bind_some, hn, Option.filter_some]
  cases n.deleted <;> rfl

/-- **A normal form** of a node list: flat, with operand lists everywhere, and with distinct names
in depth-first order. The fed leaves become it by contracting swish, in the format that has it, and
the nodes that this removes are the only ones that their names do not find. -/
structure IsNormalForm (format : ModelFormat) (nodes : List Node) (g : Graph) : Prop where
  wired : ∀ n ∈ g.nodes, n.inbound.isSome = true
  flat : ∀ n ∈ g.nodes, n.children = []
  noContainer : ∀ n ∈ g.nodes, isContainerOp n.opType = false
  ordered : g.nodes.map Node.name = (leaves nodes).map Node.name
  distinct : g.Distinct
  find : ∀ name i, g.find? name = some i ↔ ∃ n, g.node? i = some n ∧ n.name = name
  fed : ∃ g₀, FedLeaves nodes g₀ ∧ g = normalForm format g₀ ∧ ∀ i n, g.node? i = some n →
    g.get? n.name = some n ∨
      g.get? n.name = none ∧ format = .onnx ∧ ∃ s, g₀.SwishMade g s i

/-- Only a contraction removes a node of a normal form. -/
theorem FedLeaves.exists_swishMade (h : FedLeaves nodes g)
    (hlive : ∀ l ∈ leaves nodes, l.deleted = false) (hn : (normalForm format g).node? i = some n)
    (hdel : n.deleted = true) : format = .onnx ∧ ∃ s, g.SwishMade (normalForm format g) s i := by
  have hall : ∀ n ∈ g.nodes, n.deleted = false := h.forall_mem fun l hl _ => hlive l hl
  cases format with
  | keras => exact absurd (hall n (List.mem_of_getElem? hn)) (by simp [hdel])
  | onnx =>
    have hlen : i < g.nodes.length := by
      have hi := (List.getElem?_eq_some_iff.mp hn).1
      have hnames := congrArg List.length (names_normalForm .onnx g)
      rw [List.length_map, List.length_map] at hnames
      exact hnames ▸ hi
    have hbefore : i ∈ g.liveIds := Graph.mem_liveIds.mpr
      ⟨_, List.getElem?_eq_getElem hlen, hall _ (List.getElem_mem hlen)⟩
    have hgone : i ∉ g.contractSwish.1.liveIds := by
      intro hmem
      obtain ⟨m, hm⟩ := Graph.mem_liveIds.mp hmem
      obtain rfl := Option.some.inj (hm.1.symm.trans hn)
      exact absurd hm.2 (by simp [hdel])
    have hmem := Graph.mem_removed.mpr ⟨hbefore, hgone⟩
    rw [Graph.removed_contractSwish] at hmem
    obtain ⟨⟨s, _⟩, hp, rfl⟩ := List.mem_map.mp hmem
    exact ⟨rfl, s, Graph.SwishMade.of_mem hp⟩

/-- **The fed leaves have a normal form**, if their names are distinct. -/
theorem FedLeaves.isNormalForm (h : FedLeaves nodes g)
    (hnd : ((leaves nodes).map Node.name).Nodup) (hlive : ∀ l ∈ leaves nodes, l.deleted = false) :
    IsNormalForm format nodes (normalForm format g) := by
  have hnames : (normalForm format g).nodes.map Node.name = (leaves nodes).map Node.name :=
    (names_normalForm format g).trans h.names
  have hd : (normalForm format g).Distinct := by
    rw [Graph.Distinct, hnames]
    exact hnd
  have hleaf : ∀ n ∈ g.nodes, n.children = [] ∧ isContainerOp n.opType = false := by
    refine h.forall_mem fun l hl xs => ?_
    have hl := isLeaf_of_mem_leaves hl
    rw [Node.isLeaf, Bool.and_eq_true, Bool.not_eq_true'] at hl
    exact ⟨List.isEmpty_iff.mp hl.1, hl.2⟩
  refine ⟨?_, ?_, ?_, hnames, hd, fun name i => hd.find?_eq_some_iff, g, h, rfl, fun i n hn => ?_⟩
  · refine forall_mem_normalForm (fun _ hn => hn) (fun n r names hn => ?_) (fun _ hn => hn)
      (h.forall_mem fun _ _ _ => rfl)
    rw [Node.rewire, Option.isSome_map]
    exact hn
  · exact forall_mem_normalForm (fun _ hn => hn) (fun _ _ _ hn => hn) (fun _ hn => hn)
      fun n hn => (hleaf n hn).1
  · exact forall_mem_normalForm (fun _ _ => rfl) (fun _ _ _ hn => hn) (fun _ hn => hn)
      fun n hn => (hleaf n hn).2
  · rw [hd.get?_eq hn]
    cases hdel : n.deleted with
    | false => exact .inl rfl
    | true => exact .inr ⟨rfl, h.exists_swishMade hlive hn hdel⟩

/-- **What normalization gives is a normal form.** -/
theorem isNormalForm_of_normalize (hlive : ∀ l ∈ leaves nodes, l.deleted = false)
    (hg : normalize format nodes = .ok g) : IsNormalForm format nodes g := by
  obtain ⟨hnd, rfl⟩ := normalize_eq_ok_iff.mp hg
  exact (fedLeaves_feedInOrder nodes).isNormalForm (names_flatten nodes ▸ hnd) hlive

/-- **Every node list has a normal form or two leaves of one name**, and the first leaf that repeats
a name is what is reported. -/
theorem normalize_exact (format : ModelFormat) (hlive : ∀ l ∈ leaves nodes, l.deleted = false) :
    ((∃ e, normalize format nodes = .error e) ↔
      ∃ (i j : Nat) (l m : Node), i < j ∧ (leaves nodes)[i]? = some l ∧ (leaves nodes)[j]? = some m ∧
        l.name = m.name) ∧
    (∀ e, normalize format nodes = .error e →
      ∃ n, FirstRepeat (leaves nodes) n ∧ e = .invalidGraph (.duplicateName n.name)) ∧
    (∀ g, normalize format nodes = .ok g → IsNormalForm format nodes g) ∧
    ∀ x, redirect (forestAliases nodes) x ≠ x →
      ∃ n ∈ postorder nodes, n.isLeaf = false ∧ n.name = x :=
  ⟨exists_error_iff, fun _ => normalize_eq_error_iff_firstRepeat.mp,
    fun _ => isNormalForm_of_normalize hlive, fun _ => exists_container_of_redirect_ne⟩

/-- Containers of one name inside each other, so that their aliases run in a circle, and a swish
across the end of them. -/
def circularForest : List Node := [
  { name := "x", opType := "Input", inbound := some [] },
  { name := "a", opType := "Sequential", children := [
    { name := "b", opType := "Model", children := [
      { name := "a", opType := "Functional", children := [
        { name := "s", opType := "Sigmoid" }] }] }] },
  { name := "m", opType := "Mul", inbound := some ["s", "x"] },
  { name := "sum", opType := "Add", inbound := some ["m", "a"] }]

/-- The product is gone, and a reference to one of the containers still is one. -/
theorem normalize_circularForest :
    (∀ l ∈ leaves circularForest, l.deleted = false) ∧
      ∃ g, normalize .onnx circularForest = .ok g ∧ IsNormalForm .onnx circularForest g ∧
        g.live.map (fun n => (n.name, n.opType, n.inputs)) =
          [("x", "Input", []), ("s", "Swish", ["x"]), ("sum", "Add", ["s", "b"])] ∧
        g.find? "m" = some 2 ∧ (g.get? "m").isNone = true := by
  have hlive : ∀ l ∈ leaves circularForest, l.deleted = false := by decide
  obtain ⟨-, -, hform, -⟩ := normalize_exact .onnx hlive
  exact ⟨hlive, _, rfl, hform _ rfl, by decide, by decide, by decide⟩

end LayerGraph
