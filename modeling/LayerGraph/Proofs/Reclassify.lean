import LayerGraph.Proofs.Entries
import LayerGraph.Proofs.Ordered
import LayerGraph.Reclassify

/-!
# What reclassification changes

Reclassification changes the operator of a node and some of its attributes if there is a reason
(`LayerGraph.Node.reclassified?_eq_some_iff`), and the new operator is no reason again. Names,
operands and marks stay, and with them the order of the graph; so do the weights and whatever a
node may have absorbed.
-/

namespace LayerGraph

namespace Node

variable {n m : Node} {format : ModelFormat} {op : String} {changes : Attributes}
  {xs : List Single} {accepts : List Single → Single → Prop}

/-! ### Scales -/

/-- **The known scales** of a resize: those that are declared, or else the weight of the operand
that holds the scales, unless it is empty. -/
inductive KnownScales (n : Node) : List Single → Prop
  | declared {xs : List Single} (scales : Entries.value? n.attrs "scales" = some (.floats xs)) :
      KnownScales n xs
  | operand {ops : List String} {x : String} {t : Tensor}
      (undeclared : ∀ xs, Entries.value? n.attrs "scales" ≠ some (.floats xs))
      (operands : n.attrs.strs? "operands" = some ops)
      (place : ops[if n.opType = "Upsample" ∨ ops.length = 2 then 1 else 2]? = some x)
      (weight : Entries.value? n.weights x = some t) (nonempty : t.data ≠ []) :
      KnownScales n t.data

/-- The weight that holds the scales, where operands are listed. -/
theorem operandWeight?_scalesOperand {ops : List String}
    (hops : n.attrs.strs? "operands" = some ops) : n.operandWeight? n.scalesOperand =
      ops[if n.opType = "Upsample" ∨ ops.length = 2 then 1 else 2]?.bind
        fun x => Entries.value? n.weights x := by
  have hoperands : n.operands = ops := by rw [operands, hops, Option.getD_some]
  have hplace : n.scalesOperand = if n.opType = "Upsample" ∨ ops.length = 2 then 1 else 2 := by
    rw [scalesOperand, hoperands]
    simp only [Bool.or_eq_true, decide_eq_true_eq]
  rw [operandWeight?, hops, hplace]

theorem scales?_eq_some_iff : n.scales? = some xs ↔ n.KnownScales xs := by
  by_cases hdecl : ∃ ys, Entries.value? n.attrs "scales" = some (.floats ys)
  · obtain ⟨ys, hys⟩ := hdecl
    rw [scales?, hys, Option.some.injEq]
    constructor
    · rintro rfl
      exact .declared hys
    · intro h
      cases h with
      | declared hxs => exact AttrValue.floats.inj (Option.some.inj (hys.symm.trans hxs))
      | operand undeclared => exact absurd hys (undeclared ys)
  · have hnot : ∀ ys, Entries.value? n.attrs "scales" ≠ some (.floats ys) := not_exists.mp hdecl
    have hscales : n.scales? =
        ((n.operandWeight? n.scalesOperand).map Tensor.data).filter fun ys => !ys.isEmpty := by
      rw [scales?]
      split
      · next ys hys => exact absurd hys (hnot ys)
      · rfl
    rw [hscales, Option.filter_eq_some_iff, Option.map_eq_some_iff]
    constructor
    · rintro ⟨⟨t, ht, rfl⟩, hne⟩
      cases hops : n.attrs.strs? "operands" with
      | none => simp [operandWeight?, hops] at ht
      | some ops =>
        rw [operandWeight?_scalesOperand hops] at ht
        obtain ⟨x, hx, hw⟩ := Option.bind_eq_some_iff.mp ht
        exact .operand hnot hops hx hw (by simpa using hne)
    · intro h
      cases h with
      | declared hxs => exact absurd hxs (hnot _)
      | operand _ hops hx hw hne =>
        refine ⟨⟨_, ?_, rfl⟩, by simpa using hne⟩
        rw [operandWeight?_scalesOperand hops, hx, Option.bind_some, hw]

/-! ### Reasons for another operator -/

/-- **Why a node gets another operator**, with that operator and the attributes that are set. Which
factors of known scales count is left open. -/
inductive NewOperator (accepts : List Single → Single → Prop) (n : Node) :
    ModelFormat → String → Attributes → Prop
  | depthwise {k : Int} (op : n.opType = "Conv") (group : n.attrs.int? "group" = some k)
      (several : 1 < k) :
      NewOperator accepts n .onnx "DepthwiseConv2D" [("group", .int 1), ("group_count", .int k)]
  | upsampling {xs : List Single} {factor : Single}
      (op : n.opType = "Resize" ∨ n.opType = "Upsample") (scales : n.KnownScales xs)
      (common : accepts xs factor) :
      NewOperator accepts n .onnx "UpSampling2D" [("scaleFactor", .float factor),
        ("interpolation", .str ((n.attrs.str? "mode").getD "nearest"))]
  | averagePool (op : n.opType = "GlobalAveragePool") :
      NewOperator accepts n .onnx "AveragePool" [("global", .bool true)]
  | averagePooling (op : n.opType = "GlobalAveragePooling2D") :
      NewOperator accepts n .keras "AveragePooling2D" [("global", .bool true)]

/-- The operators that reclassification gives. -/
def reclassifiedOps : List String :=
  ["DepthwiseConv2D", "UpSampling2D", "AveragePool", "AveragePooling2D"]

theorem NewOperator.imp {accepts' : List Single → Single → Prop}
    (h : ∀ xs f, n.opType = "Resize" ∨ n.opType = "Upsample" → n.KnownScales xs →
      accepts xs f → accepts' xs f) :
    n.NewOperator accepts format op changes → n.NewOperator accepts' format op changes
  | .depthwise hop hgroup hseveral => .depthwise hop hgroup hseveral
  | .upsampling hop hxs hf => .upsampling hop hxs (h _ _ hop hxs hf)
  | .averagePool hop => .averagePool hop
  | .averagePooling hop => .averagePooling hop

/-- Reasons give one of the new operators. -/
theorem NewOperator.mem (h : n.NewOperator accepts format op changes) : op ∈ reclassifiedOps := by
  cases h <;> simp [reclassifiedOps]

/-- The attributes that are set have different names. -/
theorem NewOperator.nodup (h : n.NewOperator accepts format op changes) :
    (changes.map Prod.fst).Nodup := by
  cases h <;> simp

/-- **A new operator is no reason** for another one. -/
theorem NewOperator.not_mem (h : n.NewOperator accepts format op changes) :
    n.opType ∉ reclassifiedOps := by
  cases h with
  | depthwise hop => simp [hop, reclassifiedOps]
  | upsampling hop => rcases hop with hop | hop <;> simp [hop, reclassifiedOps]
  | averagePool hop => simp [hop, reclassifiedOps]
  | averagePooling hop => simp [hop, reclassifiedOps]

theorem groupedConv?_eq_some_iff : n.groupedConv? = some m ↔
    ∃ k, n.attrs.int? "group" = some k ∧ 1 < k ∧
      m = { n with
        opType := "DepthwiseConv2D"
        attrs := Entries.setAll n.attrs [("group", .int 1), ("group_count", .int k)] } := by
  cases hgroup : n.attrs.int? "group" with
  | none => simp [groupedConv?, hgroup]
  | some k => simp [groupedConv?, hgroup, Entries.setAll, eq_comm]

theorem uniformResize?_eq_some_iff : n.uniformResize? = some m ↔
    ∃ xs f, n.KnownScales xs ∧ upsampleFactor xs = some f ∧
      m = { n with
        opType := "UpSampling2D"
        attrs := Entries.setAll n.attrs [("scaleFactor", .float f),
          ("interpolation", .str ((n.attrs.str? "mode").getD "nearest"))] } := by
  simp only [uniformResize?, Option.map_eq_some_iff, Option.bind_eq_some_iff, scales?_eq_some_iff]
  constructor
  · rintro ⟨f, ⟨xs, hxs, hf⟩, rfl⟩
    exact ⟨xs, f, hxs, hf, rfl⟩
  · rintro ⟨xs, f, hxs, hf, rfl⟩
    exact ⟨f, ⟨xs, hxs, hf⟩, rfl⟩

/-- **Reclassification changes a node if there is a reason**, and as the reason says. -/
theorem reclassified?_eq_some_iff : n.reclassified? format = some m ↔
    ∃ op changes, n.NewOperator (fun xs f => upsampleFactor xs = some f) format op changes ∧
      m = { n with opType := op, attrs := Entries.setAll n.attrs changes } := by
  constructor
  · intro h
    cases format with
    | onnx =>
      simp only [reclassified?] at h
      split at h
      · next hop =>
        obtain ⟨k, hgroup, hseveral, rfl⟩ := groupedConv?_eq_some_iff.mp h
        exact ⟨_, _, .depthwise hop hgroup hseveral, rfl⟩
      · split at h
        · next hop =>
          rw [Bool.or_eq_true, decide_eq_true_eq, decide_eq_true_eq] at hop
          obtain ⟨xs, f, hxs, hf, rfl⟩ := uniformResize?_eq_some_iff.mp h
          exact ⟨_, _, .upsampling hop hxs hf, rfl⟩
        · split at h
          · next hop => exact ⟨_, _, .averagePool hop, (Option.some.inj h).symm⟩
          · cases h
    | keras =>
      simp only [reclassified?] at h
      split at h
      · next hop => exact ⟨_, _, .averagePooling hop, (Option.some.inj h).symm⟩
      · cases h
  · rintro ⟨op, changes, h, rfl⟩
    cases h with
    | depthwise hop hgroup hseveral =>
      rw [reclassified?, if_pos hop]
      exact groupedConv?_eq_some_iff.mpr ⟨_, hgroup, hseveral, rfl⟩
    | upsampling hop hxs hf =>
      have hconv : n.opType ≠ "Conv" := by rcases hop with hop | hop <;> simp [hop]
      rw [reclassified?, if_neg hconv, if_pos (by simpa using hop)]
      exact uniformResize?_eq_some_iff.mpr ⟨_, _, hxs, hf, rfl⟩
    | averagePool hop => simp [reclassified?, hop, globalPool, Entries.setAll]
    | averagePooling hop => simp [reclassified?, hop, globalPool, Entries.setAll]

theorem reclassified?_eq_none (h : n.opType ∈ reclassifiedOps) :
    n.reclassified? format = none := by
  refine Option.eq_none_iff_forall_not_mem.mpr fun m hm => ?_
  obtain ⟨op, changes, hreason, -⟩ := reclassified?_eq_some_iff.mp hm
  exact hreason.not_mem h

/-- **Reclassification changes the operator and the attributes** of a node and nothing else. -/
theorem exists_of_reclassified? (h : n.reclassified? format = some m) :
    ∃ op ∈ reclassifiedOps, ∃ attrs, m = { n with opType := op, attrs := attrs } := by
  obtain ⟨op, changes, hreason, rfl⟩ := reclassified?_eq_some_iff.mp h
  exact ⟨op, hreason.mem, _, rfl⟩

/-! ### The node afterwards -/

/-- The node under the operator of its family. -/
def reclassify (n : Node) (format : ModelFormat) : Node := (n.reclassified? format).getD n

/-- What does not depend on the operator and the attributes stays. -/
theorem reclassify_frame {β : Type} {p : Node → β}
    (hp : ∀ (n : Node) op attrs, p { n with opType := op, attrs := attrs } = p n) (n : Node)
    (format : ModelFormat) : p (n.reclassify format) = p n := by
  rw [reclassify]
  cases h : n.reclassified? format with
  | none => rfl
  | some m =>
    obtain ⟨op, -, attrs, rfl⟩ := exists_of_reclassified? h
    exact hp n op attrs

@[simp] theorem reclassify_name (n : Node) (format : ModelFormat) :
    (n.reclassify format).name = n.name :=
  reclassify_frame (fun _ _ _ => rfl) n format

@[simp] theorem reclassify_inputs (n : Node) (format : ModelFormat) :
    (n.reclassify format).inputs = n.inputs :=
  reclassify_frame (p := inputs) (fun _ _ _ => rfl) n format

@[simp] theorem reclassify_deleted (n : Node) (format : ModelFormat) :
    (n.reclassify format).deleted = n.deleted :=
  reclassify_frame (fun _ _ _ => rfl) n format

@[simp] theorem reclassify_absorbed (n : Node) (format : ModelFormat) :
    (n.reclassify format).absorbed = n.absorbed :=
  reclassify_frame (fun _ _ _ => rfl) n format

/-- A node has its operator still, or one that reclassification gives. -/
theorem reclassify_opType (n : Node) (format : ModelFormat) :
    (n.reclassify format).opType = n.opType ∨ (n.reclassify format).opType ∈ reclassifiedOps := by
  rw [reclassify]
  cases h : n.reclassified? format with
  | none => exact Or.inl rfl
  | some m =>
    obtain ⟨op, hop, attrs, rfl⟩ := exists_of_reclassified? h
    exact Or.inr hop

end Node

namespace Graph

variable {g : Graph} {i : Nat} {n : Node} {x : String} {format : ModelFormat}

theorem node?_reclassify : (g.reclassify format).node? i =
    (g.node? i).map fun n => if n.deleted then n else n.reclassify format :=
  List.getElem?_map

theorem liveAt_reclassify :
    (g.reclassify format).LiveAt i n ↔ ∃ m, g.LiveAt i m ∧ n = m.reclassify format := by
  simp only [LiveAt, node?_reclassify, Option.map_eq_some_iff]
  constructor
  · rintro ⟨⟨m, hm, rfl⟩, hd⟩
    cases hdel : m.deleted with
    | true => simp [hdel] at hd
    | false => exact ⟨m, ⟨hm, hdel⟩, by simp⟩
  · rintro ⟨m, ⟨hm, hd⟩, rfl⟩
    exact ⟨⟨m, hm, by simp [hd]⟩, by simp [hd]⟩

theorem names_reclassify (g : Graph) (format : ModelFormat) :
    (g.reclassify format).nodes.map Node.name = g.nodes.map Node.name := by
  rw [reclassify, List.map_map]
  refine List.map_congr_left fun n _ => ?_
  simp only [Function.comp]
  split
  · rfl
  · exact n.reclassify_name format

/-- What holds whatever the operator and the attributes are holds of all nodes. -/
theorem forall_mem_reclassify {P : Node → Prop} (hP : ∀ n, P n → P (n.reclassify format))
    (h : ∀ n ∈ g.nodes, P n) : ∀ n ∈ (g.reclassify format).nodes, P n := by
  intro n hn
  obtain ⟨m, hm, rfl⟩ := List.mem_map.mp hn
  split
  · exact h m hm
  · exact hP m (h m hm)

theorem Feeds.reclassify (h : g.Feeds i x) : (g.reclassify format).Feeds i x := by
  obtain ⟨j, m, hj, hm, hx⟩ := h
  exact ⟨j, _, hj, liveAt_reclassify.mpr ⟨m, hm, rfl⟩, (m.reclassify_name format).trans hx⟩

theorem Distinct.reclassify (h : g.Distinct) : (g.reclassify format).Distinct :=
  h.congr (names_reclassify g format)

/-- **Reclassification keeps a graph ordered.** -/
theorem Ordered.reclassify (h : g.Ordered) : (g.reclassify format).Ordered where
  distinct := h.distinct.reclassify
  earlier := by
    intro i n hn x hx
    obtain ⟨m, hm, rfl⟩ := liveAt_reclassify.mp hn
    rw [Node.reclassify_inputs] at hx
    exact (h.earlier i m hm x hx).reclassify

end Graph

end LayerGraph
