import LayerGraph.Proofs.Reclassify
import LayerGraph.Proofs.Upsampling
import Mathlib.Data.List.Sort

/-!
# Which nodes get another operator

Reclassification gives another operator to those live nodes for which there is a reason, and the
reasons are those of `LayerGraph.Node.NewOperator`: several groups, a common factor of the known
scales, or pooling over everything. What becomes of such a node is its new operator and some
attributes that are set; all else stays, the other attributes included
(`LayerGraph.Graph.reclassify_exact`).

None of the new operators gives a reason again, so reclassifying twice is the same as reclassifying
once.
-/

namespace LayerGraph

/-! ### Attributes that are set -/

namespace Entries

variable {α : Type} {pairs : List (String × α)}

/-- **One list of entries is another one with some values set**: these names have these values, and
without them the two lists are the same. -/
structure Updated (before : Entries α) (changes : List (String × α)) (after : Entries α) :
    Prop where
  value : ∀ key, after.value? key = (Entries.value? changes key).or (before.value? key)
  others : after.filter (fun e => e.1 ∉ changes.map Prod.fst) =
    before.filter fun e => e.1 ∉ changes.map Prod.fst

theorem updated_setAll (h : (pairs.map Prod.fst).Nodup) (es : Entries α) :
    Updated es pairs (es.setAll pairs) where
  value := value?_setAll h es
  others := by
    refine filter_setAll (p := fun key => key ∉ pairs.map Prod.fst) (fun e he => ?_) es
    rw [decide_eq_false_iff_not, not_not]
    exact List.mem_map_of_mem he

end Entries

namespace Node

variable {n m : Node} {format : ModelFormat}

/-! ### What a node becomes -/

/-- **What a node becomes**: a live one for which there is a reason gets its new operator and some
attributes, and all others stay as they are. -/
inductive Reclassified (accepts : List Single → Single → Prop) (format : ModelFormat) :
    Node → Node → Prop
  | kept {n : Node}
      (h : n.deleted = true ∨ ∀ op changes, ¬ n.NewOperator accepts format op changes) :
      Reclassified accepts format n n
  | changed {n : Node} {op : String} {changes attrs : Attributes} (live : n.deleted = false)
      (reason : n.NewOperator accepts format op changes)
      (updated : Entries.Updated n.attrs changes attrs) :
      Reclassified accepts format n { n with opType := op, attrs := attrs }

/-- **A node is reclassified once.** -/
theorem reclassified?_reclassify (n : Node) (format : ModelFormat) :
    (n.reclassify format).reclassified? format = none := by
  cases h : n.reclassified? format with
  | none => rwa [reclassify, h, Option.getD_none]
  | some m =>
    obtain ⟨op, changes, hreason, rfl⟩ := reclassified?_eq_some_iff.mp h
    rw [reclassify, h, Option.getD_some]
    exact reclassified?_eq_none hreason.mem

/-- A node that is changed has another operator. -/
theorem opType_reclassify_ne_iff :
    (n.reclassify format).opType ≠ n.opType ↔ (n.reclassified? format).isSome := by
  rw [reclassify]
  cases h : n.reclassified? format with
  | none => simp
  | some m =>
    obtain ⟨op, changes, hreason, rfl⟩ := reclassified?_eq_some_iff.mp h
    rw [Option.getD_some]
    exact iff_of_true (fun he : op = n.opType => hreason.not_mem (he ▸ hreason.mem)) rfl

theorem reclassified_reclassify (n : Node) (format : ModelFormat) :
    Reclassified (fun xs f => upsampleFactor xs = some f) format n
      (if n.deleted then n else n.reclassify format) := by
  cases hdel : n.deleted with
  | true => exact .kept (.inl hdel)
  | false =>
    rw [if_neg (by simp), reclassify]
    cases h : n.reclassified? format with
    | none =>
      refine .kept (.inr fun op changes hreason => ?_)
      have hsome := reclassified?_eq_some_iff.mpr ⟨op, changes, hreason, rfl⟩
      cases h.symm.trans hsome
    | some m =>
      obtain ⟨op, changes, hreason, rfl⟩ := reclassified?_eq_some_iff.mp h
      exact .changed hdel hreason (Entries.updated_setAll hreason.nodup n.attrs)

/-- The scales of a resize are finite, where they are known. -/
def FiniteScales (n : Node) : Prop :=
  n.opType = "Resize" ∨ n.opType = "Upsample" →
    ∀ xs, n.KnownScales xs → ∀ x ∈ xs, x.isFinite = true

/-- If the scales are finite, the factors that count are the common ones. -/
theorem Reclassified.hasFactor (hfin : n.FiniteScales)
    (h : Reclassified (fun xs f => upsampleFactor xs = some f) format n m) :
    Reclassified HasFactor format n m := by
  have hiff : ∀ xs f, n.opType = "Resize" ∨ n.opType = "Upsample" → n.KnownScales xs →
      (upsampleFactor xs = some f ↔ HasFactor xs f) := fun xs f hop hxs =>
    upsampleFactor_eq_some_iff (hfin hop xs hxs)
  cases h with
  | kept h =>
    refine .kept (h.imp_right fun hno op changes hreason => hno op changes ?_)
    exact hreason.imp fun xs f hop hxs => (hiff xs f hop hxs).mpr
  | changed live reason updated =>
    exact .changed live (reason.imp fun xs f hop hxs => (hiff xs f hop hxs).mp) updated

end Node

namespace Graph

variable {g : Graph} {format : ModelFormat}

/-- The nodes of another operator are the live ones that are changed. -/
theorem changedOps_reclassify (g : Graph) (format : ModelFormat) :
    g.changedOps (g.reclassify format) =
      g.idsWhere fun n => !n.deleted && (n.reclassified? format).isSome := by
  refine pairwise_changedOps.eq_of_mem_iff (pairwise_idsWhere _) fun i => ?_
  rw [mem_changedOps, mem_idsWhere]
  refine exists_congr fun n => and_congr_right fun hn => ?_
  rw [node?_reclassify, hn, Option.map_some, Option.map_some, ne_eq, Option.some.injEq]
  cases hdel : n.deleted with
  | true => simp
  | false => simpa using Node.opType_reclassify_ne_iff

/-- **The count is that of the nodes of another operator.** -/
theorem reclassifyCount_eq (g : Graph) (format : ModelFormat) :
    g.reclassifyCount format = (g.changedOps (g.reclassify format)).length := by
  rw [changedOps_reclassify, length_idsWhere, reclassifyCount, live, List.countP_filter]
  simp only [Bool.and_comm]

/-- A graph without live nodes to change is left alone. -/
theorem reclassify_of_forall_none
    (h : ∀ n ∈ g.live, n.reclassified? format = none) :
    g.reclassifyCount format = 0 ∧ g.reclassify format = g := by
  constructor
  · refine List.countP_eq_zero.mpr fun n hn => ?_
    rw [h n hn]
    decide
  · refine congrArg Graph.mk ((List.map_congr_left fun n hn => ?_).trans (List.map_id _))
    split
    · rfl
    · next hlive =>
      rw [h n (List.mem_filter.mpr ⟨hn, by simpa using hlive⟩), Option.getD_none]
      rfl

/-- **Reclassification is exact, and doing it twice is doing it once.** It counts the nodes whose
operator changes. Whatever the scales are, a node becomes another one only if it is live and there
is a reason, and then it has the new operator, the attributes that come with it, and all else that
it had; in particular this is so if the factors that count are the common ones, which is what they
are as long as the known scales are finite. -/
theorem reclassify_exact (g : Graph) (format : ModelFormat) :
    g.reclassifyCount format = (g.changedOps (g.reclassify format)).length ∧
    List.Forall₂ (fun n m =>
        Node.Reclassified (fun xs f => upsampleFactor xs = some f) format n m ∧
        (n.FiniteScales → Node.Reclassified HasFactor format n m))
      g.nodes (g.reclassify format).nodes ∧
    (g.reclassify format).reclassifyCount format = 0 ∧
    (g.reclassify format).reclassify format = g.reclassify format := by
  refine ⟨g.reclassifyCount_eq format, ?_, reclassify_of_forall_none fun n hn => ?_⟩
  · refine List.forall₂_map_right_iff.mpr (List.forall₂_same.mpr fun n _ => ?_)
    have hn := n.reclassified_reclassify format
    exact ⟨hn, fun hfin => hn.hasFactor hfin⟩
  · obtain ⟨i, hi⟩ := mem_live.mp hn
    obtain ⟨m, -, rfl⟩ := liveAt_reclassify.mp hi
    exact m.reclassified?_reclassify format

/-- A node for each reason, and one more whose scales are all 1. Of the others, one is a convolution
of one group, one a resize whose scales do not agree, and one is deleted. -/
def familyRow : Graph := ⟨[
  { name := "x", opType := "Input", inbound := some [] },
  { name := "a", opType := "Conv", inbound := some ["x"],
    attrs := [("pads", .ints [0, 0]), ("group", .float (.ofInt 4)), ("strides", .ints [2, 2])] },
  { name := "b", opType := "Conv", inbound := some ["a"] },
  { name := "c", opType := "Resize", inbound := some ["b"],
    attrs := [("mode", .str "linear"), ("operands", .strs ["b", "roi", "sizes"])],
    weights := [("sizes", ⟨[4], [.ofInt 1, .ofInt 1, .ofInt 2, .ofInt 2]⟩)] },
  { name := "d", opType := "Upsample", inbound := some ["c"],
    attrs := [("scales", .floats [.ofInt 1, .ofInt 1])] },
  { name := "e", opType := "Resize", inbound := some ["d"],
    attrs := [("scales", .floats [.ofInt 2, .ofInt 3])] },
  { name := "f", opType := "Conv", inbound := some ["e"], attrs := [("group", .int 2)],
    deleted := true },
  { name := "g", opType := "GlobalAveragePool", inbound := some ["e"] }]⟩

/-- Four operators change, and the others stay. -/
theorem reclassify_familyRow :
    familyRow.reclassifyCount .onnx = 4 ∧
      (familyRow.changedOps (familyRow.reclassify .onnx)).length = 4 ∧
      (familyRow.reclassify .onnx).nodes.map Node.opType =
        ["Input", "DepthwiseConv2D", "Conv", "UpSampling2D", "UpSampling2D", "Resize", "Conv",
          "AveragePool"] ∧
      (∀ n ∈ familyRow.nodes, n.FiniteScales) ∧
      List.Forall₂ (Node.Reclassified HasFactor .onnx) familyRow.nodes
        (familyRow.reclassify .onnx).nodes ∧
      (familyRow.reclassify .onnx).reclassify .onnx = familyRow.reclassify .onnx := by
  have hfin : ∀ n ∈ familyRow.nodes, n.FiniteScales := by
    have hscales : ∀ n ∈ familyRow.nodes, ∀ xs ∈ n.scales?, ∀ x ∈ xs, x.isFinite = true := by
      decide
    exact fun n hn _ xs hxs => hscales n hn xs (Node.scales?_eq_some_iff.mpr hxs)
  have hcount : familyRow.reclassifyCount .onnx = 4 := by decide
  obtain ⟨hchanged, hnodes, -, htwice⟩ := reclassify_exact familyRow .onnx
  refine ⟨hcount, hchanged.symm.trans hcount, by decide, hfin, ?_, htwice⟩
  exact List.forall₂_iff_get.mpr ⟨hnodes.length_eq, fun i h₁ h₂ =>
    ((List.forall₂_iff_get.mp hnodes).2 i h₁ h₂).2 (hfin _ (List.get_mem _ _))⟩

end Graph

end LayerGraph
