import LayerGraph.Proofs.Fields
import LayerGraph.Proofs.Ledger

/-!
# The standard policy

The standard policy is a finite table, and what it promises is checked entry by entry. What it
lets absorb can tell so: a target's record has the fields for what the target absorbs
(`LayerGraph.Family.tells`). No target is ever absorbed itself, nor is one a dropout, so the
ledger of a fusion stays balanced (`LayerGraph.FusionContext.terminal_standard`).
-/

namespace LayerGraph

variable {format : ModelFormat} {op target : String}

/-- What a policy allows stands in its table. -/
theorem FusionPolicy.exists_rule_of_allows {p : FusionPolicy}
    (h : p.allows format op target = true) :
    ∃ r, (op, r) ∈ p.rules format ∧ target ∈ r.fusibleWith := by
  rw [allows] at h
  split at h
  · next r hr =>
    rw [FusionRule.fusesInto, Bool.and_eq_true, List.contains_iff_mem] at h
    exact ⟨r, Entries.mem_of_value? hr, h.2⟩
  · cases h

/-- Among the families, built in without custom objects. -/
theorem Family.resolve_eq_ok_iff {family : Family} :
    Family.resolve format {} op = .ok family ↔ Family.ofOp? format op = some family := by
  rw [resolve]
  cases h : ofOp? format op with
  | none => simp [CustomObjects.layer?, Entries.value?]
  | some f => simp

/-- **The record of the target tells what it absorbed** from a node of the operator: any activation
or batch normalization, but a matrix product has no place for a parameter. -/
def Family.tells (format : ModelFormat) (op target : String) : Bool :=
  match ofOp? format target with
  | some family =>
    family.carriesActivation &&
      (ofOp? format op != some .batchNorm || family.carriesNorm) &&
      (family != .gemm || format = .onnx && op != "LeakyRelu")
  | none => false

/-- **The standard policy allows only targets that tell.** -/
theorem FusionPolicy.tells_of_allows_standard
    (h : FusionPolicy.standard.allows format op target = true) :
    Family.tells format op target = true := by
  obtain ⟨r, hr, ht⟩ := exists_rule_of_allows h
  -- the table is finite, so it is checked entry by entry
  have htable : ∀ e ∈ standard.rules format, ∀ t ∈ e.2.fusibleWith,
      Family.tells format e.1 t = true := by
    cases format <;> decide
  exact htable (op, r) hr target ht

/-- What telling means for the family of the target. -/
theorem FusionPolicy.carries_of_allows_standard {family : Family}
    (h : FusionPolicy.standard.allows format op target = true)
    (hf : Family.ofOp? format target = some family) :
    family.carriesActivation = true ∧
      (Family.ofOp? format op = some .batchNorm → family.carriesNorm = true) ∧
      (family = .gemm → format = .onnx ∧ op ≠ "LeakyRelu") := by
  have ht := tells_of_allows_standard h
  simp only [Family.tells, hf, Bool.and_eq_true, Bool.or_eq_true, bne_iff_ne,
    decide_eq_true_eq] at ht
  exact ⟨ht.1.1, fun hop => ht.1.2.resolve_left fun hne => hne hop,
    fun hg => ht.2.resolve_left fun hne => hne hg⟩

/-- No built-in family is one that custom objects describe. -/
theorem Family.isCustom_of_ofOp? {family : Family} (h : ofOp? format op = some family) :
    family.isCustom = false := by
  cases format with
  | keras =>
    replace h : ofKerasOp? op = some family := h
    unfold ofKerasOp? at h
    split at h <;> cases h <;> rfl
  | onnx =>
    replace h : ofOnnxOp? op = some family := h
    unfold ofOnnxOp? at h
    split at h <;> cases h <;> rfl

/-- **Under the standard policy what absorbs never leaves.** -/
theorem FusionContext.terminal_standard (format : ModelFormat) :
    FusionContext.Terminal ⟨format, .standard, {}⟩ := by
  intro op target h
  obtain ⟨r, hr, ht⟩ := FusionPolicy.exists_rule_of_allows h
  have htable : ∀ e ∈ FusionPolicy.standard.rules format, ∀ t ∈ e.2.fusibleWith,
      FusionPolicy.standard.rule? format t = none ∧ Family.ofOp? format t ≠ some .dropout := by
    cases format <;> decide
  obtain ⟨hnone, hdrop⟩ := htable (op, r) hr target ht
  refine ⟨fun op' => ?_, fun hf => hdrop (Family.resolve_eq_ok_iff.mp hf)⟩
  rw [FusionPolicy.allows, hnone]

/-- Among operators with positional operands there is one matrix product. -/
theorem Family.eq_gemm_of_onnx {family : Family} (h : ofOp? .onnx op = some family)
    (hf : family = .dense ∨ family = .gemm) : family = .gemm ∧ op = "Gemm" := by
  replace h : ofOnnxOp? op = some family := h
  unfold ofOnnxOp? at h
  split at h <;> cases h <;> simp_all

end LayerGraph
