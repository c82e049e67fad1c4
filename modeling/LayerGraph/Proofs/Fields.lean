import LayerGraph.Proofs.Entries
import LayerGraph.Proofs.Layer

/-!
# Which fields tell what was absorbed

A record is filled from a list of pairs, and of several pairs of one key the last counts
(`LayerGraph.Record.field?_fill`). With this the fields of the layers that can absorb something
are read off: the name of the absorbed activation and its parameter, and the name of the absorbed
batch normalization, whose own data go into the weights. Layers that cannot absorb anything have
none of these fields.
-/

namespace LayerGraph

/-! ### Filling a record -/

/-- The value that the last pair of a key has for it. -/
def lastField? (key : String) : List (String × Option Json) → Option Json
  | [] => none
  | (k, v) :: ps => (lastField? key ps).or (if k = key then v else none)

theorem lastField?_append (key : String) (ps qs : List (String × Option Json)) :
    lastField? key (ps ++ qs) = (lastField? key qs).or (lastField? key ps) := by
  induction ps with
  | nil => simp [lastField?]
  | cons p ps ih =>
    obtain ⟨k, v⟩ := p
    rw [List.cons_append, lastField?, ih, lastField?, Option.or_assoc]

theorem lastField?_of_not_mem {key : String} {ps : List (String × Option Json)}
    (h : key ∉ ps.map Prod.fst) : lastField? key ps = none := by
  induction ps with
  | nil => rfl
  | cons p ps ih =>
    rw [List.map_cons, List.mem_cons, not_or] at h
    rw [lastField?, ih h.2, if_neg (Ne.symm h.1)]
    rfl

theorem Entries.value?_set? {α : Type} (es : Entries α) (k : String) (v : Option α) (key : String) :
    (es.set? k v).value? key = (if k = key then v else none).or (es.value? key) := by
  cases v with
  | none => simp [Entries.set?]
  | some v =>
    rw [Entries.set?, Entries.value?_set]
    split <;> rfl

namespace Record

/-- The value of a field. -/
def field? (r : Record) (key : String) : Option Json := Entries.value? r.fields key

/-- The text of a field. -/
def text? (r : Record) (key : String) : Option String := (r.field? key).bind Json.str?

/-- **Of several pairs of one key the last counts.** -/
theorem field?_fill (r : Record) (ps : List (String × Option Json)) (key : String) :
    (r.fill ps).field? key = (lastField? key ps).or (r.field? key) := by
  rw [field?, field?, fill]
  -- the fields that are there before vary in the induction
  generalize r.fields = es
  induction ps generalizing es with
  | nil => rfl
  | cons p ps ih =>
    obtain ⟨k, v⟩ := p
    rw [List.foldl_cons, ih, Entries.value?_set?, lastField?, Option.or_assoc]

/-- A record that is filled from nothing. -/
@[simp] theorem field?_record_fill (n : Node) (type : String) (ps : List (String × Option Json))
    (key : String) : ((n.record type).fill ps).field? key = lastField? key ps := by
  rw [field?_fill]
  exact Option.or_none

end Record

/-! ### What the layers that absorb write -/

section Absorbed

variable (n : Node) (own : Option String)

/-- **The fields for what was absorbed** name the nodes that it came from. -/
theorem lastField?_absorbedFields_act_name :
    lastField? "act_name" (n.absorbedFields own) =
      n.absorbed.activation.map fun a => .str a.source := by
  cases h : n.absorbed.activation <;> simp [Node.absorbedFields, h, lastField?]

theorem lastField?_absorbedFields_bn_name :
    lastField? "bn_name" (n.absorbedFields own) = n.absorbed.norm.map fun p => .str p.source := by
  cases h : n.absorbed.activation <;> simp [Node.absorbedFields, h, lastField?]

theorem lastField?_absorbedFields_activation {a : ActivationPart}
    (h : n.absorbed.activation = some a) :
    lastField? "activation" (n.absorbedFields own) = some (.str a.name) := by
  simp [Node.absorbedFields, h, lastField?]

theorem lastField?_absorbedFields_alpha :
    lastField? "alpha" (n.absorbedFields own) =
      n.absorbed.activation.bind fun a => a.alpha.map Json.ofSingle := by
  cases h : n.absorbed.activation <;> simp [Node.absorbedFields, h, lastField?]

end Absorbed

namespace ConvLayer

theorem field?_record (l : ConvLayer) (n : Node) (key : String) :
    (l.record n).field? key = lastField? key (l.fields ++ n.absorbedFields l.activation) :=
  Record.field?_record_fill n _ _ key

end ConvLayer

namespace DenseLayer

theorem field?_record (l : DenseLayer) (n : Node) (key : String) :
    (l.record n).field? key = lastField? key (l.fields ++ n.absorbedFields l.activation) :=
  Record.field?_record_fill n _ _ key

end DenseLayer

theorem Node.field?_elementwiseRecord (n : Node) (type key : String) :
    (n.elementwiseRecord type).field? key = lastField? key
      [("activation", n.absorbed.activation.map fun a => .str a.name),
        ("alpha", (n.absorbed.activation.bind (·.alpha)).map Json.ofSingle),
        ("act_name", n.absorbed.activation.map fun a => .str a.source)] :=
  Record.field?_record_fill n _ _ key

namespace Layer

/-- The layers whose records tell which activation was absorbed. -/
def carriesActivation : Layer → Bool
  | .conv _ | .dense _ | .add | .multiply => true
  | _ => false

/-- The layers whose records tell which batch normalization was absorbed. -/
def carriesNorm : Layer → Bool
  | .conv _ | .dense _ => true
  | _ => false

/-- A layer that custom objects describe. -/
def isCustom : Layer → Bool
  | .custom _ _ => true
  | _ => false

variable {l : Layer} {n : Node} {a : ActivationPart}

/-- A layer that absorbs nothing says of nothing that it absorbed it. -/
theorem field?_eq_none (hl : l.isCustom = false) (hc : l.carriesActivation = false) {key : String}
    (hkey : key = "act_name" ∨ key = "bn_name") : (l.record n).field? key = none := by
  cases l with
  | conv l => cases hc
  | dense l => cases hc
  | add => cases hc
  | multiply => cases hc
  | custom d fields => cases hl
  | flatten => rfl
  | calculate => rfl
  | _ =>
    -- the keys of all other layers are a list without these two
    refine (Record.field?_record_fill n _ _ key).trans (lastField?_of_not_mem ?_)
    rcases hkey with rfl | rfl <;> simp

/-- **The name of the absorbed activation** stands in the record, and nothing else does there. -/
theorem field?_act_name (hl : l.isCustom = false)
    (h : l.carriesActivation = true ∨ n.absorbed.activation = none) :
    (l.record n).field? "act_name" = n.absorbed.activation.map fun a => .str a.source := by
  cases l with
  | conv l =>
    have hnot : "act_name" ∉ l.fields.map Prod.fst := by simp [ConvLayer.fields]
    rw [record, ConvLayer.field?_record, lastField?_append, lastField?_absorbedFields_act_name,
      lastField?_of_not_mem hnot, Option.or_none]
  | dense l =>
    have hnot : "act_name" ∉ l.fields.map Prod.fst := by
      cases h : l.gemm <;> simp [DenseLayer.fields, DenseLayer.scalings, h]
    rw [record, DenseLayer.field?_record, lastField?_append, lastField?_absorbedFields_act_name,
      lastField?_of_not_mem hnot, Option.or_none]
  | add => simp [record, Node.field?_elementwiseRecord, lastField?]
  | multiply => simp [record, Node.field?_elementwiseRecord, lastField?]
  | custom d fields => cases hl
  | _ =>
    have hnone : n.absorbed.activation = none := h.resolve_left (by simp [carriesActivation])
    rw [hnone]
    exact field?_eq_none rfl rfl (Or.inl rfl)

/-- **The name of the absorbed batch normalization** stands in the record, and nothing else does
there. -/
theorem field?_bn_name (hl : l.isCustom = false)
    (h : l.carriesNorm = true ∨ n.absorbed.norm = none) :
    (l.record n).field? "bn_name" = n.absorbed.norm.map fun p => .str p.source := by
  cases l with
  | conv l =>
    have hnot : "bn_name" ∉ l.fields.map Prod.fst := by simp [ConvLayer.fields]
    rw [record, ConvLayer.field?_record, lastField?_append, lastField?_absorbedFields_bn_name,
      lastField?_of_not_mem hnot, Option.or_none]
  | dense l =>
    have hnot : "bn_name" ∉ l.fields.map Prod.fst := by
      cases h : l.gemm <;> simp [DenseLayer.fields, DenseLayer.scalings, h]
    rw [record, DenseLayer.field?_record, lastField?_append, lastField?_absorbedFields_bn_name,
      lastField?_of_not_mem hnot, Option.or_none]
  | add =>
    have hnone : n.absorbed.norm = none := h.resolve_left (by simp [carriesNorm])
    simp [record, Node.field?_elementwiseRecord, lastField?, hnone]
  | multiply =>
    have hnone : n.absorbed.norm = none := h.resolve_left (by simp [carriesNorm])
    simp [record, Node.field?_elementwiseRecord, lastField?, hnone]
  | custom d fields => cases hl
  | _ =>
    have hnone : n.absorbed.norm = none := h.resolve_left (by simp [carriesNorm])
    rw [hnone]
    exact field?_eq_none rfl rfl (Or.inr rfl)

/-- The canonical name of the absorbed activation takes the place of the layer's own. -/
theorem field?_activation (hl : l.carriesActivation = true) (ha : n.absorbed.activation = some a) :
    (l.record n).field? "activation" = some (.str a.name) := by
  cases l with
  | conv l =>
    rw [record, ConvLayer.field?_record, lastField?_append,
      lastField?_absorbedFields_activation n _ ha, Option.some_or]
  | dense l =>
    rw [record, DenseLayer.field?_record, lastField?_append,
      lastField?_absorbedFields_activation n _ ha, Option.some_or]
  | add => simp [record, Node.field?_elementwiseRecord, lastField?, ha]
  | multiply => simp [record, Node.field?_elementwiseRecord, lastField?, ha]
  | _ => cases hl

/-- A matrix product writes the parameter of the absorbed activation, or else its own scaling. -/
theorem field?_dense_alpha (d : DenseLayer) (n : Node) :
    ((dense d).record n).field? "alpha" =
      (n.absorbed.activation.bind fun a => a.alpha.map Json.ofSingle).or
        (if d.gemm then d.alpha.map Json.ofSingle else none) := by
  rw [record, DenseLayer.field?_record, lastField?_append, lastField?_absorbedFields_alpha]
  cases h : d.gemm <;> simp [DenseLayer.fields, DenseLayer.scalings, h, lastField?]

theorem field?_alpha {x : Single} (hl : l.carriesActivation = true)
    (ha : n.absorbed.activation = some a) (hx : a.alpha = some x) :
    (l.record n).field? "alpha" = some (Json.ofSingle x) := by
  cases l with
  | conv l =>
    rw [record, ConvLayer.field?_record, lastField?_append, lastField?_absorbedFields_alpha, ha]
    simp [hx]
  | dense d =>
    rw [field?_dense_alpha, ha]
    simp [hx]
  | add => simp [record, Node.field?_elementwiseRecord, lastField?, ha, hx]
  | multiply => simp [record, Node.field?_elementwiseRecord, lastField?, ha, hx]
  | _ => cases hl

/-- **The data of the absorbed batch normalization** are written as they are. -/
theorem norm_record (hl : l.carriesNorm = true) :
    (l.record n).norm = n.absorbed.norm.map NormPart.params := by
  cases l with
  | conv l => rfl
  | dense l => rfl
  | _ => cases hl

/-- Only a matrix product with scalings of its own is written as one. -/
theorem exists_dense_of_type (hl : l.isCustom = false) (h : (l.record n).type = "Gemm") :
    ∃ d, l = .dense d ∧ d.gemm = true := by
  rw [record_type] at h
  cases l with
  | dense d =>
    refine ⟨d, rfl, ?_⟩
    cases hd : d.gemm with
    | true => rfl
    | false => simp [recordType, hd] at h
  | conv l => cases hk : l.kind <;> simp [recordType, ConvKind.recordType, hk] at h
  | pool l => cases hk : l.kind <;> simp [recordType, PoolKind.recordType, hk] at h
  | custom d fields => cases hl
  | _ => simp [recordType] at h

end Layer

/-! ### Which families absorb -/

namespace Family

/-- The families whose records tell which activation was absorbed. -/
def carriesActivation : Family → Bool
  | .conv | .depthwiseConv | .transposedConv | .dense | .gemm | .add | .multiply => true
  | _ => false

/-- The families whose records tell which batch normalization was absorbed. -/
def carriesNorm : Family → Bool
  | .conv | .depthwiseConv | .transposedConv | .dense | .gemm => true
  | _ => false

/-- The families that custom objects describe. -/
def isCustom : Family → Bool
  | .custom _ => true
  | _ => false

end Family

variable {cx : LayerContext} {family : Family} {n : Node} {l : Layer}

/-- **A layer absorbs what its family absorbs.** -/
theorem Layer.carries_of_read (h : Layer.read cx family n = .ok l) :
    l.carriesActivation = family.carriesActivation ∧ l.carriesNorm = family.carriesNorm ∧
      l.isCustom = family.isCustom := by
  cases family with
  | conv | depthwiseConv | transposedConv | dense | gemm | batchNorm =>
    obtain ⟨_, -, rfl⟩ := exists_ok_of_map h
    exact ⟨rfl, rfl, rfl⟩
  | sequential | dropout => cases h
  | _ =>
    obtain rfl := Except.ok.inj h
    exact ⟨rfl, rfl, rfl⟩

/-- A matrix product with scalings of its own is read from a model with positional operands, and
its scaling is that of its node. -/
theorem DenseLayer.of_read {d : DenseLayer} (h : DenseLayer.read cx n = .ok d)
    (hg : d.gemm = true) : cx.format = .onnx ∧ d.alpha = n.attrs.float? "alpha" := by
  rw [read] at h
  split at h
  · rw [readKeras] at h
    split at h
    · cases h
    · split at h
      · cases h
      · obtain rfl := Except.ok.inj h
        cases hg
  · next hf =>
    rw [readOnnx] at h
    split at h
    · cases h
    · split at h
      · obtain rfl := Except.ok.inj h
        exact ⟨hf, rfl⟩
      · cases h

/-- Only these families are read as matrix products. -/
theorem Layer.of_read_dense {d : DenseLayer} (h : Layer.read cx family n = .ok (.dense d)) :
    (family = .dense ∨ family = .gemm) ∧ DenseLayer.read cx n = .ok d := by
  cases family with
  | dense =>
    obtain ⟨d', hd', heq⟩ := exists_ok_of_map h
    exact ⟨Or.inl rfl, Layer.dense.inj heq ▸ hd'⟩
  | gemm =>
    obtain ⟨d', hd', heq⟩ := exists_ok_of_map h
    exact ⟨Or.inr rfl, Layer.dense.inj heq ▸ hd'⟩
  | conv | depthwiseConv | transposedConv | batchNorm =>
    obtain ⟨_, -, heq⟩ := exists_ok_of_map h
    cases heq
  | _ => cases h

end LayerGraph
