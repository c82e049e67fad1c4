import LayerGraph.Layer
import LayerGraph.Proofs.Visit

/-!
# What a layer takes over from its node

Whatever the family, the record of a layer bears the name of its node and lists its operands
(`LayerGraph.Layer.record_name`, `LayerGraph.Layer.record_inbounds`). A family that has layers
fails to read one only because of the node it reads
(`LayerGraph.Layer.exists_invalidLayer_of_read`); a layer with a kernel that was read has one.
-/

namespace LayerGraph

/-! ### Results that are read on -/

section Mapped

variable {α β : Type} {f : α → β} {r : Except ConvertError α}

theorem exists_ok_of_map {b : β} (h : r.map f = .ok b) : ∃ a, r = .ok a ∧ f a = b := by
  cases r with
  | error e => cases h
  | ok a => exact ⟨a, rfl, Except.ok.inj h⟩

theorem eq_error_of_map {e : ConvertError} (h : r.map f = .error e) : r = .error e := by
  cases r with
  | error e' =>
    cases h
    rfl
  | ok a => cases h

theorem exists_ok_of_isSome (h : r.toOption.isSome = true) : ∃ a, r = .ok a := by
  cases r with
  | error e => cases h
  | ok a => exact ⟨a, rfl⟩

theorem exists_ok_of_toOption_map {b : β} (h : r.toOption.map f = some b) :
    ∃ a, r = .ok a ∧ f a = b := by
  cases r with
  | error e => cases h
  | ok a => exact ⟨a, rfl, Option.some.inj h⟩

end Mapped

namespace Layer

/-! ### Records -/

/-- **The record of a layer bears the name of its node.** -/
@[simp] theorem record_name (l : Layer) (n : Node) : (l.record n).name = n.name := by
  cases l <;> rfl

/-- **The record of a layer lists the operands of its node.** -/
@[simp] theorem record_inbounds (l : Layer) (n : Node) : (l.record n).inbounds = n.inputs := by
  cases l <;> rfl

/-- The type that a layer is written under. -/
def recordType : Layer → String
  | .input _ => "InputLayer"
  | .conv l => l.kind.recordType
  | .dense l => if l.gemm then "Gemm" else "Dense"
  | .pool l => l.kind.recordType
  | .norm _ => "BatchNormalization"
  | .activation _ => "Activation"
  | .add => "Add"
  | .multiply => "Multiply"
  | .concatenate _ => "Concatenate"
  | .flatten => "Flatten"
  | .reshape _ => "Reshape"
  | .pad _ => "Pad"
  | .zeroPad _ => "ZeroPadding2D"
  | .upSample _ => "UpSampling2D"
  | .calculate => "Calculate"
  | .custom l _ => l.recordType

@[simp] theorem record_type (l : Layer) (n : Node) : (l.record n).type = l.recordType := by
  cases l <;> rfl

/-! ### Reading fails for the node's sake -/

variable {cx : LayerContext} {n : Node} {family : Family} {e : ConvertError}

theorem exists_invalidLayer_of_readConv {kind : ConvKind}
    (h : ConvLayer.read cx kind n = .error e) : ∃ fault, e = .invalidLayer n.name fault := by
  rw [ConvLayer.read] at h
  split at h
  · rw [ConvLayer.readKeras] at h
    split at h
    · cases h
      exact ⟨_, rfl⟩
    · split at h
      · cases h
        exact ⟨_, rfl⟩
      · cases h
  · rw [ConvLayer.readOnnx] at h
    split at h
    · cases h
      exact ⟨_, rfl⟩
    · split at h
      · cases h
      · cases h
        exact ⟨_, rfl⟩

theorem exists_invalidLayer_of_readDense (h : DenseLayer.read cx n = .error e) :
    ∃ fault, e = .invalidLayer n.name fault := by
  rw [DenseLayer.read] at h
  split at h
  · rw [DenseLayer.readKeras] at h
    split at h
    · cases h
      exact ⟨_, rfl⟩
    · split at h
      · cases h
        exact ⟨_, rfl⟩
      · cases h
  · rw [DenseLayer.readOnnx] at h
    split at h
    · cases h
      exact ⟨_, rfl⟩
    · split at h
      · cases h
      · cases h
        exact ⟨_, rfl⟩

/-- **A layer cannot be read only because of its node**, containers and dropouts apart. -/
theorem exists_invalidLayer_of_read (h : Layer.read cx family n = .error e)
    (hseq : family ≠ .sequential) (hdrop : family ≠ .dropout) :
    ∃ fault, e = .invalidLayer n.name fault := by
  cases family with
  | sequential => exact absurd rfl hseq
  | dropout => exact absurd rfl hdrop
  | conv => exact exists_invalidLayer_of_readConv (eq_error_of_map h)
  | depthwiseConv => exact exists_invalidLayer_of_readConv (eq_error_of_map h)
  | transposedConv => exact exists_invalidLayer_of_readConv (eq_error_of_map h)
  | dense => exact exists_invalidLayer_of_readDense (eq_error_of_map h)
  | gemm => exact exists_invalidLayer_of_readDense (eq_error_of_map h)
  | batchNorm => exact Node.exists_invalidLayer_of_normPart (eq_error_of_map h)
  | _ => cases h

end Layer

/-! ### What was read of a kernel -/

/-- A convolution that was read has a kernel, and declares what the attribute says. -/
theorem ConvLayer.of_readKeras {kind : ConvKind} {n : Node} {l : ConvLayer}
    (h : readKeras kind n = .ok l) :
    l.weights.isSome ∧ l.activation = n.attrs.str? "activation" := by
  rw [readKeras] at h
  split at h
  · cases h
  · split at h
    · cases h
    · obtain rfl := Except.ok.inj h
      exact ⟨rfl, rfl⟩

theorem ConvLayer.isSome_weights_of_read {cx : LayerContext} {kind : ConvKind} {n : Node}
    {l : ConvLayer} (h : read cx kind n = .ok l) : l.weights.isSome := by
  rw [read] at h
  split at h
  · exact (of_readKeras h).1
  · rw [readOnnx] at h
    split at h
    · cases h
    · split at h
      · obtain rfl := Except.ok.inj h
        rfl
      · cases h

/-- A matrix product that was read has a kernel, and declares what the attribute says. -/
theorem DenseLayer.of_readKeras {n : Node} {l : DenseLayer} (h : readKeras n = .ok l) :
    l.weights.isSome ∧ l.activation = n.attrs.str? "activation" := by
  rw [readKeras] at h
  split at h
  · cases h
  · split at h
    · cases h
    · obtain rfl := Except.ok.inj h
      exact ⟨rfl, rfl⟩

theorem DenseLayer.isSome_weights_of_read {cx : LayerContext} {n : Node} {l : DenseLayer}
    (h : read cx n = .ok l) : l.weights.isSome := by
  rw [read] at h
  split at h
  · exact (of_readKeras h).1
  · rw [readOnnx] at h
    split at h
    · cases h
    · split at h
      · obtain rfl := Except.ok.inj h
        rfl
      · cases h

end LayerGraph
