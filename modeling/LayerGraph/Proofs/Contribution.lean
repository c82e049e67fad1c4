import LayerGraph.Contribution
import LayerGraph.Proofs.FloatingOrder

/-!
# What a node stands for

An activation has a canonical name, however the model spells it, and a leaky rectifier has a slope
besides. Which name and which slope is said here case by case
(`LayerGraph.Node.CanonicalActivation`): a rectifier that is bounded by six has a name of its own,
and a slope that is not given is 0.3 where weights are known by name and 0.01 where they are known
by position, each rounded to the nearest value. A batch normalization has up to four parameters, and
each of them is the data of one weight of the node (`LayerGraph.Node.CanonicalNorm`).

Nothing of this mentions how a node is read. There is exactly one activation and one list of
parameters to either description, and those are handed over
(`LayerGraph.Node.canonicalActivation_iff`, `LayerGraph.Node.canonicalNorm_iff`).
-/

namespace LayerGraph

namespace Node

/-! ### Canonical activations -/

/-- **The activation that a node stands for**, by its canonical name and with its parameter. -/
inductive CanonicalActivation (n : Node) : ModelFormat → String → Option Single → Prop
  | leakyReLU {x : Single} (op : n.opType = "LeakyReLU") (slope : n.attrs.float? "alpha" = some x) :
      CanonicalActivation n .keras "leakyRelu" (some x)
  | leakyReLUUnset (op : n.opType = "LeakyReLU") (slope : n.attrs.float? "alpha" = none) :
      CanonicalActivation n .keras "leakyRelu" (some (.ofRatio false 3 10))
  | boundedReLU (op : n.opType = "ReLU") (bound : n.attrs.float? "max_value" = some (.ofInt 6)) :
      CanonicalActivation n .keras "relu6" none
  | reLU (op : n.opType = "ReLU") (bound : n.attrs.float? "max_value" ≠ some (.ofInt 6)) :
      CanonicalActivation n .keras "relu" none
  | declared {act : String} (op : n.opType ∉ ["LeakyReLU", "ReLU"])
      (attr : n.attrs.str? "activation" = some act) : CanonicalActivation n .keras act none
  | undeclared (op : n.opType ∉ ["LeakyReLU", "ReLU"])
      (attr : n.attrs.str? "activation" = none) : CanonicalActivation n .keras "linear" none
  | leakyRelu {x : Single} (op : n.opType = "LeakyRelu") (slope : n.attrs.float? "alpha" = some x) :
      CanonicalActivation n .onnx "leakyRelu" (some x)
  | leakyReluUnset (op : n.opType = "LeakyRelu") (slope : n.attrs.float? "alpha" = none) :
      CanonicalActivation n .onnx "leakyRelu" (some (.ofRatio false 1 100))
  | clip (op : n.opType = "Clip") : CanonicalActivation n .onnx "relu6" none
  /-- All other operators are activations by their own name, in lower case. -/
  | lowered {act : String} (op : n.opType ∉ ["LeakyRelu", "Clip"])
      (name : act.toList = n.opType.toList.map Char.toLower) : CanonicalActivation n .onnx act none

theorem kerasLeakyAlpha_eq : kerasLeakyAlpha = .ofRatio false 3 10 := by decide

theorem onnxLeakyAlpha_eq : onnxLeakyAlpha = .ofRatio false 1 100 := by decide

/-- Only one word is numerically equal to six. -/
theorem same_six_iff {x : Single} : x.same (.ofInt 6) = true ↔ x = .ofInt 6 :=
  Floating.same_iff_eq (by decide) (by decide)

variable {n : Node} {format : ModelFormat} {act : String} {alpha : Option Single}
  {p : NormParams}

theorem canonicalActivation_keras (n : Node) :
    n.CanonicalActivation .keras n.kerasActivation.1 n.kerasActivation.2 := by
  unfold kerasActivation
  split
  · next op =>
    cases slope : n.attrs.float? "alpha" with
    | none => exact kerasLeakyAlpha_eq ▸ .leakyReLUUnset op slope
    | some x => exact .leakyReLU op slope
  · next op =>
    -- the bound is compared with six as a number, the description compares words
    split
    · next x bound =>
      split
      · next hsix => exact .boundedReLU op (same_six_iff.mp hsix ▸ bound)
      · next hsix =>
        exact .reLU op fun h => hsix (same_six_iff.mpr (Option.some.inj (bound.symm.trans h)))
    · next bound => exact .reLU op (by simp [bound])
  · next hleaky hrelu =>
    have op : n.opType ∉ ["LeakyReLU", "ReLU"] := by simpa using ⟨hleaky, hrelu⟩
    cases attr : n.attrs.str? "activation" with
    | none => exact .undeclared op attr
    | some act => exact .declared op attr

theorem canonicalActivation_onnx (n : Node) :
    n.CanonicalActivation .onnx n.onnxActivation.1 n.onnxActivation.2 := by
  unfold onnxActivation
  split
  · next op =>
    cases slope : n.attrs.float? "alpha" with
    | none => exact onnxLeakyAlpha_eq ▸ .leakyReluUnset op slope
    | some x => exact .leakyRelu op slope
  · next op => exact .clip op
  · next hleaky hclip => exact .lowered (by simpa using ⟨hleaky, hclip⟩) String.toList_ofList

/-- The node hands over its canonical activation. -/
theorem canonicalActivation_activationPart (n : Node) (format : ModelFormat) :
    n.CanonicalActivation format (n.activationPart format).name (n.activationPart format).alpha := by
  cases format with
  | keras => exact n.canonicalActivation_keras
  | onnx => exact n.canonicalActivation_onnx

/-- A node stands for one activation only. -/
theorem CanonicalActivation.unique {act' : String} {alpha' : Option Single}
    (h : n.CanonicalActivation format act alpha) (h' : n.CanonicalActivation format act' alpha') :
    act = act' ∧ alpha = alpha' := by
  cases h with
  | lowered op name =>
    cases h' with
    | lowered _ name' => exact ⟨String.toList_injective (name.trans name'.symm), rfl⟩
    | _ => simp_all
  | _ => cases h' <;> simp_all

/-- **The canonical activation of a node is what it hands over.** -/
theorem canonicalActivation_iff : n.CanonicalActivation format act alpha ↔
    (n.activationPart format).name = act ∧ (n.activationPart format).alpha = alpha := by
  constructor
  · exact fun h => (n.canonicalActivation_activationPart format).unique h
  · rintro ⟨rfl, rfl⟩
    exact n.canonicalActivation_activationPart format

/-- Only the leaky rectifier has a parameter, in models with positional operands. -/
theorem CanonicalActivation.alpha_eq_none (h : n.CanonicalActivation .onnx act alpha)
    (op : n.opType ≠ "LeakyRelu") : alpha = none := by
  cases h with
  | leakyRelu hop => exact absurd hop op
  | leakyReluUnset hop => exact absurd hop op
  | clip => rfl
  | lowered => rfl

/-! ### The parameters of a batch normalization -/

/-- **The weight of a parameter**: that of its name, or that of the operand at its position. -/
inductive ParameterWeight (n : Node) (key : String) (k : Nat) : ModelFormat → Tensor → Prop
  | named {t : Tensor} (weight : Entries.value? n.weights key = some t) :
      ParameterWeight n key k .keras t
  | positional {operands : List String} {x : String} {t : Tensor}
      (attr : n.attrs.strs? "operands" = some operands) (position : operands[k]? = some x)
      (weight : Entries.value? n.weights x = some t) : ParameterWeight n key k .onnx t

/-- A parameter is the data of its weight, and absent if there is none. -/
def HasParameter (n : Node) (format : ModelFormat) (key : String) (k : Nat)
    (part : Option (List Single)) : Prop :=
  ∀ xs, part = some xs ↔ ∃ t, n.ParameterWeight key k format t ∧ t.data = xs

/-- **The parameters of the batch normalization that a node stands for.** Among the operands they
follow the input. -/
structure CanonicalNorm (n : Node) (format : ModelFormat) (p : NormParams) : Prop where
  gamma : n.HasParameter format "gamma" 1 p.gamma
  beta : n.HasParameter format "beta" 2 p.beta
  mean : n.HasParameter format "moving_mean" 3 p.mean
  variance : n.HasParameter format "moving_variance" 4 p.variance

theorem parameterWeight_keras_iff {key : String} {k : Nat} {t : Tensor} :
    n.ParameterWeight key k .keras t ↔ Entries.value? n.weights key = some t := by
  constructor
  · rintro (weight | _)
    exact weight
  · exact .named

theorem parameterWeight_onnx_iff {key : String} {k : Nat} {t : Tensor} :
    n.ParameterWeight key k .onnx t ↔ n.operandWeight? k = some t := by
  constructor
  · intro h
    cases h with
    | positional attr position weight => simp [operandWeight?, attr, position, weight]
  · intro h
    unfold operandWeight? at h
    split at h
    · next operands attr =>
      obtain ⟨x, position, weight⟩ := Option.bind_eq_some_iff.mp h
      exact .positional attr position weight
    · cases h

theorem hasParameter_of_weight {key : String} {k : Nat} {w : Option Tensor}
    (h : ∀ t, n.ParameterWeight key k format t ↔ w = some t) :
    n.HasParameter format key k (w.map Tensor.data) := by
  intro xs
  simp only [Option.map_eq_some_iff, h]

/-- The node hands over its own data. -/
theorem canonicalNorm_normParams (n : Node) (format : ModelFormat) :
    n.CanonicalNorm format (n.normParams format) := by
  cases format with
  | keras =>
    have hpart (key : String) (k : Nat) :
        n.HasParameter .keras key k ((Entries.value? n.weights key).map Tensor.data) :=
      hasParameter_of_weight fun _ => parameterWeight_keras_iff
    exact ⟨hpart _ _, hpart _ _, hpart _ _, hpart _ _⟩
  | onnx =>
    have hpart (key : String) (k : Nat) :
        n.HasParameter .onnx key k ((n.operandWeight? k).map Tensor.data) :=
      hasParameter_of_weight fun _ => parameterWeight_onnx_iff
    exact ⟨hpart _ _, hpart _ _, hpart _ _, hpart _ _⟩

theorem HasParameter.unique {key : String} {k : Nat} {part part' : Option (List Single)}
    (h : n.HasParameter format key k part) (h' : n.HasParameter format key k part') :
    part = part' :=
  Option.ext fun xs => (h xs).trans (h' xs).symm

/-- A node stands for one list of parameters only. -/
theorem CanonicalNorm.unique {q : NormParams} (h : n.CanonicalNorm format p)
    (h' : n.CanonicalNorm format q) : p = q := by
  cases p
  cases q
  rw [NormParams.mk.injEq]
  exact ⟨h.gamma.unique h'.gamma, h.beta.unique h'.beta, h.mean.unique h'.mean,
    h.variance.unique h'.variance⟩

/-- **The canonical parameters of a batch normalization are what it hands over.** -/
theorem canonicalNorm_iff : n.CanonicalNorm format p ↔ n.normParams format = p := by
  constructor
  · exact fun h => (n.canonicalNorm_normParams format).unique h
  · rintro rfl
    exact n.canonicalNorm_normParams format

/-- The input of a normalization is operand 0, and a name without a weight is a missing part. -/
example : normParams
    { name := "norm", opType := "BatchNormalization",
      attrs := [("operands", .strs ["x", "scale", "", "mean", "variance"])],
      weights := [("mean", ⟨[1], [.ofInt 3]⟩), ("scale", ⟨[1], [.ofInt 1]⟩),
        ("variance", ⟨[1], [.ofInt 4]⟩)] } .onnx =
    ⟨some [.ofInt 1], none, some [.ofInt 3], some [.ofInt 4]⟩ := by decide

end Node

end LayerGraph
