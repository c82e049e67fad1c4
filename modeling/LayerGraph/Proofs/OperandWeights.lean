import LayerGraph.Proofs.Network

/-!
# Weights by the position of an operand

A node finds a weight in two steps: the position of the operand gives a name in the list of
operands, which is one of its attributes, and the name gives a tensor among its weights. Names may
come up more than once in both, and the last entry stays.

For the list of operands this means that it cannot be lost, whatever attributes an operator
declares: it is set last. For the weights it makes no difference, since a name that is repeated
among the operands is set to one tensor each time: the one that the graph carries under it
(`LayerGraph.OperatorMessage.operandWeight?_node`).
-/

namespace LayerGraph

variable {known : Entries Tensor} {producers : Entries String} {k : Nat} {x name : String}
  {op : OperatorMessage} {g : GraphMessage} {net : Network}

/-! ### The operands of a node -/

namespace OperatorMessage

/-- The list of operands is among the attributes of a node, whatever attributes are declared. -/
theorem strs?_nodeAttributes (op : OperatorMessage) :
    op.nodeAttributes.strs? "operands" = some op.input := by
  rw [Attributes.strs?, nodeAttributes, Entries.value?_set_self]

theorem operands_node : (op.node name known producers).operands = op.input := by
  rw [Node.operands, node, strs?_nodeAttributes, Option.getD_some]

/-- The weights of a node are the tensors that are known by the names of its operands. -/
theorem value?_weights_node (hx : x ∈ op.input) :
    (op.node name known producers).weights.value? x = known.value? x := by
  have hset := Entries.value?_setAll_filterMap [] known.value? op.input x
  rw [if_pos hx, Entries.value?, Option.or_none] at hset
  exact hset

/-- **The weight of an operand** is the tensor that is known by its name. -/
theorem operandWeight?_node :
    (op.node name known producers).operandWeight? k = op.input[k]?.bind known.value? := by
  have hoperands : (op.node name known producers).attrs.strs? "operands" = some op.input :=
    strs?_nodeAttributes op
  simp only [Node.operandWeight?, hoperands]
  cases hx : op.input[k]? with
  | none => rfl
  | some x => exact value?_weights_node (List.mem_of_getElem? hx)

theorem value?_of_mem_weights_node {w : String × Tensor}
    (hw : w ∈ (op.node name known producers).weights) : known.value? w.1 = some w.2 := by
  rcases Entries.mem_of_mem_setAll hw with hw | hw
  · cases hw
  · obtain ⟨x, -, hx⟩ := List.mem_filterMap.mp hw
    obtain ⟨y, hy, rfl⟩ := Option.map_eq_some_iff.mp hx
    exact hy

end OperatorMessage

namespace GraphMessage

/-- The weights of the nodes of a network are tensors that the graph carries. -/
theorem exists_message_of_mem_weights (h : g.network = .ok net) :
    ∀ n ∈ net.nodes, ∀ w ∈ n.weights, ∃ t, g.weightMessage? w.1 = some t ∧ t.tensor = .ok w.2 := by
  obtain ⟨known, v, hknown, -, hnodes⟩ := exists_known_of_network h
  rw [hnodes]
  refine List.forall_mem_cons.mpr ⟨fun w hw => absurd hw List.not_mem_nil, ?_⟩
  refine forall_mem_operatorNodes fun op name producers w hw => ?_
  exact (value?_knownTensors hknown).mp (OperatorMessage.value?_of_mem_weights_node hw)

/-- **Weights are found by the position of the operand.** The nodes of a network that are not the
input are those of the operators that are not constants, in order. Each of them lists all operands
of its operator, and the weight of an operand is the last tensor that the graph carries under the
name of the operand; there is one exactly if an initial tensor or a constant has that name. -/
theorem network_operandWeights (h : g.network = .ok net) :
    ∃ input nodes, net.nodes = input :: nodes ∧ input.opType = "Input" ∧
      List.Forall₂ (fun (op : OperatorMessage) (node : Node) =>
        node.opType = op.opType ∧ node.operands = op.input ∧ ∀ k,
          (∀ y, node.operandWeight? k = some y ↔ ∃ x t, op.input[k]? = some x ∧
            g.weightMessage? x = some t ∧ t.tensor = .ok y) ∧
          ((node.operandWeight? k).isSome ↔ ∃ x, op.input[k]? = some x ∧
            ((∃ t ∈ g.initializer, t.name = x) ∨ ∃ c ∈ g.node, (c.constantFor? x).isSome)))
        (g.node.filter fun n => !n.isConstant) nodes := by
  obtain ⟨known, v, hknown, -, hnodes⟩ := exists_known_of_network h
  refine ⟨_, _, hnodes, rfl, forall₂_operatorNodes fun op name producers => ?_⟩
  refine ⟨rfl, OperatorMessage.operands_node, fun k => ?_⟩
  have hweight : ∀ y, (op.node name known producers).operandWeight? k = some y ↔
      ∃ x t, op.input[k]? = some x ∧ g.weightMessage? x = some t ∧ t.tensor = .ok y := by
    intro y
    rw [OperatorMessage.operandWeight?_node, Option.bind_eq_some_iff]
    simp only [value?_knownTensors hknown, exists_and_left]
  refine ⟨hweight, ?_⟩
  rw [OperatorMessage.operandWeight?_node, Option.isSome_bind, Option.any_eq_true]
  simp only [isSome_value?_knownTensors hknown, isSome_weightMessage?_iff]

/-- A tensor of one whole number. -/
def wholeNumber (name : String) (n : Int) : TensorMessage where
  dataType := 7
  ints64 := [n]
  name := name

/-- A constant that is called `out` and has the value `n`. -/
def wholeConstant (out : String) (n : Int) : OperatorMessage where
  opType := "Constant"
  output := [out, "unused"]
  attributes := [{ name := "value", t := some (wholeNumber "" n) }]

/-- A product whose operands are repeated, with an attribute that is called like the list of
operands. The weight `w` comes up four times, the last time as a constant after the product. -/
def shadowedWeights : GraphMessage where
  input := [{ name := "x" }]
  initializer := [wholeNumber "b" 1, wholeNumber "w" 2, wholeNumber "w" 3, wholeNumber "b" 4]
  node := [
    wholeConstant "w" 5,
    { name := "product", opType := "Gemm", input := ["x", "w", "b", "w", "unused"], output := ["y"],
      attributes := [{ name := "operands", type := 2, i := 7 }] },
    wholeConstant "w" 6]

/-- All operands of the product are kept, and the last tensor of each name is its weight. -/
theorem shadowedWeights_operandWeights : ∃ net input node, shadowedWeights.network = .ok net ∧
    net.nodes = [input, node] ∧ node.operands = ["x", "w", "b", "w", "unused"] ∧
    node.operandWeight? 0 = none ∧ node.operandWeight? 1 = some ⟨[], [Floating.ofInt 6]⟩ ∧
    node.operandWeight? 2 = some ⟨[], [Floating.ofInt 4]⟩ ∧
    node.operandWeight? 3 = some ⟨[], [Floating.ofInt 6]⟩ ∧ node.operandWeight? 4 = none := by
  obtain ⟨net, hnet⟩ : ∃ net, shadowedWeights.network = .ok net := ⟨_, rfl⟩
  obtain ⟨input, nodes, hnodes, -, hall⟩ := network_operandWeights hnet
  cases hall with
  | @cons _ node _ _ hnode hrest =>
    cases hrest
    obtain ⟨-, hoperands, hweights⟩ := hnode
    have hnone : ∀ k x, shadowedWeights.node[1].input[k]? = some x →
        shadowedWeights.weightMessage? x = none → node.operandWeight? k = none := by
      intro k x hx hx'
      refine Option.eq_none_iff_forall_ne_some.mpr fun y hy => ?_
      obtain ⟨z, t, hz, ht, -⟩ := ((hweights k).1 y).mp hy
      obtain rfl : x = z := Option.some.inj (hx.symm.trans hz)
      cases hx'.symm.trans ht
    refine ⟨net, input, node, hnet, hnodes, hoperands, hnone 0 "x" rfl rfl, ?_, ?_, ?_,
      hnone 4 "unused" rfl rfl⟩
    · exact ((hweights 1).1 _).mpr ⟨"w", wholeNumber "" 6, rfl, rfl, rfl⟩
    · exact ((hweights 2).1 _).mpr ⟨"b", wholeNumber "b" 4, rfl, rfl, rfl⟩
    · exact ((hweights 3).1 _).mpr ⟨"w", wholeNumber "" 6, rfl, rfl, rfl⟩

end GraphMessage

end LayerGraph
