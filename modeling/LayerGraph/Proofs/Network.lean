import LayerGraph.Proofs.Conversion
import LayerGraph.Proofs.Operands

/-!
# Networks of computation graphs

A computation graph is data that nobody has looked at: its operators may be in any order and run
in circles, and several of them may put out the same tensor. The nodes that are read from it are
in order all the same. An operand is kept only if it is in the table of producers, and this table
names nothing but the input node and the nodes read so far
(`LayerGraph.GraphMessage.mem_names_of_operatorNodes`).

Such a list is flat, although some of its operators may be those of containers, and it starts with
a leaf. So if its names are distinct it is well referenced
(`LayerGraph.WellReferenced.of_flat`), and no conversion can find fault with the graph
(`LayerGraph.ModelMessage.load_ordered`).
-/

namespace LayerGraph

/-! ### Flat lists -/

section Flat

variable {nodes : List Node} {i : Nat} {n : Node}

/-- **A flat list is well referenced** if it starts with a leaf, its names are distinct, and every
operand is the name of a node before. -/
theorem WellReferenced.of_flat (hflat : ∀ n ∈ nodes, n.children = [] ∧ n.deleted = false)
    (hd : (nodes.map Node.name).Nodup) (hfirst : ∀ n, nodes.head? = some n → n.isLeaf = true)
    (hearlier : ∀ i (n : Node), nodes[i]? = some n → ∀ x ∈ n.inputs,
      ∃ (j : Nat) (m : Node), j < i ∧ nodes[j]? = some m ∧ m.name = x) : WellReferenced nodes := by
  have hpost : postorder nodes = nodes := postorder_of_flat fun n hn => (hflat n hn).1
  refine ⟨?_, ?_, ?_⟩ <;> rw [hpost]
  · exact fun n hn => (hflat n hn).2
  · exact hd
  · intro i n hn _ x hx
    obtain ⟨j, m, hj, hm, rfl⟩ := hearlier i n hn x hx
    cases hleaf : m.isLeaf with
    | true => exact Or.inl ⟨m, mem_take_iff.mpr ⟨j, hj, hm⟩, hleaf, rfl⟩
    | false =>
      -- an empty container stands for a leaf before it, and the first node is one
      cases j with
      | zero =>
        rw [← List.head?_eq_getElem?] at hm
        rw [hfirst m hm] at hleaf
        cases hleaf
      | succ j =>
        obtain ⟨first, hf⟩ : ∃ first, nodes[0]? = some first := by
          cases nodes with
          | nil => cases hm
          | cons first rest => exact ⟨first, rfl⟩
        refine Or.inr ⟨j + 1, m, by rwa [List.getElem?_take_of_lt hj], hleaf, rfl, first, ?_, ?_⟩
        · rw [List.take_take]
          exact mem_take_iff.mpr ⟨0, by omega, hf⟩
        · exact hfirst first (List.head?_eq_getElem?.trans hf)

end Flat

/-! ### The nodes of the operators -/

namespace GraphMessage

variable {known : Entries Tensor} {producers : Entries String} {i k : Nat} {x : String}
  {ops : List OperatorMessage} {n : Node} {g : GraphMessage} {net : Network}

/-- What is made of every operator is true of all nodes. -/
theorem forall_mem_operatorNodes {P : Node → Prop}
    (hP : ∀ (op : OperatorMessage) name producers, P (op.node name known producers)) :
    ∀ n ∈ (operatorNodes known producers i ops).1, P n := by
  have hall : List.Forall₂ (fun (_ : OperatorMessage) n => P n ∧ True)
      (ops.filter fun n => !n.isConstant) (operatorNodes known producers i ops).1 :=
    forall₂_operatorNodes fun op name producers => ⟨hP op name producers, trivial⟩
  exact ((List.forall₂_and_left _ _).mp hall.flip).1

/-- **An operand is the name of a node read before**, as long as the table of producers names none
but those that were read when the walk began. -/
theorem mem_names_of_operatorNodes {names : List String}
    (hp : ∀ x p, producers.value? x = some p → p ∈ names)
    (hn : (operatorNodes known producers i ops).1[k]? = some n) (hx : x ∈ n.inputs) :
    x ∈ names ++ ((operatorNodes known producers i ops).1.take k).map Node.name := by
  induction ops generalizing producers i names k with
  | nil => cases hn
  | cons op ops ih =>
    cases hop : op.isConstant with
    | true =>
      rw [operatorNodes_constant hop] at hn ⊢
      exact ih hp hn
    | false =>
      rw [operatorNodes_cons hop] at hn ⊢
      cases k with
      | zero =>
        obtain rfl := Option.some.inj hn
        obtain ⟨tensor, -, hprod⟩ := List.mem_filterMap.mp hx
        exact List.mem_append_left _ (hp tensor x hprod)
      | succ k =>
        -- from here on the table may also name the node of this operator
        have hp' : ∀ x p, (producers.setAll (op.output.map fun out => (out, op.nodeName i))).value? x
            = some p → p ∈ names ++ [op.nodeName i] := by
          intro x p hprod
          rw [Entries.value?_setAll_map] at hprod
          split at hprod
          · obtain rfl := Option.some.inj hprod
            simp
          · exact List.mem_append_left _ (hp x p hprod)
        have hmem := ih hp' hn
        rw [List.append_assoc] at hmem
        exact hmem

/-- The nodes of a network are the input node and those of the operators, and the tensors that the
operators find are the ones of the graph. -/
theorem exists_known_of_network (h : g.network = .ok net) : ∃ known v,
    g.knownTensors = .ok known ∧ g.dataInput? = some v ∧
      net.nodes = inputNode v.name (v.shape?.getD []) ::
        (operatorNodes known [(v.name, v.name)] 0 g.node).1 := by
  rw [network] at h
  split at h
  · cases h
  next known hk =>
  split at h
  · cases h
  next v hv =>
  obtain rfl := Except.ok.inj h
  exact ⟨known, v, hk, freeInput?_eq_dataInput? hk ▸ hv, rfl⟩

theorem exists_nodes_of_network (h : g.network = .ok net) : ∃ known v, g.dataInput? = some v ∧
    net.nodes = inputNode v.name (v.shape?.getD []) ::
      (operatorNodes known [(v.name, v.name)] 0 g.node).1 := by
  obtain ⟨known, v, -, hv, hnodes⟩ := exists_known_of_network h
  exact ⟨known, v, hv, hnodes⟩

theorem flat_of_network (h : g.network = .ok net) :
    ∀ n ∈ net.nodes, n.children = [] ∧ n.deleted = false := by
  obtain ⟨known, v, -, hnodes⟩ := exists_nodes_of_network h
  rw [hnodes]
  exact List.forall_mem_cons.mpr ⟨⟨rfl, rfl⟩, forall_mem_operatorNodes fun _ _ _ => ⟨rfl, rfl⟩⟩

/-- **The operands of a network's nodes are nodes before them.** -/
theorem earlier_of_network (h : g.network = .ok net) (hn : net.nodes[k]? = some n)
    (hx : x ∈ n.inputs) :
    ∃ (j : Nat) (m : Node), j < k ∧ net.nodes[j]? = some m ∧ m.name = x := by
  obtain ⟨known, v, -, hnodes⟩ := exists_nodes_of_network h
  rw [hnodes] at hn ⊢
  cases k with
  | zero =>
    obtain rfl := Option.some.inj hn
    cases hx
  | succ k =>
    have hp : ∀ x p, Entries.value? [(v.name, v.name)] x = some p → p ∈ [v.name] := by
      intro x p hprod
      rw [Entries.value?] at hprod
      split at hprod
      · obtain rfl := Option.some.inj hprod
        exact List.mem_singleton_self _
      · cases hprod
    -- the names before position `k + 1` are those of the input and of the first `k` operators
    have hmem : x ∈ ((inputNode v.name (v.shape?.getD []) ::
        (operatorNodes known [(v.name, v.name)] 0 g.node).1).take (k + 1)).map Node.name :=
      mem_names_of_operatorNodes hp hn hx
    obtain ⟨m, hm, hname⟩ := List.mem_map.mp hmem
    obtain ⟨j, hj, hjm⟩ := mem_take_iff.mp hm
    exact ⟨j, m, hj, hjm, hname⟩

end GraphMessage

/-! ### The network of a model -/

/-- **A network that is read is in order**, whatever the model holds. Its first node is the input,
which has no operands, and every operand is the name of a node before the one that lists it. So if
no name is given twice, a conversion fails at most for an operator without a family or for a
single layer. -/
theorem ModelMessage.load_ordered {m : ModelMessage} {net : Network} (h : m.load = .ok net) :
    (∃ g v input, m.graph = some g ∧ g.dataInput? = some v ∧ net.nodes.head? = some input ∧
        input.name = v.name ∧ input.opType = "Input" ∧ input.inbound = some []) ∧
      (∀ i (n : Node), net.nodes[i]? = some n → ∀ x ∈ n.inputs,
        ∃ (j : Nat) (l : Node), j < i ∧ net.nodes[j]? = some l ∧ l.name = x) ∧
      ((net.nodes.map Node.name).Nodup → ∀ cx shapes e, convert cx net.nodes shapes = .error e →
        (∃ op, e = .unsupportedLayer op) ∨ ∃ layer fault, e = .invalidLayer layer fault) := by
  rw [load] at h
  split at h
  next g hg =>
    obtain ⟨known, v, hv, hnodes⟩ := GraphMessage.exists_nodes_of_network h
    have hfirst : net.nodes.head? = some (GraphMessage.inputNode v.name (v.shape?.getD [])) := by
      rw [hnodes, List.head?_cons]
    refine ⟨⟨g, v, _, hg, hv, hfirst, rfl, rfl, rfl⟩,
      fun i n hn x hx => GraphMessage.earlier_of_network h hn hx, fun hd cx shapes e he => ?_⟩
    have hwell : WellReferenced net.nodes := by
      refine .of_flat (GraphMessage.flat_of_network h) hd (fun n hn => ?_)
        fun i n hn x hx => GraphMessage.earlier_of_network h hn hx
      obtain rfl := Option.some.inj (hn.symm.trans hfirst)
      rfl
    exact hwell.error_of_convert he
  · cases h

/-- A circle of operators, one of them that of a container, and a tensor put out twice. -/
def circle : ModelMessage where
  graph := some {
    input := [{ name := "x" }]
    node := [
      { name := "sum", opType := "Add", input := ["x", "c"], output := ["a", "b"] },
      { name := "box", opType := "Sequential", input := ["a"], output := ["b"] },
      { name := "relu", opType := "Relu", input := ["b", ""], output := ["c", "x"] },
      { opType := "Mystery", input := ["x", "b"], output := ["a"] }] }

/-- The circle is opened where its operands come too late, and no conversion finds fault with the
graph. -/
theorem circle_ordered : ∃ net, circle.load = .ok net ∧
    net.nodes.map Node.name = ["x", "sum", "box", "relu", "Mystery_3"] ∧
    net.nodes.map Node.inputs = [[], ["x"], ["sum"], ["box"], ["relu", "box"]] ∧
    (net.nodes.map Node.name).Nodup ∧
    ∀ cx shapes e, convert cx net.nodes shapes = .error e →
      (∃ op, e = .unsupportedLayer op) ∨ ∃ layer fault, e = .invalidLayer layer fault := by
  obtain ⟨net, hnet⟩ : ∃ net, circle.load = .ok net := ⟨_, rfl⟩
  have hnames : net.nodes.map Node.name = ["x", "sum", "box", "relu", "Mystery_3"] := by
    obtain rfl := Except.ok.inj hnet
    decide
  have hinputs : net.nodes.map Node.inputs = [[], ["x"], ["sum"], ["box"], ["relu", "box"]] := by
    obtain rfl := Except.ok.inj hnet
    decide
  have hd : (net.nodes.map Node.name).Nodup := by
    rw [hnames]
    decide
  exact ⟨net, hnet, hnames, hinputs, hd, (ModelMessage.load_ordered hnet).2.2 hd⟩

end LayerGraph
