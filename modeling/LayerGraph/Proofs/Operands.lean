import LayerGraph.Convert
import LayerGraph.Proofs.KnownTensors
import LayerGraph.Proofs.Linking
import Mathlib.Data.List.Forall2
import Mathlib.Data.List.TakeDrop

/-!
# What becomes of the operands of an operator

An operator of a computation graph names its operands by tensor, its node names them by the nodes
that produce them. The table of producers is filled while the operators are walked, so what it
holds at an operator is what the operators before it put out: a tensor is found there under the
last operator that puts it out (`LayerGraph.GraphMessage.value?_producersAfter_iff`).

An operand that is not in the table is not an error. It is left out, be it a weight, an omitted
operand, an input of the graph other than the first, or the output of an operator that comes
later. So a node lists the producers of those operands that are produced before it, and these are
all the data that its operator takes exactly if all of it is produced in time. Nothing catches
the others later: a sum of the input and of what only a later operator puts out is read, and
converted, as a sum of the input alone (`LayerGraph.GraphMessage.lateOperand`).
-/

namespace LayerGraph

variable {known : Entries Tensor} {producers : Entries String} {i k : Nat} {x p : String}
  {ops ops' : List OperatorMessage} {n : OperatorMessage} {g : GraphMessage} {net : Network}

/-! ### Who puts out a tensor -/

/-- Some operator of a list puts out `x`. -/
def PutOut (ops : List OperatorMessage) (x : String) : Prop :=
  ∃ n ∈ ops, n.isConstant = false ∧ x ∈ n.output

instance : Decidable (PutOut ops x) := inferInstanceAs (Decidable (∃ n ∈ ops, _))

/-- The last operator of a list that puts out `x` has a node called `p`, when the list starts at
position `i`. -/
def LastPutOut (ops : List OperatorMessage) (i : Nat) (x p : String) : Prop :=
  ∃ before n after, ops = before ++ n :: after ∧ n.isConstant = false ∧ x ∈ n.output ∧
    p = n.nodeName (i + before.length) ∧ ¬PutOut after x

theorem LastPutOut.putOut (h : LastPutOut ops i x p) : PutOut ops x := by
  obtain ⟨before, n, after, rfl, hn, hx, -⟩ := h
  exact ⟨n, by simp, hn, hx⟩

theorem putOut_cons :
    PutOut (n :: ops) x ↔ (n.isConstant = false ∧ x ∈ n.output) ∨ PutOut ops x := by
  simp only [PutOut, List.exists_mem_cons_iff]

/-- The first operator of a list is the last one to put out `x` if no other one does. -/
theorem lastPutOut_cons : LastPutOut (n :: ops) i x p ↔ LastPutOut ops (i + 1) x p ∨
    ¬PutOut ops x ∧ (n.isConstant = false ∧ x ∈ n.output) ∧ p = n.nodeName i := by
  constructor
  · rintro ⟨_ | ⟨l, before⟩, m, after, heq, hm, hx, rfl, hlast⟩
    · obtain ⟨rfl, rfl⟩ := List.cons.inj heq
      exact .inr ⟨hlast, ⟨hm, hx⟩, rfl⟩
    · obtain ⟨rfl, rfl⟩ := List.cons.inj heq
      refine .inl ⟨before, m, after, rfl, hm, hx, ?_, hlast⟩
      rw [List.length_cons, Nat.add_right_comm, Nat.add_assoc]
  · rintro (⟨before, m, after, rfl, hm, hx, rfl, hlast⟩ | ⟨hlast, ⟨hm, hx⟩, rfl⟩)
    · refine ⟨n :: before, m, after, rfl, hm, hx, ?_, hlast⟩
      rw [List.length_cons, Nat.add_right_comm, Nat.add_assoc]
    · exact ⟨[], n, ops, rfl, hm, hx, rfl, hlast⟩

theorem exists_lastPutOut (h : PutOut ops x) : ∃ p, LastPutOut ops i x p := by
  induction ops generalizing i with
  | nil => simp [PutOut] at h
  | cons n ops ih =>
    by_cases hx : PutOut ops x
    · obtain ⟨p, hp⟩ := ih (i := i + 1) hx
      exact ⟨p, lastPutOut_cons.mpr (.inl hp)⟩
    · exact ⟨_, lastPutOut_cons.mpr (.inr ⟨hx, (putOut_cons.mp h).resolve_right hx, rfl⟩)⟩

/-! ### The table of producers -/

namespace GraphMessage

/-- The producers once some operators have been walked. -/
def producersAfter (producers : Entries String) (i : Nat) (ops : List OperatorMessage) :
    Entries String :=
  (operatorNodes [] producers i ops).2

theorem operatorNodes_constant (h : n.isConstant = true) :
    operatorNodes known producers i (n :: ops) = operatorNodes known producers (i + 1) ops := by
  rw [operatorNodes, if_pos h]

theorem operatorNodes_cons (h : n.isConstant = false) :
    operatorNodes known producers i (n :: ops) =
      let rest := operatorNodes known
        (producers.setAll (n.output.map fun out => (out, n.nodeName i))) (i + 1) ops
      (n.node (n.nodeName i) known producers :: rest.1, rest.2) := by
  rw [operatorNodes, if_neg (by simp [h])]

theorem producersAfter_constant (h : n.isConstant = true) :
    producersAfter producers i (n :: ops) = producersAfter producers (i + 1) ops := by
  rw [producersAfter, operatorNodes_constant h, producersAfter]

theorem producersAfter_cons (h : n.isConstant = false) :
    producersAfter producers i (n :: ops) =
      producersAfter (producers.setAll (n.output.map fun out => (out, n.nodeName i))) (i + 1)
        ops := by
  rw [producersAfter, operatorNodes_cons h, producersAfter]

/-- **The walk goes on** after some operators with the producers that they leave. -/
theorem operatorNodes_append : (operatorNodes known producers i (ops ++ ops')).1 =
    (operatorNodes known producers i ops).1 ++
      (operatorNodes known (producersAfter producers i ops) (i + ops.length) ops').1 := by
  induction ops generalizing producers i with
  | nil => rfl
  | cons n ops ih =>
    rw [List.cons_append, List.length_cons, Nat.add_comm ops.length, ← Nat.add_assoc]
    cases hn : n.isConstant with
    | true =>
      rw [operatorNodes_constant hn, operatorNodes_constant hn, producersAfter_constant hn, ih]
    | false =>
      rw [operatorNodes_cons hn, operatorNodes_cons hn, producersAfter_cons hn]
      exact congrArg _ ih

/-- **Every operator that is not a constant has one node**, slot by slot. -/
theorem forall₂_operatorNodes {R : OperatorMessage → Node → Prop}
    (hR : ∀ (op : OperatorMessage) name producers, R op (op.node name known producers)) :
    List.Forall₂ R (ops.filter fun n => !n.isConstant)
      (operatorNodes known producers i ops).1 := by
  induction ops generalizing producers i with
  | nil => exact .nil
  | cons op ops ih =>
    cases hop : op.isConstant with
    | true =>
      rw [operatorNodes_constant hop, List.filter_cons_of_neg (by simp [hop])]
      exact ih
    | false =>
      rw [operatorNodes_cons hop, List.filter_cons_of_pos (by simp [hop])]
      exact .cons (hR _ _ _) ih

theorem length_operatorNodes (known : Entries Tensor) (producers : Entries String) (i : Nat)
    (ops : List OperatorMessage) : (operatorNodes known producers i ops).1.length =
    ops.countP fun n => !n.isConstant := by
  rw [List.countP_eq_length_filter]
  exact (forall₂_operatorNodes (R := fun _ _ => True) fun _ _ _ => trivial).length_eq.symm

/-- **The table of producers** names, for a tensor, the last operator so far that puts it out, and
whatever was there before if none does. -/
theorem value?_producersAfter_iff : (producersAfter producers i ops).value? x = some p ↔
    LastPutOut ops i x p ∨ ¬PutOut ops x ∧ producers.value? x = some p := by
  induction ops generalizing producers i with
  | nil => simp [producersAfter, operatorNodes, LastPutOut, PutOut]
  | cons n ops ih =>
    rw [lastPutOut_cons, putOut_cons]
    cases hn : n.isConstant with
    | true =>
      rw [producersAfter_constant hn, ih]
      simp
    | false =>
      rw [producersAfter_cons hn, ih, Entries.value?_setAll_map]
      by_cases hx : x ∈ n.output
      · simp only [hx, if_true, Option.some.injEq, and_self, true_and, true_or, not_true_eq_false,
          false_and, or_false, eq_comm]
      · simp only [hx, if_false, and_false, false_and, false_or, or_false]

/-! ### The operands that a node should have -/

/-- A tensor that the graph itself carries: an initial one, or the value of a constant. -/
def IsWeight (g : GraphMessage) (x : String) : Prop :=
  (∃ t ∈ g.initializer, t.name = x) ∨
    ∃ n ∈ g.node, n.isConstant = true ∧ n.constant?.map Prod.fst = some x

instance : DecidablePred g.IsWeight := fun x =>
  inferInstanceAs (Decidable ((∃ t ∈ g.initializer, t.name = x) ∨ ∃ n ∈ g.node, _))

theorem contains_knownTensors (h : g.knownTensors = .ok known) :
    known.contains x = true ↔ g.IsWeight x := by
  rw [Entries.contains, isSome_value?_knownTensors h, isSome_weightMessage?_iff, IsWeight]
  simp only [OperatorMessage.isSome_constantFor?_iff]

/-- The first input that is data. -/
def dataInput? (g : GraphMessage) : Option ValueMessage := g.input.find? fun v => ¬g.IsWeight v.name

theorem freeInput?_eq_dataInput? (h : g.knownTensors = .ok known) :
    g.freeInput? known = g.dataInput? := by
  rw [freeInput?, dataInput?]
  congr 1
  funext v
  rw [Bool.eq_iff_iff, Bool.not_eq_true', decide_eq_true_iff, ← contains_knownTensors h,
    Bool.not_eq_true]

/-- The operands of an operator that are data: neither omitted nor weights. -/
def dataOperands (g : GraphMessage) (n : OperatorMessage) : List String :=
  n.input.filter fun x => x ≠ "" ∧ ¬g.IsWeight x

/-- Something before position `k` produces `x`: an operator, or the input. -/
def Produced (g : GraphMessage) (input : String) (k : Nat) (x : String) : Prop :=
  PutOut (g.node.take k) x ∨ x = input

instance {input : String} : DecidablePred (g.Produced input k) := fun x =>
  inferInstanceAs (Decidable (PutOut (g.node.take k) x ∨ x = input))

/-- `p` is the node that produces `x` for the operator at position `k`: that of the last operator
before which puts out `x`, and the input node if there is none and `x` is the input. -/
def Producer (g : GraphMessage) (input : String) (k : Nat) (x p : String) : Prop :=
  LastPutOut (g.node.take k) 0 x p ∨ ¬PutOut (g.node.take k) x ∧ x = input ∧ p = input

/-! ### The operands that a node has -/

/-- The producers that an operator at position `k` finds. -/
theorem value?_producersAfter_take {input : String} :
    (producersAfter [(input, input)] 0 (g.node.take k)).value? x = some p ↔
      g.Producer input k x p := by
  rw [value?_producersAfter_iff, Producer]
  by_cases hx : x = input
  · subst hx
    simp [Entries.value?, eq_comm]
  · simp [Entries.value?, hx, Ne.symm hx]

theorem Producer.produced {input : String} (h : g.Producer input k x p) :
    g.Produced input k x :=
  h.imp LastPutOut.putOut fun h => h.2.1

theorem isSome_value?_producersAfter_take {input : String} :
    ((producersAfter [(input, input)] 0 (g.node.take k)).value? x).isSome ↔
      g.Produced input k x := by
  rw [Option.isSome_iff_exists]
  simp only [value?_producersAfter_take, Producer, Produced]
  constructor
  · rintro ⟨p, hp⟩
    exact Producer.produced hp
  · intro h
    by_cases hx : PutOut (g.node.take k) x
    · obtain ⟨p, hp⟩ := exists_lastPutOut hx
      exact ⟨p, .inl hp⟩
    · exact ⟨input, .inr ⟨hx, h.resolve_left hx, rfl⟩⟩

/-- What a partial function gives for a list is, slot by slot, what it gives for the elements that
it is defined for. -/
theorem forall₂_filterMap {α β : Type} {f : α → Option β} {xs : List α} :
    List.Forall₂ (fun x y => f x = some y) (xs.filter fun x => (f x).isSome) (xs.filterMap f) := by
  induction xs with
  | nil => exact .nil
  | cons x xs ih =>
    cases hx : f x with
    | none => simpa [hx] using ih
    | some y => simpa [hx] using ih

/-- **The operands of a node** are the producers of those operands of its operator that are
produced before it, slot by slot. -/
theorem forall₂_producer {input : String} : List.Forall₂ (g.Producer input k)
    (n.input.filter (g.Produced input k ·))
    (n.input.filterMap (producersAfter [(input, input)] 0 (g.node.take k)).value?) := by
  have hfilter : n.input.filter (g.Produced input k ·) = n.input.filter fun x =>
      ((producersAfter [(input, input)] 0 (g.node.take k)).value? x).isSome :=
    List.filter_congr fun x _ => by
      rw [Bool.eq_iff_iff, decide_eq_true_iff, isSome_value?_producersAfter_take]
  rw [hfilter]
  exact List.Forall₂.imp (fun _ _ h => value?_producersAfter_take.mp h) forall₂_filterMap

/-- The node of the operator at position `k`. -/
theorem getElem?_operatorNodes (hn : g.node[k]? = some n) (hc : n.isConstant = false) :
    (operatorNodes known producers 0 g.node).1[(g.node.take k).countP fun n => !n.isConstant]? =
      some (n.node (n.nodeName k) known (producersAfter producers 0 (g.node.take k))) := by
  obtain ⟨hk, rfl⟩ := List.getElem?_eq_some_iff.mp hn
  have hsplit : g.node = g.node.take k ++ g.node[k] :: g.node.drop (k + 1) := by simp
  have hnodes : (operatorNodes known producers 0 g.node).1 =
      (operatorNodes known producers 0 (g.node.take k)).1 ++
        (operatorNodes known (producersAfter producers 0 (g.node.take k)) k
          (g.node[k] :: g.node.drop (k + 1))).1 := by
    conv_lhs => rw [hsplit, operatorNodes_append]
    rw [List.length_take, Nat.min_eq_left (Nat.le_of_lt hk), Nat.zero_add]
  rw [hnodes, ← length_operatorNodes known producers 0,
    List.getElem?_append_right (Nat.le_refl _), Nat.sub_self, operatorNodes_cons hc]
  rfl

/-- **What the operands of a loaded operator are.** The node of every operator that is not a
constant lists the producers of those operands that are produced before it, in order. When no
name of a weight and no empty name is put out, these are data; and they are all the data that
the operator has exactly if all of it is produced before. -/
theorem network_inbound (h : g.network = .ok net) : ∃ v, g.dataInput? = some v ∧
    ∀ k n, g.node[k]? = some n → n.isConstant = false → ∃ node ins,
      net.nodes[1 + (g.node.take k).countP fun n => !n.isConstant]? = some node ∧
      node.name = n.nodeName k ∧ node.opType = n.opType ∧ node.inbound = some ins ∧
      List.Forall₂ (g.Producer v.name k) (n.input.filter (g.Produced v.name k ·)) ins ∧
      ((∀ x ∈ n.input, g.Produced v.name k x → x ≠ "" ∧ ¬g.IsWeight x) →
        List.Forall₂ (g.Producer v.name k)
          ((g.dataOperands n).filter (g.Produced v.name k ·)) ins ∧
        (List.Forall₂ (g.Producer v.name k) (g.dataOperands n) ins ↔
          ∀ x ∈ g.dataOperands n, g.Produced v.name k x)) := by
  rw [network] at h
  split at h
  · cases h
  next known hk =>
  split at h
  · cases h
  next v hv =>
  obtain rfl := Except.ok.inj h
  refine ⟨v, freeInput?_eq_dataInput? hk ▸ hv, fun k n hn hc => ?_⟩
  refine ⟨n.node (n.nodeName k) known (producersAfter [(v.name, v.name)] 0 (g.node.take k)), _,
    ?_, rfl, rfl, rfl, forall₂_producer, fun hdata => ?_⟩
  · rw [Nat.add_comm, List.getElem?_cons_succ]
    exact getElem?_operatorNodes hn hc
  have hfilter : (g.dataOperands n).filter (g.Produced v.name k ·) =
      n.input.filter (g.Produced v.name k ·) := by
    rw [dataOperands, List.filter_filter]
    refine List.filter_congr fun x hx => ?_
    rw [Bool.eq_iff_iff, Bool.and_eq_true]
    simp only [decide_eq_true_iff]
    exact ⟨And.left, fun hp => ⟨hp, hdata x hx hp⟩⟩
  rw [hfilter]
  refine ⟨forall₂_producer, fun hall x hx => ?_, fun hall => ?_⟩
  · obtain ⟨p, hp⟩ := Record.exists_forall₂_iff.mp ⟨_, hall⟩ x hx
    exact hp.produced
  · rw [← List.filter_eq_self.mpr fun x hx => decide_eq_true (hall x hx), hfilter]
    exact forall₂_producer

/-- A sum of the input and of what a later operator puts out. -/
def lateOperand : GraphMessage where
  input := [{ name := "x" }]
  node := [
    { name := "sum", opType := "Add", input := ["x", "b"], output := ["c"] },
    { name := "relu", opType := "Relu", input := ["x"], output := ["b"] }]

/-- **An operand that comes too late is left out**, and the network is converted all the same. -/
theorem lateOperand_left_out : ∃ net node, lateOperand.network = .ok net ∧
    (convert { format := .onnx } net.nodes net.shapes).toOption.isSome = true ∧
    lateOperand.node.head?.map lateOperand.dataOperands = some ["x", "b"] ∧
    net.nodes[1]? = some node ∧ node.name = "sum" ∧ node.inbound = some ["x"] :=
  ⟨_, _, rfl, by decide, by decide, rfl, rfl, rfl⟩

/-- A clip whose lower bound is omitted and whose upper bound is a constant. -/
def boundedClip : GraphMessage where
  input := [{ name := "x" }]
  node := [
    { opType := "Constant", output := ["top"],
      attributes := [{ name := "value", t := some { dataType := 1, singles := [.zero] } }] },
    { opType := "Clip", input := ["x", "", "top"], output := ["y"] }]

/-- The clip has one operand, the input. -/
theorem boundedClip_inbound : ∃ net node ins, boundedClip.network = .ok net ∧
    net.nodes[1]? = some node ∧ node.name = "Clip_1" ∧ node.inbound = some ins ∧
    List.Forall₂ (boundedClip.Producer "x" 1) ["x"] ins := by
  obtain ⟨v, hv, hall⟩ := network_inbound (g := boundedClip) rfl
  obtain rfl : v = { name := "x" } := Option.some.inj (hv.symm.trans rfl)
  obtain ⟨node, ins, hnode, hname, -, hins, -, hdata⟩ := hall 1 _ rfl rfl
  exact ⟨_, node, ins, rfl, hnode, hname, hins, ((hdata (by decide)).2).mpr (by decide)⟩

end GraphMessage

end LayerGraph
