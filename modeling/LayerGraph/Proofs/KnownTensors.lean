import LayerGraph.Model.Computation
import LayerGraph.Proofs.Entries

/-!
# The tensors that a computation graph carries

A graph has tensors of two kinds, initial ones and constants, and both are kept in one table by
name. The initial ones are read first and the constants after them, and of several tensors of one
name the last stays. So the tensor of a name is that of the last constant of this name, and that of
the last initial tensor only if there is no such constant
(`LayerGraph.GraphMessage.weightMessage?`). The table says nothing else
(`LayerGraph.GraphMessage.value?_knownTensors`). A tensor that cannot be read spoils the whole
graph, also if another one of its name comes later.
-/

namespace LayerGraph

variable {known known' : Entries Tensor} {x : String} {y : Tensor} {g : GraphMessage}

/-! ### The last tensor of a name -/

/-- The tensor that an operator gives to `x`: it is a constant, `x` is the first that it puts out,
and its first attribute that is called `value` has a tensor. -/
def OperatorMessage.constantFor? (n : OperatorMessage) (x : String) : Option TensorMessage :=
  if n.isConstant ∧ n.output.head? = some x then
    (n.attributes.find? fun a => a.name = "value").bind (·.t)
  else none

/-- The tensor that `x` is the name of: that of the last constant which gives it one, else the last
initial one. -/
def GraphMessage.weightMessage? (g : GraphMessage) (x : String) : Option TensorMessage :=
  (g.node.findSomeRev? (·.constantFor? x)).or (g.initializer.findRev? fun t => t.name = x)

/-- A constant has a tensor for a name if this is the name that it has a tensor for. -/
theorem OperatorMessage.constant?_bind (n : OperatorMessage) (x : String) :
    (if n.isConstant then n.constant? else none).bind
      (fun e => if e.1 = x then some e.2 else none) = n.constantFor? x := by
  rw [constantFor?, constant?]
  cases n.isConstant with
  | false => simp
  | true =>
    cases n.output.head? with
    | none => simp
    | some out =>
      cases n.attributes.find? fun a => a.name = "value" with
      | none => simp
      | some a =>
        cases ht : a.t with
        | none => simp [ht]
        | some t => simp [ht]

theorem OperatorMessage.isSome_constantFor?_iff {n : OperatorMessage} :
    (n.constantFor? x).isSome ↔ n.isConstant = true ∧ n.constant?.map Prod.fst = some x := by
  rw [← constant?_bind]
  cases n.isConstant with
  | false => simp
  | true =>
    rcases n.constant? with _ | ⟨out, t⟩
    · simp
    · by_cases hx : out = x <;> simp [hx]

namespace GraphMessage

/-- The name and the tensor of every tensor that a graph carries, in the order in which they are
read. -/
def carried (g : GraphMessage) : List (String × TensorMessage) :=
  g.initializer.map (fun t => (t.name, t)) ++
    (g.node.filter OperatorMessage.isConstant).filterMap OperatorMessage.constant?

/-- **The last tensor of a name** among those that a graph carries. -/
theorem value?_reverse_carried (g : GraphMessage) (x : String) :
    Entries.value? g.carried.reverse x = g.weightMessage? x := by
  have hinits : Entries.value? (g.initializer.map fun t => (t.name, t)).reverse x =
      g.initializer.findRev? fun t => t.name = x := by
    rw [List.findRev?_eq_find?_reverse, ← List.findSome?_guard, ← List.map_reverse,
      ← List.filterMap_eq_map, Entries.value?_filterMap]
    simp only [Function.comp_apply, Option.bind_some, Option.guard_def, decide_eq_true_eq]
  have hconsts : Entries.value? ((g.node.filter OperatorMessage.isConstant).filterMap
      OperatorMessage.constant?).reverse x = g.node.findSomeRev? (·.constantFor? x) := by
    rw [List.findSomeRev?_eq_findSome?_reverse, List.filterMap_filter, ← List.filterMap_reverse,
      Entries.value?_filterMap]
    simp only [OperatorMessage.constant?_bind]
  rw [carried, List.reverse_append, Entries.value?_append, hinits, hconsts, weightMessage?]

/-! ### The table of tensors -/

/-- **A name has the last tensor** that was added under it, else what it had before. -/
theorem cases_of_addTensors {ts : List (String × TensorMessage)}
    (h : addTensors known ts = .ok known') (x : String) :
    (∃ t y, Entries.value? ts.reverse x = some t ∧ t.tensor = .ok y ∧ known'.value? x = some y) ∨
      Entries.value? ts.reverse x = none ∧ known'.value? x = known.value? x := by
  induction ts generalizing known with
  | nil =>
    obtain rfl := Except.ok.inj h
    exact .inr ⟨rfl, rfl⟩
  | cons t ts ih =>
    obtain ⟨l, t⟩ := t
    rw [addTensors] at h
    split at h
    next y hy =>
      rw [List.reverse_cons, Entries.value?_append]
      rcases ih h with ⟨u, z, hu, hz, hx⟩ | ⟨hnone, hx⟩
      · exact .inl ⟨u, z, by rw [hu, Option.some_or], hz, hx⟩
      · rw [hnone, Option.none_or, hx, Entries.value?_set]
        by_cases hl : l = x
        · exact .inl ⟨t, y, if_pos hl, hy, if_pos hl⟩
        · exact .inr ⟨if_neg hl, if_neg hl⟩
    · cases h

/-- **The table of tensors** has for a name the tensor that the graph carries under it. -/
theorem cases_of_knownTensors (h : g.knownTensors = .ok known) (x : String) :
    (∃ t y, g.weightMessage? x = some t ∧ t.tensor = .ok y ∧ known.value? x = some y) ∨
      g.weightMessage? x = none ∧ known.value? x = none := by
  have hadd : addTensors [] g.carried = .ok known := h
  rw [← value?_reverse_carried]
  exact cases_of_addTensors hadd x

theorem value?_knownTensors (h : g.knownTensors = .ok known) :
    known.value? x = some y ↔ ∃ t, g.weightMessage? x = some t ∧ t.tensor = .ok y := by
  rcases cases_of_knownTensors h x with ⟨t, z, ht, hz, hx⟩ | ⟨ht, hx⟩
  · simp [ht, hz, hx]
  · simp [ht, hx]

theorem isSome_value?_knownTensors (h : g.knownTensors = .ok known) :
    (known.value? x).isSome = (g.weightMessage? x).isSome := by
  rcases cases_of_knownTensors h x with ⟨t, y, ht, -, hx⟩ | ⟨ht, hx⟩
  · rw [ht, hx, Option.isSome_some, Option.isSome_some]
  · rw [ht, hx, Option.isSome_none, Option.isSome_none]

/-- A name is that of a tensor if an initial one or a constant is called so. -/
theorem isSome_weightMessage?_iff : (g.weightMessage? x).isSome ↔
    (∃ t ∈ g.initializer, t.name = x) ∨ ∃ c ∈ g.node, (c.constantFor? x).isSome := by
  rw [weightMessage?, Option.isSome_or, Bool.or_eq_true, or_comm,
    List.findRev?_eq_find?_reverse, List.findSomeRev?_eq_findSome?_reverse,
    List.find?_isSome, List.findSome?_isSome_iff]
  simp only [List.mem_reverse, decide_eq_true_eq]

end GraphMessage

end LayerGraph
