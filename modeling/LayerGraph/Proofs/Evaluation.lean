import LayerGraph.Proofs.Ordered

/-!
# Values of names

However layers are read, the values of a graph are found by one pass over its nodes: a live node
gets the value that its *meaning* (`LayerGraph.Meaning`) makes of the values of its operands. In
an ordered graph the pass finds the only assignment under which every live node has the value
that its operands give it (`LayerGraph.Meaning.solves_value?`,
`LayerGraph.Meaning.Solves.unique`). Two graphs are compared by showing that an assignment made
from the values of the one solves the other; the pass itself is looked at nowhere else.
-/

namespace LayerGraph

universe u

/-- **A meaning of nodes**: the value of a node, if it has one, from those of its operands. -/
abbrev Meaning (V : Type u) := Node → List (Option V) → Option V

namespace Meaning

variable {V : Type u} {M : Meaning V} {g : Graph} {ρ ρ' : String → Option V} {ns ms : List Node}
  {i : Nat} {n : Node} {x : String}

/-! ### One pass over the nodes -/

/-- The values after some nodes, computed from those before. -/
def evaluate (M : Meaning V) : (String → Option V) → List Node → String → Option V
  | ρ, [] => ρ
  | ρ, n :: ns =>
    evaluate M (fun x => if x = n.name ∧ n.deleted = false then M n (n.inputs.map ρ) else ρ x) ns

theorem evaluate_append : M.evaluate ρ (ns ++ ms) = M.evaluate (M.evaluate ρ ns) ms := by
  induction ns generalizing ρ with
  | nil => rfl
  | cons n ns ih => rw [List.cons_append, evaluate, evaluate, ih]

/-- Nodes give values to their own names only. -/
theorem evaluate_of_not_mem (h : x ∉ ns.map Node.name) : M.evaluate ρ ns x = ρ x := by
  induction ns generalizing ρ with
  | nil => rfl
  | cons n ns ih =>
    rw [List.map_cons, List.mem_cons, not_or] at h
    rw [evaluate, ih h.2, if_neg fun hx => h.1 hx.1]

/-! ### The values of a graph -/

/-- **The value of a name**, if it belongs to a live node that has one. -/
def value? (M : Meaning V) (g : Graph) : String → Option V := M.evaluate (fun _ => none) g.nodes

/-- Every live node has the value that its operands give it. -/
def Solves (M : Meaning V) (g : Graph) (ρ : String → Option V) : Prop :=
  ∀ i n, g.LiveAt i n → ρ n.name = M n (n.inputs.map ρ)

/-- **The pass solves an ordered graph**: when it comes to a node, the values of the operands are
settled, and no later node changes any of them. -/
theorem solves_value? (hg : g.Ordered) : M.Solves g (M.value? g) := by
  intro i n hn
  have hsplit : g.nodes = g.nodes.take i ++ n :: g.nodes.drop (i + 1) :=
    (take_append_cons_drop hn.1).symm
  have hnd : ((g.nodes.take i).map Node.name ++
      n.name :: (g.nodes.drop (i + 1)).map Node.name).Nodup := by
    rw [← List.map_cons, ← List.map_append, ← hsplit]
    exact hg.distinct
  obtain ⟨-, hafter, hbefore⟩ := List.nodup_append.mp hnd
  have hvalue : ∀ x, M.value? g x =
      M.evaluate (M.evaluate (fun _ => none) (g.nodes.take i)) (n :: g.nodes.drop (i + 1)) x := by
    intro x
    rw [← evaluate_append, ← hsplit, value?]
  have hinputs : n.inputs.map (M.value? g) =
      n.inputs.map (M.evaluate (fun _ => none) (g.nodes.take i)) := by
    refine List.map_congr_left fun x hx => ?_
    obtain ⟨j, m, hj, hm, rfl⟩ := hg.earlier i n hn x hx
    have hmem : m.name ∈ (g.nodes.take i).map Node.name :=
      List.mem_map_of_mem (mem_take_iff.mpr ⟨j, hj, hm.1⟩)
    rw [hvalue]
    exact evaluate_of_not_mem fun hx => hbefore _ hmem _ hx rfl
  rw [hvalue, evaluate, evaluate_of_not_mem (List.nodup_cons.mp hafter).1, if_pos ⟨rfl, hn.2⟩,
    hinputs]

/-- **An ordered graph has one solution**, as far as its live nodes are concerned. -/
theorem Solves.unique (hg : g.Ordered) (h : M.Solves g ρ) (h' : M.Solves g ρ')
    (hn : g.LiveAt i n) : ρ n.name = ρ' n.name := by
  induction i using Nat.strongRecOn generalizing n with
  | _ i ih =>
    rw [h i n hn, h' i n hn]
    refine congrArg _ (List.map_congr_left fun x hx => ?_)
    obtain ⟨j, m, hj, hm, rfl⟩ := hg.earlier i n hn x hx
    exact ih j hj hm

/-- Solutions agree on the operands of live nodes. -/
theorem Solves.map_inputs (hg : g.Ordered) (h : M.Solves g ρ) (h' : M.Solves g ρ')
    (hn : g.LiveAt i n) : n.inputs.map ρ = n.inputs.map ρ' := by
  refine List.map_congr_left fun x hx => ?_
  obtain ⟨j, m, -, hm, rfl⟩ := hg.earlier i n hn x hx
  exact h.unique hg h' hm

/-! ### Every live node has a value -/

/-- A list of values is there if all of them are. -/
theorem isSome_mapM_id {vs : List (Option V)} (h : ∀ v ∈ vs, v.isSome) : (vs.mapM id).isSome := by
  induction vs with
  | nil => rfl
  | cons v vs ih =>
    obtain ⟨hv, hvs⟩ := List.forall_mem_cons.mp h
    obtain ⟨w, rfl⟩ := Option.isSome_iff_exists.mp hv
    obtain ⟨ws, hws⟩ := Option.isSome_iff_exists.mp (ih hvs)
    simp [List.mapM_cons, hws]

/-- **Every live node of an ordered graph has a value**, if its meaning gives one whenever all
operands have values. -/
theorem isSome_value? (hg : g.Ordered) (hM : ∀ n ∈ g.live, ∀ vs : List (Option V),
      vs.length = n.inputs.length → (∀ v ∈ vs, v.isSome) → (M n vs).isSome)
    (hn : g.LiveAt i n) : (M.value? g n.name).isSome := by
  induction i using Nat.strongRecOn generalizing n with
  | _ i ih =>
    rw [solves_value? hg i n hn]
    refine hM n (Graph.mem_live.mpr ⟨i, hn⟩) _ (List.length_map _) fun v hv => ?_
    obtain ⟨x, hx, rfl⟩ := List.mem_map.mp hv
    obtain ⟨j, m, hj, hm, rfl⟩ := hg.earlier i n hn x hx
    exact ih j hj hm

end Meaning

end LayerGraph
