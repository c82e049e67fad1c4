import LayerGraph.Proofs.Evaluation
import LayerGraph.Proofs.Visit

/-!
# What a graph computes

An *interpretation* (`LayerGraph.Interpretation`) says what layers compute over some domain of
values: a layer is a function of the values of its operands, a dropout hands its operand on,
and whatever a node hands over when it is absorbed is a unary function. A node that has absorbed
something means its activation after its batch normalization after its own function.

So an interpretation gives nodes a meaning, and the values of a graph under it
(`LayerGraph.Graph.value?`) are those of this meaning: in an ordered graph they are the only
assignment under which every live node has the value that its operands give it
(`LayerGraph.Graph.solves_value?`, `LayerGraph.Graph.Solves.unique`).
-/

namespace LayerGraph

universe u

variable {V : Type u}

/-! ### Functions of one operand -/

namespace Node

variable {cx : FusionContext} {n m : Node} {c : Contribution}

/-- Activations, batch normalizations and dropouts are functions of one operand. -/
def IsUnary (cx : FusionContext) (n : Node) : Prop :=
  ∃ family ∈ [Family.activation, .batchNorm, .dropout],
    Family.resolve cx.format cx.custom n.opType = .ok family

instance (cx : FusionContext) (n : Node) : Decidable (n.IsUnary cx) :=
  inferInstanceAs (Decidable (∃ family ∈ [Family.activation, .batchNorm, .dropout],
    Family.resolve cx.format cx.custom n.opType = .ok family))

theorem IsUnary.of_bare (h : n.IsUnary cx) (hb : n.bare = m.bare) : m.IsUnary cx := by
  rwa [IsUnary, ← opType_of_bare hb]

theorem isUnary_of_dropout (h : Family.resolve cx.format cx.custom n.opType = .ok .dropout) :
    n.IsUnary cx :=
  ⟨.dropout, by simp, h⟩

/-- Only functions of one operand are ever handed over. -/
theorem Offers.isUnary (h : n.Offers cx c) : n.IsUnary cx := by
  rcases h.cases with ⟨hf, -⟩ | ⟨hf, -⟩
  · exact ⟨.activation, by simp, hf⟩
  · exact ⟨.batchNorm, by simp, hf⟩

end Node

/-! ### Interpretations -/

/-- **An interpretation of layers**: a layer is a function of the values of its operands, and what
a node hands over is a function of one value. -/
structure Interpretation (V : Type u) where
  layer : Node → List V → V
  part : Contribution → V → V

/-- A function of one value, applied to the values of operands. -/
def applyUnary (f : V → V) : List (Option V) → Option V
  | [v] => v.map f
  | _ => none

namespace Interpretation

variable (I : Interpretation V) (cx : FusionContext)

/-- What a node computes by itself; nothing unless all operands have values. -/
def own (n : Node) (vs : List (Option V)) : Option V :=
  match Family.resolve cx.format cx.custom n.opType with
  | .ok .dropout => applyUnary id vs
  | .ok family =>
    match n.contribution? cx.format family with
    | .ok (some c) => applyUnary (I.part c) vs
    | _ => (vs.mapM id).map (I.layer n.bare)
  | .error _ => (vs.mapM id).map (I.layer n.bare)

/-- What becomes of a value by what its node has absorbed: the activation comes last. -/
def fused (a : Absorbed) (v : V) : V :=
  let normed := match a.norm with
    | some x => I.part (.norm x) v
    | none => v
  match a.activation with
  | some x => I.part (.activation x) normed
  | none => normed

/-- **The meaning of a node**: its own function, and after it what the node has absorbed. -/
def meaning (n : Node) (vs : List (Option V)) : Option V := (I.own cx n vs).map (I.fused n.absorbed)

variable {I cx} {n m : Node} {c : Contribution} {a : Absorbed} {v : V} {vs : List (Option V)}

theorem own_of_bare (h : n.bare = m.bare) : I.own cx n vs = I.own cx m vs := by
  simp only [own, Node.opType_of_bare h, Node.contribution?_of_bare h, h]

/-- The meaning of a node lies in what it says of itself and what it has absorbed. -/
theorem meaning_congr (hb : n.bare = m.bare) (ha : n.absorbed = m.absorbed) :
    I.meaning cx n vs = I.meaning cx m vs := by
  rw [meaning, meaning, own_of_bare hb, ha]

theorem own_of_dropout (h : Family.resolve cx.format cx.custom n.opType = .ok .dropout) :
    I.own cx n vs = applyUnary id vs := by
  rw [own, h]

theorem own_of_offers (h : n.Offers cx c) : I.own cx n vs = applyUnary (I.part c) vs := by
  obtain ⟨family, hf, hc⟩ := h
  have hdrop : family ≠ .dropout := by
    rintro rfl
    cases hc
  rw [own, hf]
  split
  · next h => exact absurd (Except.ok.inj h) hdrop
  · next family' _ h =>
    obtain rfl := Except.ok.inj h
    rw [hc]
  · next h => cases h

/-- A node has a value if its operands have values, and there is one of them where there must
be one. -/
theorem isSome_own (hall : ∀ v ∈ vs, v.isSome) (hlen : n.IsUnary cx → vs.length = 1) :
    (I.own cx n vs).isSome := by
  have hunary : n.IsUnary cx → ∀ f : V → V, (applyUnary f vs).isSome := by
    intro hn f
    obtain ⟨v, rfl⟩ := List.length_eq_one_iff.mp (hlen hn)
    rw [applyUnary, Option.isSome_map]
    exact hall v List.mem_cons_self
  have hlayer : (vs.mapM id).isSome := Meaning.isSome_mapM_id hall
  rw [own]
  split
  · next h => exact hunary (Node.isUnary_of_dropout h) id
  · next family _ hf =>
    split
    · next c hc => exact hunary (Node.Offers.isUnary ⟨family, hf, hc⟩) _
    · rwa [Option.isSome_map]
  · rwa [Option.isSome_map]

@[simp] theorem fused_empty : I.fused {} v = v := rfl

/-- **What is absorbed is computed last.** This is what the rule of acceptance is for: a batch
normalization is never absorbed after an activation. -/
theorem fused_absorb (h : a.accepts c = true) :
    I.fused (a.absorb c) v = I.part c (I.fused a v) := by
  obtain ⟨activation, norm⟩ := a
  cases c with
  | activation x =>
    obtain rfl : activation = none := by simpa [Absorbed.accepts] using h
    rfl
  | norm x =>
    obtain ⟨rfl, rfl⟩ : norm = none ∧ activation = none := by simpa [Absorbed.accepts] using h
    rfl

theorem meaning_absorb (h : n.accepts c = true) :
    I.meaning cx (n.absorb c) vs = (I.meaning cx n vs).map (I.part c) := by
  have hacc : n.absorbed.accepts c = true := (Bool.and_eq_true_iff.mp h).1
  rw [meaning, meaning, Option.map_map, Node.absorb_absorbed, own_of_bare (n.absorb_bare c)]
  exact congrArg (Option.map · _) (funext fun v => fused_absorb hacc)

/-! ### One pass over the nodes -/

variable (I cx)

/-- The values after some nodes, computed from those before. -/
def evaluate : (String → Option V) → List Node → String → Option V
  | ρ, [] => ρ
  | ρ, n :: ns =>
    evaluate (fun x =>
      if x = n.name ∧ n.deleted = false then I.meaning cx n (n.inputs.map ρ) else ρ x) ns

variable {I cx} {ρ : String → Option V} {ns : List Node}

/-- The pass is that of the meaning. -/
theorem evaluate_eq : I.evaluate cx ρ ns = Meaning.evaluate (I.meaning cx) ρ ns := by
  induction ns generalizing ρ with
  | nil => rfl
  | cons n ns ih => rw [evaluate, Meaning.evaluate, ih]

end Interpretation

/-! ### The values of a graph -/

namespace Graph

variable (I : Interpretation V) (cx : FusionContext) (g : Graph)

/-- **The value of a name**, if it belongs to a live node that has one. -/
def value? : String → Option V := I.evaluate cx (fun _ => none) g.nodes

/-- Every live node has the value that its operands give it. -/
def Solves (ρ : String → Option V) : Prop :=
  ∀ i n, g.LiveAt i n → ρ n.name = I.meaning cx n (n.inputs.map ρ)

variable {I cx g} {ρ ρ' : String → Option V} {i : Nat} {n : Node} {x : String}

theorem value?_eq : g.value? I cx = Meaning.value? (I.meaning cx) g := Interpretation.evaluate_eq

theorem solves_iff : g.Solves I cx ρ ↔ Meaning.Solves (I.meaning cx) g ρ := Iff.rfl

/-- **The pass solves an ordered graph.** -/
theorem solves_value? (hg : g.Ordered) : g.Solves I cx (g.value? I cx) := by
  rw [solves_iff, value?_eq]
  exact Meaning.solves_value? hg

/-- **An ordered graph has one solution**, as far as its live nodes are concerned. -/
theorem Solves.unique (hg : g.Ordered) (h : g.Solves I cx ρ) (h' : g.Solves I cx ρ')
    (hn : g.LiveAt i n) : ρ n.name = ρ' n.name :=
  Meaning.Solves.unique hg (solves_iff.mp h) (solves_iff.mp h') hn

/-- Solutions agree on the operands of live nodes. -/
theorem Solves.map_inputs (hg : g.Ordered) (h : g.Solves I cx ρ) (h' : g.Solves I cx ρ')
    (hn : g.LiveAt i n) : n.inputs.map ρ = n.inputs.map ρ' :=
  Meaning.Solves.map_inputs hg (solves_iff.mp h) (solves_iff.mp h') hn

/-! ### Every live node has a value -/

/-- **Every live function of one operand has one operand.** -/
def UnaryWired (cx : FusionContext) (g : Graph) : Prop :=
  ∀ n ∈ g.live, n.IsUnary cx → n.inputs.length = 1

instance (cx : FusionContext) (g : Graph) : Decidable (g.UnaryWired cx) :=
  inferInstanceAs (Decidable (∀ n ∈ g.live, n.IsUnary cx → n.inputs.length = 1))

/-- **Every live node of a well-wired ordered graph has a value.** -/
theorem isSome_value? (hg : g.Ordered) (hw : g.UnaryWired cx) (hn : g.LiveAt i n) :
    (g.value? I cx n.name).isSome := by
  rw [value?_eq]
  refine Meaning.isSome_value? hg (fun m hm vs hlen hall => ?_) hn
  rw [Interpretation.meaning, Option.isSome_map]
  exact Interpretation.isSome_own hall fun hu => hlen.trans (hw m hm hu)

end Graph

end LayerGraph
