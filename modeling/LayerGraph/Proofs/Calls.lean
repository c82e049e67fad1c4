import LayerGraph.Proofs.Visit

/-!
# Calls in any order

A fusion visits the live nodes once, in the order of their declaration, each with the family that
its operator has. Here nothing of this is assumed: a *call* is a visit to any position with any
family, and calls come in any order and any number, in a graph whose names may be borne twice and
whose nodes may refer to themselves.

A call works on its graph in place (`LayerGraph.Graph.callInPlace`), so it could leave a graph
half changed. It does not, because all that can fail comes before the first change
(`LayerGraph.Graph.call_eq`). What a call may change is its *contract*
(`LayerGraph.Graph.Contract`), and what the contract leaves of a node is kept by any number of
calls (`LayerGraph.Graph.Outlasts`): a slot is filled once and only while there is room, and a mark
stays.
-/

namespace LayerGraph

namespace Node

/-- **There is room for a contribution** in a node: its slot is empty. For a batch normalization
the slot of an activation has to be empty too, and the node must not declare an activation other
than the identity. -/
def HasRoomFor (m : Node) : Contribution → Prop
  | .activation _ => m.absorbed.activation = none
  | .norm _ => m.absorbed.norm = none ∧ m.absorbed.activation = none ∧
      ∀ act, m.attrs.str? "activation" = some act → act = "linear"

theorem declaresActivation_eq_false_iff {m : Node} : m.declaresActivation = false ↔
    ∀ act, m.attrs.str? "activation" = some act → act = "linear" := by
  rw [declaresActivation]
  cases m.attrs.str? "activation" <;> simp

theorem accepts_iff {m : Node} {c : Contribution} : m.accepts c = true ↔ m.HasRoomFor c := by
  cases c with
  | activation a => simp [accepts, Absorbed.accepts, HasRoomFor]
  | norm p =>
    simp only [accepts, Absorbed.accepts, HasRoomFor, Bool.and_eq_true, Option.isNone_iff_eq_none,
      Bool.not_eq_true', declaresActivation_eq_false_iff, and_assoc]

/-- **What a node has absorbed is written once**: it may become `a` if nothing of it is lost or
replaced, and if a batch normalization is added only to a node without an activation, absorbed or
declared. -/
structure WrittenOnce (n : Node) (a : Absorbed) : Prop where
  activation : ∀ x, n.absorbed.activation = some x → a.activation = some x
  norm : ∀ x, n.absorbed.norm = some x → a.norm = some x
  normFirst : a.norm ≠ n.absorbed.norm → n.absorbed.activation = none ∧
    ∀ act, n.attrs.str? "activation" = some act → act = "linear"

theorem WrittenOnce.refl (n : Node) : n.WrittenOnce n.absorbed :=
  ⟨fun _ => id, fun _ => id, fun h => absurd rfl h⟩

theorem WrittenOnce.trans {n m : Node} {a : Absorbed} (h : n.WrittenOnce m.absorbed)
    (hattrs : m.attrs = n.attrs) (h' : m.WrittenOnce a) : n.WrittenOnce a where
  activation x hx := h'.activation x (h.activation x hx)
  norm x hx := h'.norm x (h.norm x hx)
  normFirst hne := by
    by_cases hm : m.absorbed.norm = n.absorbed.norm
    · obtain ⟨hnone, hlinear⟩ := h'.normFirst (hm ▸ hne)
      refine ⟨Option.eq_none_iff_forall_ne_some.mpr fun x hx => ?_, hattrs ▸ hlinear⟩
      rw [h.activation x hx] at hnone
      cases hnone
    · exact h.normFirst hm

/-- Absorbing what there is room for writes once. -/
theorem HasRoomFor.writtenOnce {m : Node} {c : Contribution} (h : m.HasRoomFor c) :
    m.WrittenOnce (m.absorbed.absorb c) := by
  cases c with
  | activation a =>
    refine ⟨fun x hx => ?_, fun _ => id, fun hne => absurd rfl hne⟩
    rw [h] at hx
    cases hx
  | norm p =>
    obtain ⟨hnorm, hact⟩ := h
    refine ⟨fun _ => id, fun x hx => ?_, fun _ => hact⟩
    rw [hnorm] at hx
    cases hx

end Node

theorem FusionPolicy.rule?_empty (format : ModelFormat) (op : String) :
    FusionPolicy.empty.rule? format op = none := by
  cases format <;> rfl

namespace Graph

variable {cx : FusionContext} {g g' : Graph} {i id t : Nat} {n m : Node} {c : Contribution}
  {family : Family} {o : Outcome} {e : ConvertError}

/-! ### A call in place -/

/-- A program that changes a graph and may fail; what it has changed by then stays changed. -/
abbrev InPlace := ExceptT ConvertError (StateM Graph)

/-- **A call** to the node at a position, in the graph that it works on: the tests, then what the
node contributes, which is where a call can fail, and only then the changes, one after the other. -/
def callInPlace (cx : FusionContext) (id : Nat) (family : Family) (g : Graph) : InPlace Outcome :=
  match g.node? id with
  | none => pure .kept
  | some n =>
    if n.deleted then pure .kept
    else if family = .dropout then do
      modifyThe Graph (·.splice n.name n.inputs)
      modifyThe Graph (·.remove id)
      return .elided
    else match cx.policy.rule? cx.format n.opType with
      | none => pure .kept
      | some rule =>
        if !rule.isFusible then pure .kept
        else do
          match ← liftExcept (n.contribution? cx.format family) with
          | none => return .kept
          | some c =>
            match g.target? rule c n.inputs with
            | none => return .kept
            | some target =>
              modifyThe Graph (·.modify target fun t => t.absorb c)
              modifyThe Graph (·.splice n.name ((g.node? target).map Node.name).toList)
              modifyThe Graph (·.remove id)
              return .absorbedBy target

/-- What a call returns, and the graph that it leaves. -/
def call (cx : FusionContext) (g : Graph) (id : Nat) (family : Family) :
    Except ConvertError Outcome × Graph :=
  (callInPlace cx id family g).run.run g

/-- **In place, a call does what a visit does**: it fails before the first change. -/
theorem call_eq (cx : FusionContext) (g : Graph) (id : Nat) (family : Family) :
    g.call cx id family = match g.fuseNode cx id family with
      | .ok (g', o) => (.ok o, g')
      | .error e => (.error e, g) := by
  rw [call, callInPlace, fuseNode]
  cases hn : g.node? id with
  | none => rfl
  | some n =>
    simp only
    split
    · rfl
    · split
      · rfl
      · cases hrule : cx.policy.rule? cx.format n.opType with
        | none => rfl
        | some rule =>
          simp only
          split
          · rfl
          · cases hc : n.contribution? cx.format family with
            | error e => rfl
            | ok oc =>
              cases oc with
              | none => rfl
              | some c =>
                simp only [liftExcept, pure_bind]
                cases ht : g.target? rule c n.inputs with
                | none => rfl
                | some t =>
                  obtain ⟨m, hm, -⟩ := exists_target ht
                  simp only [merge, hm.1]
                  rfl

/-! ### What a call may change -/

/-- **A node gives way to some names**: the node at `id` is marked, a live node that refers to its
name refers to the names instead, and what a node has absorbed becomes what `slots` says. Nothing
else changes. -/
def Yields (g g' : Graph) (id : Nat) (name : String) (names : List String)
    (slots : Nat → Absorbed → Absorbed) : Prop :=
  ∀ i, g'.node? i = (g.node? i).map fun k => { k with
    inbound := if k.deleted = false ∧ name ∈ k.inputs then k.inbound.map (substitute name names)
      else k.inbound
    absorbed := slots i k.absorbed
    deleted := k.deleted || i == id }

/-- Rewriting shows only in a live node that refers to the name. -/
theorem rewire_eq (name : String) (names : List String) (k : Node) :
    (if k.deleted then k else k.rewire name names) = { k with
      inbound := if k.deleted = false ∧ name ∈ k.inputs then k.inbound.map (substitute name names)
        else k.inbound } := by
  by_cases hd : k.deleted = true
  · rw [if_pos hd, if_neg fun h => Bool.false_ne_true (h.1.symm.trans hd)]
    cases k
    rfl
  · rw [if_neg hd]
    by_cases hx : name ∈ k.inputs
    · rw [if_pos ⟨Bool.of_not_eq_true hd, hx⟩]
      rfl
    · rw [if_neg fun h => hx h.2, Node.rewire_of_not_mem hx]
      cases k
      rfl

theorem yields_retire (g : Graph) (id : Nat) (name : String) (names : List String) :
    Yields g (g.retire id name names) id name names fun _ a => a := by
  intro i
  rw [retire, remove, node?_modify, node?_splice, Option.map_map]
  refine congrArg (Option.map · (g.node? i)) (funext fun k => ?_)
  rw [Function.comp_apply, rewire_eq]
  by_cases hid : i = id
  · simp [hid]
  · simp [hid]

/-- **Merging a node into a target** lets it give way to the target, which absorbs what the node
contributes. -/
theorem yields_merge (ht : g.node? t = some m) :
    Yields g (g.merge id n c t) id n.name [m.name] fun i a => if i = t then a.absorb c else a := by
  intro i
  rw [merge_eq ht, yields_retire, node?_modify, Option.map_map]
  refine congrArg (Option.map · (g.node? i)) (funext fun k => ?_)
  by_cases hit : i = t
  · simp only [Function.comp_apply, if_pos hit]
    rfl
  · simp only [Function.comp_apply, if_neg hit]

/-! ### Which operand absorbs a contribution -/

/-- **A name takes a contribution** of the node `n`: it belongs to a live node which the policy lets
absorb nodes such as `n`, and which has room. -/
def Takes (cx : FusionContext) (g : Graph) (n : Node) (c : Contribution) (x : String) (t : Nat) :
    Prop :=
  g.find? x = some t ∧ ∃ m, g.LiveAt t m ∧ cx.policy.allows cx.format n.opType m.opType = true ∧
    m.HasRoomFor c

theorem filter_qualifies_iff {rule : FusionRule} {x : String}
    (hrule : cx.policy.rule? cx.format n.opType = some rule) :
    (g.find? x).filter (g.qualifies rule c) = some t ↔ Takes cx g n c x t := by
  rw [Option.filter_eq_some_iff, Takes]
  refine and_congr_right fun _ => ?_
  rw [qualifies]
  cases hm : g.node? t with
  | none => simp [LiveAt, hm]
  | some m => simp [LiveAt, hm, FusionPolicy.allows, hrule, Node.accepts_iff, and_assoc]

/-- **The target is found under the first operand that takes the contribution.** -/
theorem exists_first_of_target? {rule : FusionRule} {operands : List String}
    (hrule : cx.policy.rule? cx.format n.opType = some rule)
    (h : g.target? rule c operands = some t) :
    ∃ before x after, operands = before ++ x :: after ∧ Takes cx g n c x t ∧
      ∀ y ∈ before, ∀ t', ¬ Takes cx g n c y t' := by
  obtain ⟨before, x, after, hsplit, hx, hbefore⟩ := List.findSome?_eq_some_iff.mp h
  refine ⟨before, x, after, hsplit, (filter_qualifies_iff hrule).mp hx, fun y hy t' ht' => ?_⟩
  have hnone := hbefore y hy
  rw [(filter_qualifies_iff hrule).mpr ht'] at hnone
  cases hnone

/-! ### The contract of a call -/

/-- **The contract of a call**, for what it returns and the graph that it leaves. A failure and a
node that is kept leave the graph as it is. A dropout that is elided gives way to its operands. A
node is absorbed only if it is live and has something to contribute, by the node under the first of
its operands that takes the contribution. It gives way to that node, whose slot is filled. -/
def Contract (cx : FusionContext) (g : Graph) (id : Nat) (family : Family) :
    Except ConvertError Outcome × Graph → Prop
  | (.error _, g') => g' = g
  | (.ok .kept, g') => g' = g
  | (.ok .elided, g') => family = .dropout ∧
      ∃ n, g.LiveAt id n ∧ Yields g g' id n.name n.inputs fun _ a => a
  | (.ok (.absorbedBy t), g') => ∃ n c before x after m, g.LiveAt id n ∧
      n.contribution? cx.format family = .ok (some c) ∧ n.inputs = before ++ x :: after ∧
      Takes cx g n c x t ∧ (∀ y ∈ before, ∀ t', ¬ Takes cx g n c y t') ∧ g.node? t = some m ∧
      Yields g g' id n.name [m.name] fun i a => if i = t then a.absorb c else a

theorem contract_call (cx : FusionContext) (g : Graph) (id : Nat) (family : Family) :
    Contract cx g id family (g.call cx id family) := by
  rw [call_eq]
  cases h : g.fuseNode cx id family with
  | error e => exact rfl
  | ok r =>
    obtain ⟨g', o⟩ := r
    rcases cases_of_fuseNode h with ⟨rfl, rfl⟩ | ⟨n, hn, hdrop, rfl, rfl⟩ |
      ⟨n, rule, c, t, hn, hrule, hc, ht, rfl, rfl⟩
    · exact rfl
    · exact ⟨hdrop, n, hn, yields_retire g id n.name n.inputs⟩
    · obtain ⟨before, x, after, hsplit, hx, hbefore⟩ := exists_first_of_target? hrule ht
      have htakes := hx
      obtain ⟨-, m, hm, -⟩ := htakes
      exact ⟨n, c, before, x, after, m, hn, hc, hsplit, hx, hbefore, hm.1, yields_merge hm.1⟩

/-! ### Any number of calls -/

/-- The graph after some calls, each of them with a position and a family, whatever they return. -/
def calls (cx : FusionContext) : Graph → List (Nat × Family) → Graph
  | g, [] => g
  | g, (id, family) :: cs => calls cx (g.call cx id family).2 cs

/-- **What calls leave of a node**: it says the same of itself, the mark stays, and so does what a
slot is filled with. Where no operator has a rule, only a node that is visited as a dropout gets
the mark. -/
structure Outlasts (cx : FusionContext) (cs : List (Nat × Family)) (i : Nat) (n m : Node) :
    Prop where
  bare : m.bare = n.bare
  deleted : n.deleted = true → m.deleted = true
  absorbed : n.WrittenOnce m.absorbed
  dropouts : (∀ op, cx.policy.rule? cx.format op = none) → m.deleted = true →
    n.deleted = true ∨ (i, .dropout) ∈ cs

theorem Outlasts.refl (cx : FusionContext) (cs : List (Nat × Family)) (i : Nat) (n : Node) :
    Outlasts cx cs i n n :=
  ⟨rfl, id, .refl n, fun _ => Or.inl⟩

theorem Outlasts.trans {cs cs' : List (Nat × Family)} {k : Nat} {l : Node}
    (h : Outlasts cx cs k n m) (h' : Outlasts cx cs' k m l) : Outlasts cx (cs ++ cs') k n l where
  bare := h'.bare.trans h.bare
  deleted hn := h'.deleted (h.deleted hn)
  absorbed := h.absorbed.trans (Node.attrs_of_bare h.bare) h'.absorbed
  dropouts hempty hl := by
    rcases h'.dropouts hempty hl with hm | hmem
    · exact (h.dropouts hempty hm).imp_right (List.mem_append_left _)
    · exact Or.inr (List.mem_append_right _ hmem)

/-- A node that gives way may have been visited as a dropout, and has to be where there are no
rules. What the others have absorbed is written once. -/
theorem Yields.outlasts {name : String} {names : List String} {slots : Nat → Absorbed → Absorbed}
    (h : Yields g g' id name names slots)
    (hslots : ∀ n, g.node? i = some n → n.WrittenOnce (slots i n.absorbed))
    (hdrop : (∀ op, cx.policy.rule? cx.format op = none) → family = .dropout) :
    Option.Rel (Outlasts cx [(id, family)] i) (g.node? i) (g'.node? i) := by
  rw [h i]
  cases hn : g.node? i with
  | none => exact .none
  | some n =>
    refine .some ⟨rfl, fun hd => ?_, hslots n hn, fun hempty hd => ?_⟩
    · simp [hd]
    · rcases Bool.or_eq_true_iff.mp hd with hd | hid
      · exact Or.inl hd
      · rw [hdrop hempty, eq_of_beq hid]
        exact Or.inr List.mem_cons_self

theorem Contract.outlasts {r : Except ConvertError Outcome × Graph}
    (h : Contract cx g id family r) (i : Nat) :
    Option.Rel (Outlasts cx [(id, family)] i) (g.node? i) (r.2.node? i) := by
  have hsame : Option.Rel (Outlasts cx [(id, family)] i) (g.node? i) (g.node? i) := by
    cases g.node? i with
    | none => exact .none
    | some n => exact .some (.refl ..)
  match r, h with
  | (.error _, _), rfl => exact hsame
  | (.ok .kept, _), rfl => exact hsame
  | (.ok .elided, _), ⟨hdrop, n, hn, hyields⟩ =>
    exact hyields.outlasts (fun n _ => .refl n) fun _ => hdrop
  | (.ok (.absorbedBy t), _), ⟨n, c, _, x, _, m, _, _, _, htakes, _, hm, hyields⟩ =>
    obtain ⟨-, m', hm', hallows, hroom⟩ := htakes
    refine hyields.outlasts (fun k hk => ?_) fun hempty => ?_
    · by_cases hit : i = t
      · obtain rfl : k = m' := Option.some.inj (hk.symm.trans (hit ▸ hm'.1))
        rw [if_pos hit]
        exact hroom.writtenOnce
      · rw [if_neg hit]
        exact .refl k
    · rw [FusionPolicy.allows, hempty] at hallows
      cases hallows

/-- **A slot is filled once, a mark stays**: what one call leaves of a node, any number of calls
leave of it. -/
theorem outlasts_calls (cx : FusionContext) :
    ∀ (cs : List (Nat × Family)) (g : Graph) (i : Nat),
      Option.Rel (Outlasts cx cs i) (g.node? i) ((g.calls cx cs).node? i)
  | [], g, i => by
    rw [calls]
    cases g.node? i with
    | none => exact .none
    | some n => exact .some (.refl ..)
  | (id, family) :: cs, g, i => by
    have hfirst := (contract_call cx g id family).outlasts i
    have hrest := outlasts_calls cx cs (g.call cx id family).2 i
    rw [calls]
    generalize g.node? i = on at hfirst
    generalize (g.call cx id family).2.node? i = om at hfirst hrest
    generalize (((g.call cx id family).2.calls cx cs).node? i) = ol at hrest
    cases hfirst with
    | none =>
      cases hrest
      exact .none
    | some hnm =>
      cases hrest with
      | some hml => exact .some (hnm.trans hml)

/-- **The contract of all calls**: whatever graph the calls start from, and however they mix nodes
and families, each of them does what a visit does and keeps its contract in the graph that the
others before it have left. What all of them together leave of a node is what one of them leaves. -/
theorem calls_contract (cx : FusionContext) (g : Graph) (cs : List (Nat × Family)) :
    (∀ before id family after, cs = before ++ (id, family) :: after →
      (g.calls cx before).call cx id family =
          (match (g.calls cx before).fuseNode cx id family with
          | .ok (g', o) => (.ok o, g')
          | .error e => (.error e, g.calls cx before)) ∧
        Contract cx (g.calls cx before) id family ((g.calls cx before).call cx id family)) ∧
      ∀ i, Option.Rel (Outlasts cx cs i) (g.node? i) ((g.calls cx cs).node? i) :=
  ⟨fun _ id family _ _ => ⟨call_eq cx _ id family, contract_call cx _ id family⟩,
    outlasts_calls cx cs g⟩

/-- Two nodes of one name, to which the second of them refers, and a dropout that refers to them. -/
def twiceNamed : Graph := ⟨[
  { name := "conv", opType := "Conv2D", inbound := some ["in"] },
  { name := "relu", opType := "ReLU", inbound := some ["drop", "conv"] },
  { name := "drop", opType := "Dropout", inbound := some ["conv", "relu"] },
  { name := "relu", opType := "ReLU", inbound := some ["relu", "conv"] }]⟩

/-- The convolution absorbs one of the two activations. Without rules it absorbs none, and only the
dropout gets a mark. -/
theorem calls_twiceNamed :
    (twiceNamed.call ⟨.keras, .standard, {}⟩ 3 .activation).1 = .ok (.absorbedBy 0) ∧
      ((twiceNamed.calls ⟨.keras, .standard, {}⟩ [(3, .activation), (2, .dropout)]).call
        ⟨.keras, .standard, {}⟩ 1 .activation).1 = .ok .kept ∧
      Contract ⟨.keras, .standard, {}⟩
        (twiceNamed.calls ⟨.keras, .standard, {}⟩ [(3, .activation), (2, .dropout)]) 1 .activation
        ((twiceNamed.calls ⟨.keras, .standard, {}⟩ [(3, .activation), (2, .dropout)]).call
          ⟨.keras, .standard, {}⟩ 1 .activation) ∧
      ∀ i m, (twiceNamed.calls ⟨.keras, .empty, {}⟩ [(3, .activation), (2, .dropout)]).node? i =
        some m → m.deleted = true → i = 2 := by
  refine ⟨by decide, by decide, ?_, fun i m hm hd => ?_⟩
  · exact ((calls_contract ⟨.keras, .standard, {}⟩ twiceNamed
      [(3, .activation), (2, .dropout), (1, .activation)]).1 _ 1 .activation [] rfl).2
  · have hrel := (calls_contract ⟨.keras, .empty, {}⟩ twiceNamed
      [(3, .activation), (2, .dropout)]).2 i
    rw [hm] at hrel
    generalize hn : twiceNamed.node? i = on at hrel
    cases hrel with
    | @some n _ hout =>
      have hall : ∀ n ∈ twiceNamed.nodes, n.deleted = false := by decide
      rcases hout.dropouts (FusionPolicy.rule?_empty _) hd with hdel | hmem
      · rw [hall n (List.mem_of_getElem? hn)] at hdel
        cases hdel
      · simpa using hmem

end Graph

end LayerGraph
