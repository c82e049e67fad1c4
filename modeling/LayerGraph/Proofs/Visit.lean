import LayerGraph.Fusion
import LayerGraph.Proofs.Ordered

/-!
# What a visit can do

Fusion looks at one node after the other. `LayerGraph.Graph.visit` is one such look, with the
family of the node resolved; whatever a run of fusion keeps, it keeps because a visit does
(`LayerGraph.Graph.fuseFrom_invariant`).

A visit that succeeds does one of three things, and `LayerGraph.Graph.Visited` says all that is
known in each case: the node is kept, a dropout gives way to its operands, or the node gives
way to the operand that absorbs it. In the last two cases the node is retired; nothing else
leaves the graph, and no node ever changes what it says of itself.
-/

namespace LayerGraph

/-- A family that no custom object describes is that of a built-in operator. -/
theorem Family.ofOp?_of_resolve {format : ModelFormat} {custom : CustomObjects} {op : String}
    {family : Family} (h : resolve format custom op = .ok family)
    (hbuilt : ∀ l, family ≠ .custom l) : ofOp? format op = some family := by
  rw [resolve] at h
  split at h
  · next family' hop =>
    obtain rfl := Except.ok.inj h
    exact hop
  · split at h
    · exact absurd (Except.ok.inj h).symm (hbuilt _)
    · cases h

/-! ### Contributions -/

namespace Node

/-- The node after it has absorbed something. -/
def absorb (n : Node) (c : Contribution) : Node := { n with absorbed := n.absorbed.absorb c }

@[simp] theorem absorb_name (n : Node) (c : Contribution) : (n.absorb c).name = n.name := rfl

@[simp] theorem absorb_opType (n : Node) (c : Contribution) : (n.absorb c).opType = n.opType := rfl

@[simp] theorem absorb_inputs (n : Node) (c : Contribution) : (n.absorb c).inputs = n.inputs := rfl

@[simp] theorem absorb_deleted (n : Node) (c : Contribution) :
    (n.absorb c).deleted = n.deleted := rfl

@[simp] theorem absorb_bare (n : Node) (c : Contribution) : (n.absorb c).bare = n.bare := rfl

@[simp] theorem absorb_absorbed (n : Node) (c : Contribution) :
    (n.absorb c).absorbed = n.absorbed.absorb c := rfl

/-- What a node contributes is a matter of what it says of itself. -/
theorem contribution?_bare (n : Node) (format : ModelFormat) (family : Family) :
    n.bare.contribution? format family = n.contribution? format family := by
  cases format <;> rfl

theorem opType_of_bare {n m : Node} (h : n.bare = m.bare) : n.opType = m.opType :=
  (congrArg Node.opType h :)

theorem name_of_bare {n m : Node} (h : n.bare = m.bare) : n.name = m.name :=
  (congrArg Node.name h :)

theorem attrs_of_bare {n m : Node} (h : n.bare = m.bare) : n.attrs = m.attrs :=
  (congrArg Node.attrs h :)

theorem contribution?_of_bare {n m : Node} (h : n.bare = m.bare) (format : ModelFormat)
    (family : Family) : n.contribution? format family = m.contribution? format family := by
  rw [← contribution?_bare n, ← contribution?_bare m, h]

/-- The node hands over `c` when it is absorbed. -/
def Offers (cx : FusionContext) (n : Node) (c : Contribution) : Prop :=
  ∃ family, Family.resolve cx.format cx.custom n.opType = .ok family ∧
    n.contribution? cx.format family = .ok (some c)

theorem Offers.of_bare {cx : FusionContext} {n m : Node} {c : Contribution} (h : n.Offers cx c)
    (hb : n.bare = m.bare) : m.Offers cx c := by
  obtain ⟨family, hf, hc⟩ := h
  exact ⟨family, opType_of_bare hb ▸ hf, contribution?_of_bare hb .. ▸ hc⟩

/-- A node has at most one thing to hand over. -/
theorem Offers.unique {cx : FusionContext} {n : Node} {c c' : Contribution} (h : n.Offers cx c)
    (h' : n.Offers cx c') : c = c' := by
  obtain ⟨family, hf, hc⟩ := h
  obtain ⟨family', hf', hc'⟩ := h'
  obtain rfl := Except.ok.inj (hf.symm.trans hf')
  exact Option.some.inj (Except.ok.inj (hc.symm.trans hc'))

/-- What there is to offer: the activation that a node stands for, or the batch normalization. -/
theorem Offers.cases {cx : FusionContext} {n : Node} {c : Contribution} (h : n.Offers cx c) :
    (Family.resolve cx.format cx.custom n.opType = .ok .activation ∧
        c = .activation (n.activationPart cx.format)) ∨
      (Family.resolve cx.format cx.custom n.opType = .ok .batchNorm ∧
        c = .norm ⟨n.normParams cx.format, n.attrs.float? "epsilon", n.name⟩) := by
  obtain ⟨family, hf, hc⟩ := h
  cases family with
  | activation => exact Or.inl ⟨hf, (Option.some.inj (Except.ok.inj hc)).symm⟩
  | batchNorm =>
    simp only [contribution?, normPart] at hc
    split at hc
    · next part hpart =>
      obtain rfl := Option.some.inj (Except.ok.inj hc)
      split at hpart
      · cases hpart
      · exact Or.inr ⟨hf, by rw [Except.ok.inj hpart]⟩
    · cases hc
  | _ => cases hc

/-- A batch normalization without its statistics is an invalid layer. -/
theorem exists_invalidLayer_of_normPart {n : Node} {format : ModelFormat} {e : ConvertError}
    (h : n.normPart format = .error e) : ∃ fault, e = .invalidLayer n.name fault := by
  rw [normPart] at h
  split at h
  · cases h
    exact ⟨_, rfl⟩
  · cases h

/-- Only a batch normalization can fail to contribute. -/
theorem exists_invalidLayer_of_contribution? {n : Node} {format : ModelFormat} {family : Family}
    {e : ConvertError} (h : n.contribution? format family = .error e) :
    ∃ fault, e = .invalidLayer n.name fault := by
  cases family <;> simp only [contribution?, reduceCtorEq] at h
  split at h
  · cases h
  · next he =>
    cases h
    exact exists_invalidLayer_of_normPart he

end Node

namespace Graph

variable {cx : FusionContext} {g g' : Graph} {i id t k : Nat} {ids : List Nat} {n m : Node}
  {c : Contribution} {o : Outcome} {e : ConvertError}

/-! ### The two changes of a visit -/

theorem elide_eq (g : Graph) (id : Nat) (n : Node) :
    g.elide id n = g.retire id n.name n.inputs := rfl

theorem merge_eq (ht : g.node? t = some m) :
    g.merge id n c t = (g.modify t fun m => m.absorb c).retire id n.name [m.name] := by
  rw [merge, ht]
  rfl

theorem liveAt_merge (ht : g.node? t = some m) {l : Node} :
    (g.merge id n c t).LiveAt i l ↔ i ≠ id ∧ ∃ k, g.LiveAt i k ∧
      l = (if i = t then k.absorb c else k).rewire n.name [m.name] := by
  rw [merge_eq ht, liveAt_retire]
  simp only [liveAt_modify (fun _ => Node.absorb_deleted _ c)]
  constructor
  · rintro ⟨hne, _, ⟨k, hk, rfl⟩, rfl⟩
    exact ⟨hne, k, hk, rfl⟩
  · rintro ⟨hne, k, hk, rfl⟩
    exact ⟨hne, _, ⟨k, hk, rfl⟩, rfl⟩

/-- **Merging a node into one of its operands keeps a graph ordered.** -/
theorem Ordered.merge (h : g.Ordered) (hn : g.LiveAt id n) (hm : g.LiveAt t m)
    (hx : m.name ∈ n.inputs) : (g.merge id n c t).Ordered := by
  rw [merge_eq hm.1]
  have hlt : t < id := h.backward.lt hn hm.1 hx
  have hn' := hn.modify_of_ne (f := fun m => m.absorb c) (Nat.ne_of_gt hlt)
  have h' : (g.modify t fun m => m.absorb c).Ordered :=
    h.modify (fun _ => rfl) (fun _ => rfl) fun _ => rfl
  refine h'.retire hn' fun x hmem => ?_
  -- the operand could stand where the node stood
  obtain rfl := List.mem_singleton.mp hmem
  exact (h.earlier id n hn _ hx).modify (fun _ => rfl) fun _ => rfl

theorem Backward.merge (h : g.Backward) (hn : g.LiveAt id n) (hm : g.LiveAt t m)
    (hx : m.name ∈ n.inputs) : (g.merge id n c t).Backward := by
  rw [merge_eq hm.1]
  have hlt : t < id := h.lt hn hm.1 hx
  have hn' := hn.modify_of_ne (f := fun m => m.absorb c) (Nat.ne_of_gt hlt)
  have h' : (g.modify t fun m => m.absorb c).Backward :=
    h.modify (fun _ => rfl) (fun _ => rfl) fun _ => rfl
  refine h'.retire hn' fun x hmem => ?_
  obtain rfl := List.mem_singleton.mp hmem
  exact (h.earlier id n hn _ hx).modify fun _ => rfl

theorem map_bare_retire (id : Nat) (name : String) (names : List String) :
    (g.retire id name names).nodes.map Node.bare = g.nodes.map Node.bare :=
  map_retire (fun _ _ _ => rfl) name names

theorem map_bare_merge (ht : g.node? t = some m) :
    (g.merge id n c t).nodes.map Node.bare = g.nodes.map Node.bare := by
  rw [merge_eq ht, map_bare_retire]
  exact map_modify fun n => n.absorb_bare c

theorem names_of_bare (h : g'.nodes.map Node.bare = g.nodes.map Node.bare) :
    g'.nodes.map Node.name = g.nodes.map Node.name := by
  have hcomp : ∀ l : List Node, l.map Node.name = (l.map Node.bare).map Node.name := by
    intro l
    rw [List.map_map]
    rfl
  rw [hcomp g'.nodes, h, ← hcomp]

theorem exists_node?_of_bare (h : g'.nodes.map Node.bare = g.nodes.map Node.bare)
    (hn : g'.node? i = some n) : ∃ m, g.node? i = some m ∧ n.bare = m.bare := by
  have hi := congrArg (·[i]?) h
  simp only [List.getElem?_map] at hi
  rw [node?] at hn
  rw [hn] at hi
  obtain ⟨m, hm, hb⟩ := Option.map_eq_some_iff.mp hi.symm
  exact ⟨m, hm, hb.symm⟩

/-! ### The cases of a visit -/

/-- **A visit** to the node at a position; a node without a family is kept. -/
def visit (cx : FusionContext) (g : Graph) (id : Nat) : Except ConvertError (Graph × Outcome) :=
  match (g.node? id).map fun n => Family.resolve cx.format cx.custom n.opType with
  | some (.ok family) => g.fuseNode cx id family
  | _ => .ok (g, .kept)

/-- **What a visit can do**, with all that is known in each case. -/
inductive Visited (cx : FusionContext) (g : Graph) (id : Nat) : Graph → Outcome → Prop
  /-- The graph stays as it is. -/
  | kept : Visited cx g id g .kept
  /-- A dropout gives way to its operands. -/
  | elided {n : Node} (live : g.LiveAt id n)
      (dropout : Family.resolve cx.format cx.custom n.opType = .ok .dropout) :
      Visited cx g id (g.elide id n) .elided
  /-- The node gives way to an operand, which absorbs what it contributes. -/
  | absorbed {n m : Node} {c : Contribution} {t : Nat} (live : g.LiveAt id n)
      (offers : n.Offers cx c) (target : g.LiveAt t m) (found : g.find? m.name = some t)
      (operand : m.name ∈ n.inputs)
      (allowed : cx.policy.allows cx.format n.opType m.opType = true)
      (accepts : m.accepts c = true) :
      Visited cx g id (g.merge id n c t) (.absorbedBy t)

/-- The operand that absorbs a contribution is live, is named by the rule and accepts. -/
theorem exists_target {rule : FusionRule} {operands : List String}
    (h : g.target? rule c operands = some t) :
    ∃ m, g.LiveAt t m ∧ g.find? m.name = some t ∧ m.name ∈ operands ∧
      rule.fusesInto m.opType = true ∧ m.accepts c = true := by
  obtain ⟨before, x, after, hsplit, hx, -⟩ := List.findSome?_eq_some_iff.mp h
  obtain ⟨hfind, hq⟩ := Option.filter_eq_some_iff.mp hx
  obtain ⟨m, hm, rfl⟩ := node?_of_find? hfind
  simp only [qualifies, hm, Bool.and_eq_true, Bool.not_eq_true'] at hq
  exact ⟨m, ⟨hm, hq.1.1⟩, hfind, by simp [hsplit], hq.1.2, hq.2⟩

/-- **What a visit does** to a node that is taken to be of some family: nothing, or the node is live
and gives way, as a dropout to its operands or else to the operand found for what it contributes. -/
theorem cases_of_fuseNode {family : Family} (h : g.fuseNode cx id family = .ok (g', o)) :
    (g' = g ∧ o = .kept) ∨
      (∃ n, g.LiveAt id n ∧ family = .dropout ∧ g' = g.elide id n ∧ o = .elided) ∨
      ∃ n rule c t, g.LiveAt id n ∧ cx.policy.rule? cx.format n.opType = some rule ∧
        n.contribution? cx.format family = .ok (some c) ∧ g.target? rule c n.inputs = some t ∧
        g' = g.merge id n c t ∧ o = .absorbedBy t := by
  rw [fuseNode] at h
  -- the tests of a visit one by one; the node is kept by the first that it fails
  split at h
  · cases h
    exact Or.inl ⟨rfl, rfl⟩
  · next n hn =>
    split at h
    · cases h
      exact Or.inl ⟨rfl, rfl⟩
    · next hd =>
      have hlive : g.LiveAt id n := ⟨hn, by simpa using hd⟩
      split at h
      · next hdrop =>
        cases h
        exact Or.inr (Or.inl ⟨n, hlive, hdrop, rfl, rfl⟩)
      · split at h
        · cases h
          exact Or.inl ⟨rfl, rfl⟩
        · next rule hrule =>
          split at h
          · cases h
            exact Or.inl ⟨rfl, rfl⟩
          · split at h
            · cases h
            · cases h
              exact Or.inl ⟨rfl, rfl⟩
            · next c hc =>
              split at h
              · cases h
                exact Or.inl ⟨rfl, rfl⟩
              · next t ht =>
                cases h
                exact Or.inr (Or.inr ⟨n, rule, c, t, hlive, hrule, hc, ht, rfl, rfl⟩)

/-- **The cases of a visit** to a node of a resolved family. -/
theorem visited_of_fuseNode {family : Family} (hn : g.node? id = some n)
    (hf : Family.resolve cx.format cx.custom n.opType = .ok family)
    (h : g.fuseNode cx id family = .ok (g', o)) : Visited cx g id g' o := by
  rcases cases_of_fuseNode h with ⟨rfl, rfl⟩ | ⟨k, hk, hdrop, rfl, rfl⟩ |
    ⟨k, rule, c, t, hk, hrule, hc, ht, rfl, rfl⟩
  · exact .kept
  · obtain rfl := Option.some.inj (hn.symm.trans hk.1)
    exact .elided hk (hdrop ▸ hf)
  · obtain rfl := Option.some.inj (hn.symm.trans hk.1)
    obtain ⟨m, hm, hfind, hx, hinto, hacc⟩ := exists_target ht
    exact .absorbed hk ⟨family, hf, hc⟩ hm hfind hx (by
      rw [FusionPolicy.allows, hrule]
      exact hinto) hacc

theorem visited_of_visit (h : g.visit cx id = .ok (g', o)) : Visited cx g id g' o := by
  rw [visit] at h
  split at h
  · next family hfam =>
    obtain ⟨n, hn, hf⟩ := Option.map_eq_some_iff.mp hfam
    exact visited_of_fuseNode hn hf h
  · cases h
    exact .kept

/-- A visit fails only where the node cannot hand over what it stands for. -/
theorem exists_invalidLayer_of_fuseNode {family : Family} (hn : g.node? id = some n)
    (h : g.fuseNode cx id family = .error e) : ∃ fault, e = .invalidLayer n.name fault := by
  rw [fuseNode, hn] at h
  simp only at h
  split at h
  · cases h
  · split at h
    · cases h
    · split at h
      · cases h
      · split at h
        · cases h
        · split at h
          · next he =>
            cases h
            exact Node.exists_invalidLayer_of_contribution? he
          · cases h
          · split at h <;> cases h

/-! ### What keeps a node -/

/-- **What keeps a live node**: it is no dropout, and whatever a rule lets it hand over finds no
target. -/
theorem fuseNode_eq_kept_iff (hn : g.LiveAt id n) {family : Family} :
    g.fuseNode cx id family = .ok (g, .kept) ↔ family ≠ .dropout ∧
      ∀ rule, cx.policy.rule? cx.format n.opType = some rule → rule.isFusible = true →
        ∃ oc, n.contribution? cx.format family = .ok oc ∧
          ∀ c, oc = some c → g.target? rule c n.inputs = none := by
  simp only [fuseNode, hn.1, hn.2, Bool.false_eq_true, if_false]
  split
  · next hdrop => simp [hdrop]
  · next hdrop =>
    split
    · next hrule => simp [hdrop, hrule]
    · next rule hrule =>
      split
      · next hfus => simp_all
      · next hfus =>
        split
        · next hc => simp_all
        · next hc => simp_all
        · next c hc =>
          split
          · next ht => simp_all
          · next ht => simp_all

/-- A visit to a place where no live node is does nothing. -/
theorem visit_of_forall_not_liveAt (h : ∀ n, ¬ g.LiveAt id n) : g.visit cx id = .ok (g, .kept) := by
  rw [visit]
  split
  · next family hfam =>
    obtain ⟨n, hn, -⟩ := Option.map_eq_some_iff.mp hfam
    have hd : n.deleted = true := by simpa [LiveAt, hn] using h n
    simp [fuseNode, hn, hd]
  · rfl

/-! ### What every visit keeps -/

namespace Visited

/-- **No visit changes what a node says of itself.** -/
theorem map_bare (h : Visited cx g id g' o) : g'.nodes.map Node.bare = g.nodes.map Node.bare := by
  cases h with
  | kept => rfl
  | elided => exact map_bare_retire ..
  | absorbed _ _ target => exact map_bare_merge target.1

/-- Whoever is there after a visit was there before. -/
theorem exists_liveAt (h : Visited cx g id g' o) (hn : g'.LiveAt i n) :
    ∃ m, g.LiveAt i m ∧ n.bare = m.bare := by
  cases h with
  | kept => exact ⟨n, hn, rfl⟩
  | elided =>
    obtain ⟨-, m, hm, rfl⟩ := liveAt_retire.mp hn
    exact ⟨m, hm, rfl⟩
  | absorbed _ _ target =>
    obtain ⟨-, m, hm, rfl⟩ := (liveAt_merge target.1).mp hn
    refine ⟨m, hm, ?_⟩
    split <;> rfl

/-- **A visit removes at most the node that is visited.** -/
theorem exists_liveAt_of_ne (h : Visited cx g id g' o) (hne : i ≠ id) (hn : g.LiveAt i n) :
    ∃ m, g'.LiveAt i m := by
  cases h with
  | kept => exact ⟨n, hn⟩
  | elided => exact ⟨_, liveAt_retire.mpr ⟨hne, n, hn, rfl⟩⟩
  | absorbed _ _ target => exact ⟨_, (liveAt_merge target.1).mpr ⟨hne, n, hn, rfl⟩⟩

/-- A node that leaves was there, and had a family. -/
theorem exists_resolve (h : Visited cx g id g' o) (ho : o ≠ .kept) :
    ∃ n family, g.LiveAt id n ∧ Family.resolve cx.format cx.custom n.opType = .ok family := by
  cases h with
  | kept => exact absurd rfl ho
  | elided live dropout => exact ⟨_, _, live, dropout⟩
  | absorbed live offers =>
    obtain ⟨family, hf, -⟩ := offers
    exact ⟨_, family, live, hf⟩

/-- **A node stays** that is no dropout and has nothing to offer. -/
theorem exists_liveAt_of_stays (h : Visited cx g id g' o) (hn : g.LiveAt i n)
    (hdrop : Family.resolve cx.format cx.custom n.opType ≠ .ok .dropout)
    (hoff : ∀ c, ¬ n.Offers cx c) : ∃ m, g'.LiveAt i m ∧ m.bare = n.bare := by
  by_cases hi : i = id
  · subst hi
    cases h with
    | kept => exact ⟨n, hn, rfl⟩
    | elided live dropout => exact absurd (live.unique hn ▸ dropout) hdrop
    | absorbed live offers => exact absurd (live.unique hn ▸ offers) (hoff _)
  · obtain ⟨m, hm⟩ := h.exists_liveAt_of_ne hi hn
    obtain ⟨k, hk, hb⟩ := h.exists_liveAt hm
    exact ⟨m, hm, hk.unique hn ▸ hb⟩

/-- A visit that does not keep the node removes it. -/
theorem not_liveAt (h : Visited cx g id g' o) (ho : o ≠ .kept) : ¬ g'.LiveAt id n := by
  cases h with
  | kept => exact absurd rfl ho
  | elided => exact fun hn => (liveAt_retire.mp hn).1 rfl
  | absorbed _ _ target => exact fun hn => ((liveAt_merge target.1).mp hn).1 rfl

theorem distinct (h : Visited cx g id g' o) (hg : g.Distinct) : g'.Distinct :=
  hg.congr (names_of_bare h.map_bare)

/-- **A visit keeps a graph ordered**, since the node gives way to operands of its own. -/
theorem ordered (h : Visited cx g id g' o) (hg : g.Ordered) : g'.Ordered := by
  cases h with
  | kept => exact hg
  | elided live => exact hg.retire live (hg.earlier id _ live)
  | absorbed live _ target _ operand => exact hg.merge live target operand

/-- **A visit brings in no forward reference.** -/
theorem backward (h : Visited cx g id g' o) (hg : g.Backward) : g'.Backward := by
  cases h with
  | kept => exact hg
  | elided live => exact hg.retire live (hg.earlier id _ live)
  | absorbed live _ target _ operand => exact hg.merge live target operand

/-- **A node is merged into an earlier one.** -/
theorem target_lt (h : Visited cx g id g' (.absorbedBy t)) (hg : g.Backward) : t < id := by
  cases h with
  | absorbed live _ target _ operand => exact hg.lt live target.1 operand

end Visited

/-! ### Runs -/

theorem fuseFrom_cons (cx : FusionContext) (g : Graph) (id : Nat) (ids : List Nat) :
    g.fuseFrom cx (id :: ids) =
      match g.visit cx id with
      | .error e => (g, .error e)
      | .ok (g', o) =>
        ((g'.fuseFrom cx ids).1,
          (g'.fuseFrom cx ids).2.map fun k => if o = .kept then k else k + 1) := by
  -- what is kept does not count, so a step that keeps hands on the result of the rest
  have hmap : ∀ r : Graph × Except ConvertError Nat,
      (r.1, r.2.map fun k => if Outcome.kept = .kept then k else k + 1) = r := by
    rintro ⟨g, _ | k⟩ <;> rfl
  cases hm : (g.node? id).map fun n => Family.resolve cx.format cx.custom n.opType with
  | none =>
    rw [fuseFrom, visit, hm]
    exact (hmap _).symm
  | some r =>
    rw [fuseFrom, visit, hm]
    cases r with
    | error e => exact (hmap _).symm
    | ok family => cases g.fuseNode cx id family <;> rfl

/-- A run that succeeds is a visit that succeeds and a run from there. -/
theorem fuseFrom_cons_ok (h : g.fuseFrom cx (id :: ids) = (g', .ok k)) :
    ∃ g₁ o k', g.visit cx id = .ok (g₁, o) ∧ g₁.fuseFrom cx ids = (g', .ok k') ∧
      k = if o = .kept then k' else k' + 1 := by
  rw [fuseFrom_cons] at h
  split at h
  · cases h
  · next g₁ o hv =>
    obtain ⟨h1, h2⟩ := Prod.mk.inj h
    cases hr : (g₁.fuseFrom cx ids).2 with
    | error e =>
      rw [hr] at h2
      cases h2
    | ok k' =>
      rw [hr] at h2
      exact ⟨g₁, o, k', hv, Prod.ext h1 hr, (Except.ok.inj h2).symm⟩

theorem fuseFrom_of_visit {g₁ : Graph} (hv : g.visit cx id = .ok (g₁, o))
    (h : g₁.fuseFrom cx ids = (g', .ok k)) :
    g.fuseFrom cx (id :: ids) = (g', .ok (if o = .kept then k else k + 1)) := by
  rw [fuseFrom_cons, hv]
  simp only [h]
  rfl

theorem fuseFrom_cons_fst {g₁ : Graph} (hv : g.visit cx id = .ok (g₁, o)) :
    (g.fuseFrom cx (id :: ids)).1 = (g₁.fuseFrom cx ids).1 := by
  rw [fuseFrom_cons, hv]

/-- **What every visit keeps, a run keeps**, whether it succeeds or not. -/
theorem fuseFrom_invariant {P : Graph → Prop} :
    ∀ (ids : List Nat), (∀ id ∈ ids, ∀ g g' o, P g → Visited cx g id g' o → P g') →
      ∀ {g : Graph}, P g → P (g.fuseFrom cx ids).1
  | [], _, _, hg => hg
  | id :: ids, step, g, hg => by
    rw [fuseFrom_cons]
    split
    · exact hg
    · next g' o hv =>
      exact fuseFrom_invariant ids (fun i hi => step i (List.mem_cons_of_mem _ hi))
        (step id List.mem_cons_self g g' o hg (visited_of_visit hv))

theorem Ordered.fuseFrom (h : g.Ordered) (ids : List Nat) : (g.fuseFrom cx ids).1.Ordered :=
  fuseFrom_invariant ids (fun _ _ _ _ _ hg hv => hv.ordered hg) h

theorem Backward.fuseFrom (h : g.Backward) (ids : List Nat) : (g.fuseFrom cx ids).1.Backward :=
  fuseFrom_invariant ids (fun _ _ _ _ _ hg hv => hv.backward hg) h

theorem map_bare_fuseFrom (ids : List Nat) :
    (g.fuseFrom cx ids).1.nodes.map Node.bare = g.nodes.map Node.bare :=
  fuseFrom_invariant (P := fun g' => g'.nodes.map Node.bare = g.nodes.map Node.bare) ids
    (fun _ _ _ _ _ hg hv => hv.map_bare.trans hg) rfl

theorem Distinct.fuseFrom (h : g.Distinct) (ids : List Nat) : (g.fuseFrom cx ids).1.Distinct :=
  h.congr (names_of_bare (map_bare_fuseFrom ids))

/-- A run brings no node back: whoever is there after it was there before. -/
theorem exists_liveAt_of_fuseFrom (h : (g.fuseFrom cx ids).1.LiveAt i n) :
    ∃ m, g.LiveAt i m ∧ n.bare = m.bare := by
  refine fuseFrom_invariant (P := fun g' => ∀ n, g'.LiveAt i n → ∃ m, g.LiveAt i m ∧ n.bare = m.bare)
    ids ?_ (fun n hn => ⟨n, hn, rfl⟩) n h
  intro id _ g₁ g₂ o hback hv n hn
  obtain ⟨k, hk, hb⟩ := hv.exists_liveAt hn
  obtain ⟨m, hm, hb'⟩ := hback k hk
  exact ⟨m, hm, hb.trans hb'⟩

theorem mem_liveIds_of_fuseFrom (h : i ∈ (g.fuseFrom cx ids).1.liveIds) : i ∈ g.liveIds := by
  obtain ⟨n, hn⟩ := mem_liveIds.mp h
  obtain ⟨m, hm, -⟩ := exists_liveAt_of_fuseFrom hn
  exact mem_liveIds.mpr ⟨m, hm⟩

/-- A run removes visited nodes only. -/
theorem mem_liveIds_fuseFrom (h : i ∈ g.liveIds) (hi : i ∉ ids) :
    i ∈ (g.fuseFrom cx ids).1.liveIds := by
  refine fuseFrom_invariant (P := fun g' => i ∈ g'.liveIds) ids ?_ h
  intro id hid g₁ g₂ o hlive hv
  obtain ⟨n, hn⟩ := mem_liveIds.mp hlive
  exact mem_liveIds.mpr (hv.exists_liveAt_of_ne (fun he => hi (he ▸ hid)) hn)

/-- A run keeps a node that is no dropout and has nothing to offer. -/
theorem exists_liveAt_fuseFrom (ids : List Nat) (hn : g.LiveAt i n)
    (hdrop : Family.resolve cx.format cx.custom n.opType ≠ .ok .dropout)
    (hoff : ∀ c, ¬ n.Offers cx c) : ∃ m, (g.fuseFrom cx ids).1.LiveAt i m ∧ m.bare = n.bare := by
  refine fuseFrom_invariant (P := fun g' => ∃ m, g'.LiveAt i m ∧ m.bare = n.bare) ids ?_ ⟨n, hn, rfl⟩
  rintro id _ g₁ g₂ o ⟨m, hm, hb⟩ hv
  obtain ⟨k, hk, hb'⟩ := hv.exists_liveAt_of_stays hm (Node.opType_of_bare hb ▸ hdrop)
    fun c hc => hoff c (hc.of_bare hb)
  exact ⟨k, hk, hb'.trans hb⟩

end Graph

end LayerGraph
