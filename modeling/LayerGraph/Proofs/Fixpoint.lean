import LayerGraph.Proofs.Visit

/-!
# Fusion is done after one run

A node that a visit keeps is *settled*: a second visit would keep it again. What could unsettle
it is a later visit that changes its operands, or that makes one of them accept what it refused
before. Neither can happen in a graph without forward references. A later visit retires a later
node, which the settled one does not refer to, and what a node has absorbed only ever makes it
refuse more. So after one run all nodes that are left are settled, and a second run finds
nothing to do (`LayerGraph.Graph.fuse_idempotent`).
-/

namespace LayerGraph

/-- **Absorbing makes a node refuse more**: what a node takes in the end it would have taken
before. -/
theorem Absorbed.accepts_of_absorb {a : Absorbed} {c d : Contribution}
    (h : (a.absorb d).accepts c = true) : a.accepts c = true := by
  cases c <;> cases d <;> simp_all [Absorbed.accepts, Absorbed.absorb]

theorem Node.accepts_of_absorb {n : Node} {c d : Contribution}
    (h : (n.absorb d).accepts c = true) : n.accepts c = true := by
  obtain ⟨ha, hn⟩ := Bool.and_eq_true_iff.mp h
  exact Bool.and_eq_true_iff.mpr ⟨Absorbed.accepts_of_absorb ha, hn⟩

namespace Graph

variable {cx : FusionContext} {g g' : Graph} {i id k : Nat} {ids : List Nat} {n n' : Node}
  {c : Contribution} {o : Outcome}

/-! ### What keeps a node -/

/-- A node has no target exactly if none of its operands qualifies. -/
theorem target?_eq_none_iff {rule : FusionRule} {operands : List String} :
    g.target? rule c operands = none ↔
      ∀ x ∈ operands, ∀ t, g.find? x = some t → g.qualifies rule c t = false := by
  simp only [target?, List.findSome?_eq_none_iff, Option.filter_eq_none_iff,
    Bool.not_eq_true]

/-- **A node that is kept is kept wherever it says the same of itself** and finds no target
that it did not find before. -/
theorem visit_eq_kept (h : g.visit cx id = .ok (g, .kept)) (hn : g.LiveAt id n)
    (hn' : g'.LiveAt id n') (hb : n'.bare = n.bare)
    (ht : ∀ rule c, g.target? rule c n.inputs = none → g'.target? rule c n'.inputs = none) :
    g'.visit cx id = .ok (g', .kept) := by
  have hop := Node.opType_of_bare hb
  rw [visit, hn.1] at h
  rw [visit, hn'.1, Option.map_some, hop]
  simp only [Option.map_some] at h
  cases hf : Family.resolve cx.format cx.custom n.opType with
  | error e => rfl
  | ok family =>
    rw [hf] at h
    obtain ⟨hdrop, hkeep⟩ := (fuseNode_eq_kept_iff hn).mp h
    refine (fuseNode_eq_kept_iff hn').mpr ⟨hdrop, fun rule hrule hfus => ?_⟩
    rw [hop] at hrule
    obtain ⟨oc, hoc, hnone⟩ := hkeep rule hrule hfus
    exact ⟨oc, (Node.contribution?_of_bare hb ..).trans hoc, fun c hc => ht rule c (hnone c hc)⟩

/-! ### Settled nodes stay settled -/

namespace Visited

/-- **No visit makes a node qualify** that did not qualify before. -/
theorem qualifies (h : Visited cx g id g' o) {rule : FusionRule}
    (hq : g'.qualifies rule c i = true) : g.qualifies rule c i = true := by
  have hlive : ∃ n, g'.LiveAt i n ∧ rule.fusesInto n.opType = true ∧ n.accepts c = true := by
    rw [Graph.qualifies] at hq
    split at hq
    · next n hn =>
      simp only [Bool.and_eq_true, Bool.not_eq_true'] at hq
      exact ⟨n, ⟨hn, hq.1.1⟩, hq.1.2, hq.2⟩
    · cases hq
  -- it is enough that the node before the visit fits the rule and accepts
  suffices hs : ∃ m, g.LiveAt i m ∧ rule.fusesInto m.opType = true ∧ m.accepts c = true by
    obtain ⟨m, hm, hinto, hacc⟩ := hs
    simp [Graph.qualifies, hm.1, hm.2, hinto, hacc]
  obtain ⟨n, hn, hinto, hacc⟩ := hlive
  cases h with
  | kept => exact ⟨n, hn, hinto, hacc⟩
  | elided =>
    obtain ⟨-, m, hm, rfl⟩ := liveAt_retire.mp hn
    exact ⟨m, hm, hinto, hacc⟩
  | @absorbed _ _ d t _ _ target =>
    obtain ⟨-, m, hm, rfl⟩ := (liveAt_merge target.1).mp hn
    by_cases hit : i = t
    · rw [if_pos hit] at hinto hacc
      exact ⟨m, hm, hinto, Node.accepts_of_absorb (d := d) hacc⟩
    · rw [if_neg hit] at hinto hacc
      exact ⟨m, hm, hinto, hacc⟩

/-- **A visit leaves the operands of earlier nodes alone**, since they do not refer to the node
that is visited. -/
theorem inputs_of_lt (h : Visited cx g id g' o) (hg : g.Backward) (hi : i < id)
    (hn : g'.LiveAt i n) : ∃ m, g.LiveAt i m ∧ n.bare = m.bare ∧ n.inputs = m.inputs := by
  have hnot : ∀ {l m : Node}, g.LiveAt id l → g.LiveAt i m → l.name ∉ m.inputs :=
    fun hl hm hx => Nat.lt_asymm hi (hg.lt hm hl.1 hx)
  cases h with
  | kept => exact ⟨n, hn, rfl, rfl⟩
  | elided live =>
    obtain ⟨-, m, hm, rfl⟩ := liveAt_retire.mp hn
    exact ⟨m, hm, rfl, by rw [Node.rewire_inputs, substitute_of_not_mem (hnot live hm)]⟩
  | absorbed live _ target =>
    obtain ⟨-, m, hm, rfl⟩ := (liveAt_merge target.1).mp hn
    have hm' := hnot live hm
    refine ⟨m, hm, ?_, ?_⟩
    · split <;> rfl
    · rw [Node.rewire_inputs]
      split <;> exact substitute_of_not_mem hm'

/-- **A settled node stays settled** when a later node is visited. -/
theorem settled (h : Visited cx g id g' o) (hg : g.Backward) (hi : i < id)
    (hs : g.visit cx i = .ok (g, .kept)) : g'.visit cx i = .ok (g', .kept) := by
  rcases g'.exists_liveAt_or i with ⟨n, hn⟩ | hmissing
  · obtain ⟨m, hm, hb, hin⟩ := h.inputs_of_lt hg hi hn
    refine visit_eq_kept hs hm hn hb fun rule c ht => ?_
    rw [hin]
    -- names are looked up as before, and what is found there does not qualify now either
    refine target?_eq_none_iff.mpr fun x hx t hfind => ?_
    rw [find?_congr (names_of_bare h.map_bare)] at hfind
    refine Bool.eq_false_iff.mpr fun hq => ?_
    exact absurd (h.qualifies hq) (by simp [target?_eq_none_iff.mp ht x hx t hfind])
  · exact visit_of_forall_not_liveAt hmissing

/-- The visited node is settled right after the visit. -/
theorem settled_self (h : Visited cx g id g' o) (hv : g.visit cx id = .ok (g', o)) :
    g'.visit cx id = .ok (g', .kept) := by
  by_cases ho : o = .kept
  · subst ho
    cases h
    exact hv
  · exact visit_of_forall_not_liveAt fun n => h.not_liveAt ho

end Visited

/-! ### After a run -/

/-- **After a run that succeeds all visited nodes are settled**, and so are those that were
settled before and come before all visited ones. -/
theorem settled_of_fuseFrom {S : Nat → Prop} :
    ∀ {ids : List Nat} {g : Graph} {k : Nat}, g.fuseFrom cx ids = (g', .ok k) → g.Backward →
      ids.Pairwise (· < ·) → (∀ i, S i → ∀ j ∈ ids, i < j) →
      (∀ i, S i → g.visit cx i = .ok (g, .kept)) →
      ∀ i, S i ∨ i ∈ ids → g'.visit cx i = .ok (g', .kept)
  | [], g, k, hrun, _, _, _, hS, i, hi => by
    obtain ⟨rfl, -⟩ := Prod.mk.inj hrun
    exact hS i (hi.resolve_right (List.not_mem_nil))
  | id :: ids, g, k, hrun, hg, hids, hlt, hS, i, hi => by
    obtain ⟨g₁, o, k', hv, hrest, -⟩ := fuseFrom_cons_ok hrun
    have hvis := visited_of_visit hv
    obtain ⟨hid, hids⟩ := List.pairwise_cons.mp hids
    -- the visited node joins the settled ones before it
    refine settled_of_fuseFrom (S := fun j => S j ∨ j = id) hrest (hvis.backward hg) hids ?_ ?_ i ?_
    · rintro j (hj | rfl) l hl
      · exact hlt j hj l (List.mem_cons_of_mem _ hl)
      · exact hid l hl
    · rintro j (hj | rfl)
      · exact hvis.settled hg (hlt j hj id List.mem_cons_self) (hS j hj)
      · exact hvis.settled_self hv
    · rcases hi with hi | hi
      · exact Or.inl (Or.inl hi)
      · rcases List.mem_cons.mp hi with rfl | hi
        · exact Or.inl (Or.inr rfl)
        · exact Or.inr hi

/-- A run over settled nodes does nothing. -/
theorem fuseFrom_of_settled :
    ∀ {ids : List Nat}, (∀ i ∈ ids, g.visit cx i = .ok (g, .kept)) →
      g.fuseFrom cx ids = (g, .ok 0)
  | [], _ => rfl
  | id :: ids, h => by
    rw [fuseFrom_cons, h id List.mem_cons_self]
    simp only [fuseFrom_of_settled fun i hi => h i (List.mem_cons_of_mem _ hi)]
    rfl

/-- **Fusion is done after one run**: in a graph whose names are distinct and whose live nodes
refer to no later node, a second run removes nothing and changes nothing. -/
theorem fuse_idempotent (hg : g.Backward) (run : g.fuse cx = (g', .ok k)) :
    g'.fuse cx = (g', .ok 0) := by
  -- what is left of the live nodes was visited
  refine fuseFrom_of_settled fun i hi => ?_
  have hrun : i ∈ (g.fuseFrom cx g.liveIds).1.liveIds := by
    rw [show g.fuseFrom cx g.liveIds = (g', .ok k) from run]
    exact hi
  have hlive : i ∈ g.liveIds := mem_liveIds_of_fuseFrom hrun
  exact settled_of_fuseFrom (S := fun _ => False) run hg pairwise_liveIds
    (fun _ h => h.elim) (fun _ h => h.elim) i (Or.inr hlive)

/-- A sum with its activation and a dropout. There is a node that was deleted before, and a
reference to nothing at all. -/
def sumChain : Graph := ⟨[
  { name := "in", opType := "InputLayer", inbound := some [] },
  { name := "old", opType := "ReLU", inbound := some ["flat"], deleted := true },
  { name := "sum", opType := "Add", inbound := some ["in", "old"] },
  { name := "relu", opType := "ReLU", inbound := some ["sum"] },
  { name := "drop", opType := "Dropout", inbound := some ["relu", "ghost"] },
  { name := "flat", opType := "Flatten", inbound := some ["drop"] }]⟩

/-- The first run over the chain removes two nodes and the second one none. -/
theorem fuse_sumChain_twice :
    sumChain.Backward ∧ (sumChain.fuse ⟨.keras, .standard, {}⟩).2 = .ok 2 ∧
      (sumChain.fuse ⟨.keras, .standard, {}⟩).1.fuse ⟨.keras, .standard, {}⟩ =
        ((sumChain.fuse ⟨.keras, .standard, {}⟩).1, .ok 0) := by
  have hback : sumChain.Backward := by decide
  have hrun : (sumChain.fuse ⟨.keras, .standard, {}⟩).2 = .ok 2 := by decide
  exact ⟨hback, hrun, fuse_idempotent (k := 2) hback (Prod.ext rfl hrun)⟩

end Graph

end LayerGraph
