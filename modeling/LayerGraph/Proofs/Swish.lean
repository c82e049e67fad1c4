import LayerGraph.Proofs.Ordered
import LayerGraph.Swish

/-!
# Contracting swish

A contraction touches the sigmoid, which becomes the swish, and retires the product in favour
of it (`LayerGraph.Graph.exists_of_contractPair?`). The sigmoid is declared before the product,
so an ordered graph stays ordered (`LayerGraph.Graph.Ordered.contractSwish`). This needs that
the product is still there when its pair is tried: a neighbour is the second of at most one
pair, and a contraction removes nothing but the second node of its own pair.
-/

namespace LayerGraph

/-- The node under the operator of a swish. -/
def Node.toSwish (n : Node) : Node := { n with opType := "Swish" }

@[simp] theorem Node.toSwish_deleted (n : Node) : n.toSwish.deleted = n.deleted := rfl

/-- What it takes to match. -/
theorem isSwishPair_eq_true_iff {s m : Node} : isSwishPair s m = true ↔
    s.deleted = false ∧ s.opType = "Sigmoid" ∧ m.opType = "Mul" ∧ s.name ∈ m.inputs ∧
      ∃ x, s.inputs.head? = some x ∧ x ∈ m.inputs := by
  cases hin : s.inputs with
  | nil => simp [isSwishPair, hin]
  | cons x xs => simp [isSwishPair, hin, and_assoc]

namespace Graph

variable {g g' : Graph} {i j k : Nat} {n : Node} {ps : List (Nat × Nat)}

/-- The graph in which the pair at two positions is contracted. -/
def contract (g : Graph) (i j : Nat) (sigmoid product : Node) : Graph :=
  (g.modify i Node.toSwish).retire j product.name [sigmoid.name]

/-- **A contraction** touches the sigmoid and retires the product in favour of it. -/
theorem exists_of_contractPair? (h : g.contractPair? i j = some g') :
    ∃ sigmoid product, g.LiveAt i sigmoid ∧ g.node? j = some product ∧
      isSwishPair sigmoid product = true ∧ g' = g.contract i j sigmoid product := by
  rw [contractPair?] at h
  split at h
  · next sigmoid product hi hj =>
    split at h
    · next hpair =>
      have hlive : sigmoid.deleted = false := by
        simp only [isSwishPair, Bool.and_eq_true, Bool.not_eq_true'] at hpair
        exact hpair.1.1.1
      exact ⟨sigmoid, product, ⟨hi, hlive⟩, hj, hpair, (Option.some.inj h).symm⟩
    · cases h
  · cases h

/-- The live nodes after a contraction. -/
theorem liveAt_contract {sigmoid product : Node} :
    (g.contract i j sigmoid product).LiveAt k n ↔ k ≠ j ∧ ∃ m, g.LiveAt k m ∧
      n = (if k = i then m.toSwish else m).rewire product.name [sigmoid.name] := by
  rw [contract, liveAt_retire]
  refine and_congr_right fun _ => ⟨?_, ?_⟩
  · rintro ⟨_, h, rfl⟩
    obtain ⟨m, hm, rfl⟩ := (liveAt_modify Node.toSwish_deleted).mp h
    exact ⟨m, hm, rfl⟩
  · rintro ⟨m, hm, rfl⟩
    exact ⟨_, (liveAt_modify Node.toSwish_deleted).mpr ⟨m, hm, rfl⟩, rfl⟩

/-- What each contraction keeps, all of them keep. -/
theorem contractPairs_invariant {P : List (Nat × Nat) → Graph → Prop}
    (skip : ∀ p ps g, P (p :: ps) g → P ps g)
    (step : ∀ i j ps g g', P ((i, j) :: ps) g → g.contractPair? i j = some g' → P ps g') :
    ∀ (ps : List (Nat × Nat)) {g : Graph}, P ps g → P [] (g.contractPairs ps).1
  | [], _, hg => hg
  | (i, j) :: ps, g, hg => by
    rw [contractPairs]
    split
    · next g' h => exact contractPairs_invariant skip step ps (step i j ps g g' hg h)
    · exact contractPairs_invariant skip step ps (skip (i, j) ps g hg)

/-! ### The order is kept -/

/-- **Contracting keeps a graph ordered**, if the sigmoid is declared before the product and
the product is still there. -/
theorem Ordered.contractPair? (hg : g.Ordered) (hij : i < j) (hj : j ∈ g.liveIds)
    (h : g.contractPair? i j = some g') : g'.Ordered := by
  obtain ⟨sigmoid, product, hs, hp, -, rfl⟩ := exists_of_contractPair? h
  obtain ⟨n, hn⟩ := mem_liveIds.mp hj
  obtain rfl : n = product := Option.some.inj (hn.1.symm.trans hp)
  refine (hg.modify (f := Node.toSwish) (fun _ => rfl) (fun _ => rfl) fun _ => rfl).retire
    (hn.modify_of_ne (Nat.ne_of_gt hij)) ?_
  intro x hx
  obtain rfl := List.mem_singleton.mp hx
  exact Feeds.modify (fun _ => rfl) (fun _ => rfl) ⟨i, sigmoid, hij, hs, rfl⟩

/-- A contraction removes the product only. -/
theorem mem_liveIds_of_contractPair? (h : g.contractPair? i j = some g') (hk : k ∈ g.liveIds)
    (hne : k ≠ j) : k ∈ g'.liveIds := by
  obtain ⟨sigmoid, product, -, -, -, rfl⟩ := exists_of_contractPair? h
  obtain ⟨n, hn⟩ := mem_liveIds.mp hk
  exact mem_liveIds.mpr ⟨_, liveAt_contract.mpr ⟨hne, n, hn, rfl⟩⟩

/-- **Contracting pairs keeps a graph ordered**, if no node is the product of two pairs. -/
theorem Ordered.contractPairs (hg : g.Ordered)
    (hps : ∀ p ∈ ps, p.1 < p.2 ∧ p.2 ∈ g.liveIds) (hnd : (ps.map Prod.snd).Nodup) :
    (g.contractPairs ps).1.Ordered := by
  -- the products of the pairs to come are there, whatever has been contracted
  refine (contractPairs_invariant (P := fun ps g => g.Ordered ∧
    (∀ p ∈ ps, p.1 < p.2 ∧ p.2 ∈ g.liveIds) ∧ (ps.map Prod.snd).Nodup) ?_ ?_ ps ⟨hg, hps, hnd⟩).1
  · rintro p ps g ⟨hg, hps, hnd⟩
    exact ⟨hg, fun q hq => hps q (List.mem_cons_of_mem _ hq), (List.nodup_cons.mp hnd).2⟩
  · rintro i j ps g g' ⟨hg, hps, hnd⟩ h
    obtain ⟨hij, hj⟩ := hps (i, j) List.mem_cons_self
    obtain ⟨hnot, hnd⟩ := List.nodup_cons.mp hnd
    refine ⟨hg.contractPair? hij hj h, fun q hq => ?_, hnd⟩
    obtain ⟨hlt, hmem⟩ := hps q (List.mem_cons_of_mem _ hq)
    refine ⟨hlt, mem_liveIds_of_contractPair? h hmem fun he => hnot ?_⟩
    exact List.mem_map.mpr ⟨q, hq, he⟩

/-- The second node of a pair of neighbours comes after the first. -/
theorem lt_of_mem_zip_tail : ∀ {ids : List Nat}, ids.Pairwise (· < ·) →
    ∀ p ∈ ids.zip ids.tail, p.1 < p.2
  | [], _, _, hp => absurd hp (List.not_mem_nil)
  | [_], _, _, hp => absurd hp (List.not_mem_nil)
  | a :: b :: ids, h, p, hp => by
    obtain ⟨ha, h⟩ := List.pairwise_cons.mp h
    rw [List.tail_cons, List.zip_cons_cons] at hp
    rcases List.mem_cons.mp hp with rfl | hp
    · exact ha b List.mem_cons_self
    · exact lt_of_mem_zip_tail h p hp

theorem map_snd_zip_tail (ids : List Nat) : (ids.zip ids.tail).map Prod.snd = ids.tail :=
  List.map_snd_zip (by simp)

/-- **Contracting swish keeps a graph ordered.** -/
theorem Ordered.contractSwish (hg : g.Ordered) : g.contractSwish.1.Ordered := by
  refine hg.contractPairs (fun p hp => ⟨lt_of_mem_zip_tail pairwise_liveIds p hp, ?_⟩) ?_
  · exact List.mem_of_mem_tail (List.of_mem_zip hp).2
  · rw [map_snd_zip_tail]
    exact nodup_liveIds.sublist (List.tail_sublist _)

/-! ### What else is kept -/

/-- What does not depend on operator, wiring and marks is the same after all contractions. -/
theorem map_contractSwish {β : Type} {p : Node → β}
    (hp : ∀ (n : Node) op xs d, p { n with opType := op, inbound := xs, deleted := d } = p n) :
    g.contractSwish.1.nodes.map p = g.nodes.map p := by
  refine contractPairs_invariant (P := fun _ g' => g'.nodes.map p = g.nodes.map p)
    (fun _ _ _ h => h) ?_ _ rfl
  intro i j ps g₁ g' hg h
  obtain ⟨sigmoid, product, -, -, -, rfl⟩ := exists_of_contractPair? h
  have hswish : ∀ n, p n.toSwish = p n := fun n => hp n "Swish" n.inbound n.deleted
  rw [contract, map_retire (fun n xs d => hp n n.opType xs d), map_modify hswish, hg]

/-- What holds of a swish and depends on wiring and marks in no way holds of all nodes after all
contractions. -/
theorem forall_mem_contractSwish {P : Node → Prop} (hs : ∀ n, P n → P n.toSwish)
    (hP : ∀ (n : Node) xs d, P n → P { n with inbound := xs, deleted := d })
    (h : ∀ n ∈ g.nodes, P n) : ∀ n ∈ g.contractSwish.1.nodes, P n := by
  refine contractPairs_invariant (P := fun _ g' => ∀ n ∈ g'.nodes, P n)
    (fun _ _ _ h => h) ?_ _ h
  intro i j ps g₁ g' hg h
  obtain ⟨sigmoid, product, -, -, -, rfl⟩ := exists_of_contractPair? h
  exact forall_mem_retire hP (forall_mem_modify hs hg i) _ _ _

end Graph

end LayerGraph
