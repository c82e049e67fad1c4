import LayerGraph.Proofs.Contraction
import Mathlib.Data.List.Sort
import Mathlib.Data.Nat.Find

/-!
# Contracting swish leaves no pair

The pairs that are tried are the neighbours among the live nodes before the first contraction, yet
there are none left after the last one (`LayerGraph.Graph.contractSwish_exhaustive`). Two things
could go wrong, and neither does.

A pair that was refused could match later. In an ordered graph it does not: a contraction rewires
nodes after its product only, and the one earlier node that it touches is its sigmoid, which may be
the second of the refused pair, but is no product then
(`LayerGraph.Graph.Rejected.of_contractPair?`).

Nodes could become neighbours that were none before. Between them some node has left, so the one
right behind the first of the two has left, and it has left as the product of that first one, which
is a swish by now and no sigmoid.
-/

namespace LayerGraph

namespace Graph

variable {g g' h : Graph} {a b i j k : Nat} {s m : Node} {ps : List (Nat × Nat)}

/-! ### Neighbours -/

/-- **Neighbours**: two live positions with no live one between them. -/
structure Neighbours (g : Graph) (i j : Nat) : Prop where
  fst : i ∈ g.liveIds
  snd : j ∈ g.liveIds
  lt : i < j
  adjacent : ∀ k ∈ g.liveIds, i < k → j ≤ k

theorem Neighbours.unique (h₁ : g.Neighbours a j) (h₂ : g.Neighbours b j) : a = b := by
  rcases Nat.lt_trichotomy a b with hlt | he | hlt
  · exact absurd (h₁.adjacent b h₂.fst hlt) (Nat.not_le_of_lt h₂.lt)
  · exact he
  · exact absurd (h₂.adjacent a h₁.fst hlt) (Nat.not_le_of_lt h₁.lt)

/-- Behind a live position that is not the last one stands a neighbour. -/
theorem exists_neighbours (ha : a ∈ g.liveIds) (hb : b ∈ g.liveIds) (hab : a < b) :
    ∃ c, g.Neighbours a c ∧ c ≤ b := by
  classical
  have hex : ∃ c, a < c ∧ c ∈ g.liveIds := ⟨b, hab, hb⟩
  obtain ⟨hlt, hmem⟩ := Nat.find_spec hex
  exact ⟨Nat.find hex, ⟨ha, hmem, hlt, fun k hk hak => Nat.find_min' hex ⟨hak, hk⟩⟩,
    Nat.find_min' hex ⟨hab, hb⟩⟩

/-- In an increasing list, an element is paired with the next greater one. -/
theorem mem_zip_tail_iff : ∀ {ids : List Nat}, ids.Pairwise (· < ·) →
    ((i, j) ∈ ids.zip ids.tail ↔ i ∈ ids ∧ j ∈ ids ∧ i < j ∧ ∀ k ∈ ids, i < k → j ≤ k)
  | [], _ => by simp
  | [c], _ => by
    simp only [List.tail_cons, List.zip_nil_right, List.not_mem_nil, List.mem_singleton, false_iff]
    rintro ⟨rfl, rfl, hlt, -⟩
    exact Nat.lt_irrefl _ hlt
  | c :: d :: ids, h => by
    obtain ⟨hc, hd⟩ := List.pairwise_cons.mp h
    have hcd : c < d := hc d List.mem_cons_self
    have hnext : ∀ k ∈ d :: ids, d ≤ k := by
      intro k hk
      rcases List.mem_cons.mp hk with rfl | hk
      · exact Nat.le_refl _
      · exact Nat.le_of_lt ((List.pairwise_cons.mp hd).1 k hk)
    have ih : (i, j) ∈ (d :: ids).zip ids ↔ _ := mem_zip_tail_iff hd
    rw [List.tail_cons, List.zip_cons_cons, List.mem_cons, ih, Prod.mk.injEq]
    constructor
    · rintro (⟨rfl, rfl⟩ | ⟨hi, hj, hlt, hall⟩)
      · refine ⟨List.mem_cons_self, by simp, hcd, fun k hk hlt => ?_⟩
        exact hnext k ((List.mem_cons.mp hk).resolve_left (Nat.ne_of_gt hlt))
      · refine ⟨List.mem_cons_of_mem _ hi, List.mem_cons_of_mem _ hj, hlt, fun k hk hik => ?_⟩
        refine hall k ((List.mem_cons.mp hk).resolve_left ?_) hik
        exact Nat.ne_of_gt (Nat.lt_trans (hc i hi) hik)
    · rintro ⟨hi, hj, hlt, hall⟩
      rcases List.mem_cons.mp hi with rfl | hi
      · have hjmem := (List.mem_cons.mp hj).resolve_left (Nat.ne_of_gt hlt)
        exact .inl ⟨rfl, Nat.le_antisymm (hall d (by simp) hcd) (hnext j hjmem)⟩
      · have hci : c < i := Nat.lt_of_lt_of_le hcd (hnext i hi)
        refine .inr ⟨hi, (List.mem_cons.mp hj).resolve_left (Nat.ne_of_gt (Nat.lt_trans hci hlt)),
          hlt, fun k hk => hall k (List.mem_cons_of_mem _ hk)⟩

theorem neighbours_iff : (i, j) ∈ g.liveIds.zip g.liveIds.tail ↔ g.Neighbours i j := by
  rw [mem_zip_tail_iff pairwise_liveIds]
  exact ⟨fun h => ⟨h.1, h.2.1, h.2.2.1, h.2.2.2⟩, fun h => ⟨h.fst, h.snd, h.lt, h.adjacent⟩⟩

/-! ### The pairs that are contracted -/

/-- The pairs of a list that a run contracts. -/
def contractedPairs : Graph → List (Nat × Nat) → List (Nat × Nat)
  | _, [] => []
  | g, (i, j) :: ps =>
    match g.contractPair? i j with
    | some g' => (i, j) :: contractedPairs g' ps
    | none => contractedPairs g ps

theorem contractedPairs_cons_some (hc : g.contractPair? i j = some g') :
    g.contractedPairs ((i, j) :: ps) = (i, j) :: g'.contractedPairs ps := by
  rw [contractedPairs, hc]

theorem contractedPairs_cons_none (hc : g.contractPair? i j = none) :
    g.contractedPairs ((i, j) :: ps) = g.contractedPairs ps := by
  rw [contractedPairs, hc]

theorem contractPairs_cons_some (hc : g.contractPair? i j = some g') :
    g.contractPairs ((i, j) :: ps) = ((g'.contractPairs ps).1, (g'.contractPairs ps).2 + 1) := by
  rw [contractPairs, hc]

theorem contractPairs_cons_none (hc : g.contractPair? i j = none) :
    g.contractPairs ((i, j) :: ps) = g.contractPairs ps := by
  rw [contractPairs, hc]

theorem contractedPairs_sublist : ∀ (g : Graph) (ps : List (Nat × Nat)),
    (g.contractedPairs ps).Sublist ps
  | _, [] => List.Sublist.refl _
  | g, (i, j) :: ps => by
    cases hc : g.contractPair? i j with
    | some g' =>
      rw [contractedPairs_cons_some hc]
      exact (contractedPairs_sublist g' ps).cons_cons _
    | none =>
      rw [contractedPairs_cons_none hc]
      exact (contractedPairs_sublist g ps).cons _

/-- A run counts the pairs that it contracts. -/
theorem contractPairs_snd : ∀ (g : Graph) (ps : List (Nat × Nat)),
    (g.contractPairs ps).2 = (g.contractedPairs ps).length
  | _, [] => rfl
  | g, (i, j) :: ps => by
    cases hc : g.contractPair? i j with
    | some g' =>
      rw [contractPairs_cons_some hc, contractedPairs_cons_some hc, contractPairs_snd g' ps]
      rfl
    | none => rw [contractPairs_cons_none hc, contractedPairs_cons_none hc, contractPairs_snd g ps]

/-- A run over pairs that do not match does nothing. -/
theorem contractPairs_of_forall_none : ∀ {ps : List (Nat × Nat)},
    (∀ p ∈ ps, g.contractPair? p.1 p.2 = none) → g.contractPairs ps = (g, 0)
  | [], _ => rfl
  | (i, j) :: ps, h => by
    obtain ⟨hp, hps⟩ := List.forall_mem_cons.mp h
    rw [contractPairs_cons_none hp]
    exact contractPairs_of_forall_none hps

/-! ### What becomes of the nodes -/

/-- A contraction changes the operator of the sigmoid only. -/
theorem opType_contract : ((g.contract i j s m).node? k).map Node.opType =
    (g.node? k).map fun n => if k = i then "Swish" else n.opType := by
  rw [contract, retire, remove, node?_modify, node?_splice, node?_modify, Option.map_map,
    Option.map_map, Option.map_map]
  refine congrArg (Option.map · _) (funext fun n => ?_)
  simp only [Function.comp]
  split <;> split <;> split <;> rfl

theorem mem_liveIds_contract : k ∈ (g.contract i j s m).liveIds ↔ k ∈ g.liveIds ∧ k ≠ j := by
  simp only [mem_liveIds, liveAt_contract]
  constructor
  · rintro ⟨_, hne, n, hn, -⟩
    exact ⟨⟨n, hn⟩, hne⟩
  · rintro ⟨⟨n, hn⟩, hne⟩
    exact ⟨_, hne, n, hn, rfl⟩

/-- **After a run the products of the contracted pairs are gone**, and nothing else. -/
theorem mem_liveIds_contractPairs : ∀ {ps : List (Nat × Nat)} {g : Graph},
    k ∈ (g.contractPairs ps).1.liveIds ↔
      k ∈ g.liveIds ∧ k ∉ (g.contractedPairs ps).map Prod.snd
  | [], g => by simp [contractPairs, contractedPairs]
  | (i, j) :: ps, g => by
    cases hc : g.contractPair? i j with
    | some g' =>
      obtain ⟨s, m, -, -, -, rfl⟩ := exists_of_contractPair? hc
      rw [contractPairs_cons_some hc, contractedPairs_cons_some hc, mem_liveIds_contractPairs,
        mem_liveIds_contract, List.map_cons, List.mem_cons, not_or, and_assoc]
    | none =>
      rw [contractPairs_cons_none hc, contractedPairs_cons_none hc]
      exact mem_liveIds_contractPairs

/-- **After a run the sigmoids of the contracted pairs are swishes**, and all other operators are
what they were. -/
theorem opType_contractPairs : ∀ {ps : List (Nat × Nat)} {g : Graph},
    ((g.contractPairs ps).1.node? k).map Node.opType =
      ((g.node? k).map Node.opType).map fun op =>
        if k ∈ (g.contractedPairs ps).map Prod.fst then "Swish" else op
  | [], g => by simp [contractPairs, contractedPairs, Function.comp_def]
  | (i, j) :: ps, g => by
    cases hc : g.contractPair? i j with
    | some g' =>
      obtain ⟨s, m, -, -, -, rfl⟩ := exists_of_contractPair? hc
      rw [contractPairs_cons_some hc, contractedPairs_cons_some hc, opType_contractPairs,
        opType_contract, Option.map_map, Option.map_map]
      refine congrArg (Option.map · _) (funext fun n => ?_)
      by_cases hk : k = i
      · subst hk
        simp
      · have hmem : k ∈ ((i, j) :: (g.contract i j s m).contractedPairs ps).map Prod.fst ↔
            k ∈ ((g.contract i j s m).contractedPairs ps).map Prod.fst :=
          List.mem_cons.trans (or_iff_right hk)
        simp only [Function.comp, if_neg hk, hmem]
    | none =>
      rw [contractPairs_cons_none hc, contractedPairs_cons_none hc]
      exact opType_contractPairs

/-- **The contracted pairs are sigmoids and products**, and were so before the run. -/
theorem opTypes_of_mem_contractedPairs : ∀ {ps : List (Nat × Nat)} {g : Graph},
    (i, j) ∈ g.contractedPairs ps →
      (g.node? i).map Node.opType = some "Sigmoid" ∧ (g.node? j).map Node.opType = some "Mul"
  | [], _, h => by cases h
  | (a, b) :: ps, g, h => by
    cases hc : g.contractPair? a b with
    | some g' =>
      obtain ⟨s, m, hs, hm, hpair, rfl⟩ := exists_of_contractPair? hc
      rw [contractedPairs_cons_some hc] at h
      rcases List.mem_cons.mp h with he | h
      · obtain ⟨rfl, rfl⟩ := Prod.mk.inj he
        obtain ⟨-, hsig, hmul, -⟩ := isSwishPair_eq_true_iff.mp hpair
        exact ⟨by rw [hs.1, Option.map_some, hsig], by rw [hm, Option.map_some, hmul]⟩
      · -- no operator became one of these two in the contraction
        have hback : ∀ {k : Nat} {op : String}, op ≠ "Swish" →
            ((g.contract a b s m).node? k).map Node.opType = some op →
              (g.node? k).map Node.opType = some op := by
          intro k op hop hk
          rw [opType_contract, Option.map_eq_some_iff] at hk
          obtain ⟨n, hn, he⟩ := hk
          split at he
          · exact absurd he.symm hop
          · rw [hn, Option.map_some, he]
        obtain ⟨hi, hj⟩ := opTypes_of_mem_contractedPairs h
        exact ⟨hback (by decide) hi, hback (by decide) hj⟩
    | none =>
      rw [contractedPairs_cons_none hc] at h
      exact opTypes_of_mem_contractedPairs h

/-! ### Pairs that are refused -/

/-- **A refused pair**: two positions whose nodes are there and do not match. -/
structure Rejected (g : Graph) (a b : Nat) : Prop where
  lt : a < b
  there : b ∈ g.liveIds
  none : g.contractPair? a b = none

/-- **A refused pair stays refused** when nodes after it are contracted. The second of the pair may
be the sigmoid of the contraction, but then it is a swish afterwards and no product. -/
theorem Rejected.of_contractPair? (hr : g.Rejected a b) (hg : g.Ordered) (hbi : b ≤ i)
    (hij : i < j) (hc : g.contractPair? i j = some g') : g'.Rejected a b := by
  obtain ⟨s, m, hs, hm, -, rfl⟩ := exists_of_contractPair? hc
  have hbj : b < j := Nat.lt_of_le_of_lt hbi hij
  refine ⟨hr.lt, mem_liveIds_contract.mpr ⟨hr.there, Nat.ne_of_lt hbj⟩, ?_⟩
  refine Option.eq_none_iff_forall_not_mem.mpr fun g'' hg'' => ?_
  obtain ⟨t', l', ht', hl', hpair, -⟩ := exists_of_contractPair? hg''
  -- the nodes of the pair refer to earlier nodes only, so not to the product
  have hsame : ∀ {c : Nat} {n : Node}, c ≤ b → g.LiveAt c n → n.rewire m.name [s.name] = n := by
    intro c n hcb hn
    refine Node.rewire_of_not_mem fun hx => ?_
    exact Nat.lt_asymm (hg.backward.lt hn hm hx) (Nat.lt_of_le_of_lt hcb hbj)
  obtain ⟨l, hl⟩ := mem_liveIds.mp hr.there
  have hlive : (g.contract i j s m).LiveAt b l' := by
    obtain ⟨l₁, hl₁⟩ := mem_liveIds.mp (mem_liveIds_contract.mpr ⟨hr.there, Nat.ne_of_lt hbj⟩)
    rwa [Option.some.inj (hl'.symm.trans hl₁.1)]
  obtain ⟨-, t, ht, rfl⟩ := liveAt_contract.mp ht'
  obtain ⟨-, l₁, hl₁, rfl⟩ := liveAt_contract.mp hlive
  obtain rfl := hl.unique hl₁
  rw [if_neg (Nat.ne_of_lt (Nat.lt_of_lt_of_le hr.lt hbi)), hsame (Nat.le_of_lt hr.lt) ht] at hpair
  by_cases hb : b = i
  · rw [if_pos hb] at hpair
    have hop : "Swish" = "Mul" := (isSwishPair_eq_true_iff.mp hpair).2.2.1
    exact absurd hop (by decide)
  · rw [if_neg hb, hsame (Nat.le_refl b) hl] at hpair
    have hold := hr.none
    rw [Graph.contractPair?, ht.1, hl.1] at hold
    simp [hpair] at hold

/-- **After a run all pairs that were not contracted are refused**, and so are those that were
refused before and come before all pairs of the run. -/
theorem rejected_of_contractPairs {S : Nat × Nat → Prop} : ∀ {ps : List (Nat × Nat)} {g : Graph},
    g.Ordered → (∀ q ∈ ps, q.1 < q.2 ∧ q.2 ∈ g.liveIds) → ps.Pairwise (fun p q => p.2 ≤ q.1) →
      (∀ p, S p → ∀ q ∈ ps, p.2 ≤ q.1) → (∀ p, S p → g.Rejected p.1 p.2) →
      ∀ p, S p ∨ p ∈ ps → p ∉ g.contractedPairs ps → (g.contractPairs ps).1.Rejected p.1 p.2
  | [], _, _, _, _, _, hS, p, hp, _ => hS p (hp.resolve_right List.not_mem_nil)
  | (i, j) :: ps, g, hg, hps, hapart, hbefore, hS, p, hp, hnot => by
    obtain ⟨hij, hj⟩ := hps (i, j) List.mem_cons_self
    obtain ⟨hfirst, hapart⟩ := List.pairwise_cons.mp hapart
    cases hc : g.contractPair? i j with
    | some g' =>
      have hg' := hg.contractPair? hij hj hc
      rw [contractPairs_cons_some hc]
      rw [contractedPairs_cons_some hc, List.mem_cons, not_or] at hnot
      have hps' : ∀ q ∈ ps, q.1 < q.2 ∧ q.2 ∈ g'.liveIds := by
        intro q hq
        obtain ⟨hlt, hmem⟩ := hps q (List.mem_cons_of_mem _ hq)
        exact ⟨hlt, mem_liveIds_of_contractPair? hc hmem
          (Nat.ne_of_gt (Nat.lt_of_le_of_lt (hfirst q hq) hlt))⟩
      refine rejected_of_contractPairs hg' hps' hapart
        (fun p hp q hq => hbefore p hp q (List.mem_cons_of_mem _ hq)) (fun p hp => ?_) p ?_ hnot.2
      · exact (hS p hp).of_contractPair? hg (hbefore p hp (i, j) List.mem_cons_self) hij hc
      · exact hp.imp_right fun hmem => (List.mem_cons.mp hmem).resolve_left hnot.1
    | none =>
      rw [contractPairs_cons_none hc]
      rw [contractedPairs_cons_none hc] at hnot
      -- the pair that has just been refused joins those before it
      refine rejected_of_contractPairs (S := fun p => S p ∨ p = (i, j)) hg
        (fun q hq => hps q (List.mem_cons_of_mem _ hq)) hapart ?_ ?_ p ?_ hnot
      · rintro p (hp | rfl) q hq
        · exact hbefore p hp q (List.mem_cons_of_mem _ hq)
        · exact hfirst q hq
      · rintro p (hp | rfl)
        · exact hS p hp
        · exact ⟨hij, hj, hc⟩
      · rcases hp with hp | hp
        · exact .inl (.inl hp)
        · exact (List.mem_cons.mp hp).elim (fun he => .inl (.inr he)) .inr

/-! ### All neighbours -/

/-- The pairs that contracting swish contracts. -/
def swishPairs (g : Graph) : List (Nat × Nat) :=
  g.contractedPairs (g.liveIds.zip g.liveIds.tail)

/-- **A contracted pair**: neighbours, of which the first was a sigmoid and is a swish afterwards,
and the second was a product. -/
structure SwishMade (g h : Graph) (i j : Nat) : Prop where
  neighbours : g.Neighbours i j
  sigmoid : ∃ s, g.LiveAt i s ∧ s.opType = "Sigmoid"
  product : ∃ m, g.LiveAt j m ∧ m.opType = "Mul"
  swish : ∃ s, h.LiveAt i s ∧ s.opType = "Swish"

theorem neighbours_of_mem_swishPairs (hp : (i, j) ∈ g.swishPairs) : g.Neighbours i j :=
  neighbours_iff.mp ((contractedPairs_sublist ..).subset hp)

theorem mem_liveIds_contractSwish :
    k ∈ g.contractSwish.1.liveIds ↔ k ∈ g.liveIds ∧ k ∉ g.swishPairs.map Prod.snd :=
  mem_liveIds_contractPairs

theorem opType_contractSwish : (g.contractSwish.1.node? k).map Node.opType =
    ((g.node? k).map Node.opType).map fun op =>
      if k ∈ g.swishPairs.map Prod.fst then "Swish" else op :=
  opType_contractPairs

theorem SwishMade.of_mem (hp : (i, j) ∈ g.swishPairs) : g.SwishMade g.contractSwish.1 i j := by
  have hn := neighbours_of_mem_swishPairs hp
  obtain ⟨s, hs⟩ := mem_liveIds.mp hn.fst
  obtain ⟨m, hm⟩ := mem_liveIds.mp hn.snd
  obtain ⟨hsig, hmul⟩ := opTypes_of_mem_contractedPairs hp
  rw [hs.1, Option.map_some] at hsig
  rw [hm.1, Option.map_some] at hmul
  -- the sigmoid is the product of no pair, so it is still there
  have hstays : i ∈ g.contractSwish.1.liveIds := by
    refine mem_liveIds_contractSwish.mpr ⟨hn.fst, fun hmem => ?_⟩
    obtain ⟨⟨a, _⟩, hp', rfl⟩ := List.mem_map.mp hmem
    have hmul' := (opTypes_of_mem_contractedPairs hp').2
    rw [hs.1, Option.map_some, Option.some.inj hsig] at hmul'
    exact absurd hmul' (by decide)
  obtain ⟨s', hs'⟩ := mem_liveIds.mp hstays
  have hop := opType_contractSwish (g := g) (k := i)
  have hmem : i ∈ g.swishPairs.map Prod.fst := List.mem_map.mpr ⟨_, hp, rfl⟩
  rw [hs'.1, hs.1, Option.map_some, Option.map_some, Option.map_some, if_pos hmem] at hop
  exact ⟨hn, ⟨s, hs, Option.some.inj hsig⟩, ⟨m, hm, Option.some.inj hmul⟩,
    ⟨s', hs', Option.some.inj hop⟩⟩

/-- **After contracting swish no neighbours match.** -/
theorem Neighbours.contractPair?_eq_none (hn : g.contractSwish.1.Neighbours a b) (hg : g.Ordered) :
    g.contractSwish.1.contractPair? a b = none := by
  obtain ⟨ha, hb⟩ := And.intro (mem_liveIds_contractSwish.mp hn.fst)
    (mem_liveIds_contractSwish.mp hn.snd)
  obtain ⟨c, hac, hcb⟩ := exists_neighbours ha.1 hb.1 hn.lt
  by_cases hc : c ∈ g.contractSwish.1.liveIds
  · -- the two were neighbours before, so their pair was tried and refused
    obtain rfl : b = c := Nat.le_antisymm (hn.adjacent c hc hac.lt) hcb
    refine (rejected_of_contractPairs (S := fun _ => False) hg (fun q hq => ?_)
      (pairwise_zip_tail pairwise_liveIds) (fun _ h => h.elim) (fun _ h => h.elim) (a, b)
      (.inr (neighbours_iff.mpr hac)) fun hmem => hb.2 (List.mem_map.mpr ⟨_, hmem, rfl⟩)).none
    exact ⟨lt_of_mem_zip_tail pairwise_liveIds q hq, List.mem_of_mem_tail (List.of_mem_zip hq).2⟩
  · -- the node right behind the first has left as its product, so the first is a swish
    obtain ⟨⟨a', _⟩, hpair, rfl⟩ : ∃ p ∈ g.swishPairs, p.2 = c := by
      by_contra hnot
      exact hc (mem_liveIds_contractSwish.mpr ⟨hac.snd, fun hmem => hnot (List.mem_map.mp hmem)⟩)
    obtain rfl := (neighbours_of_mem_swishPairs hpair).unique hac
    obtain ⟨s', hs', hswish⟩ := (SwishMade.of_mem hpair).swish
    refine Option.eq_none_iff_forall_not_mem.mpr fun g'' hg'' => ?_
    obtain ⟨s, m, hs, -, hmatch, -⟩ := exists_of_contractPair? hg''
    rw [hs.unique hs', isSwishPair_eq_true_iff, hswish] at hmatch
    exact absurd hmatch.2.1 (by decide)

/-- **The removed nodes are the products of the contracted pairs.** -/
theorem removed_contractSwish : g.removed g.contractSwish.1 = g.swishPairs.map Prod.snd := by
  have hsub : (g.swishPairs.map Prod.snd).Sublist g.liveIds := by
    refine ((contractedPairs_sublist ..).map Prod.snd).trans ?_
    rw [map_snd_zip_tail]
    exact List.tail_sublist _
  refine pairwise_removed.eq_of_mem_iff (pairwise_liveIds.sublist hsub) fun k => ?_
  rw [mem_removed, mem_liveIds_contractSwish, not_and, not_not]
  exact ⟨fun h => h.2 h.1, fun h => ⟨hsub.subset h, fun _ => h⟩⟩

/-- **The nodes of another operator are the sigmoids of the contracted pairs.** -/
theorem changedOps_contractSwish : g.changedOps g.contractSwish.1 = g.swishPairs.map Prod.fst := by
  have hpairs : (g.swishPairs.map Prod.fst).Pairwise (· < ·) := by
    refine List.pairwise_map.mpr (((pairwise_zip_tail pairwise_liveIds).sublist
      (contractedPairs_sublist g _)).imp_of_mem fun {p q} hp _ hpq => ?_)
    exact Nat.lt_of_lt_of_le (neighbours_of_mem_swishPairs (i := p.1) (j := p.2) hp).lt hpq
  refine pairwise_changedOps.eq_of_mem_iff hpairs fun k => ?_
  simp only [mem_changedOps, opType_contractSwish]
  constructor
  · rintro ⟨n, hn, hne⟩
    by_contra hnot
    exact hne (by rw [hn, Option.map_some, Option.map_some, if_neg hnot])
  · intro hmem
    obtain ⟨⟨_, j⟩, hp, rfl⟩ := List.mem_map.mp hmem
    obtain ⟨s, hs, hsig⟩ := (SwishMade.of_mem hp).sigmoid
    refine ⟨s, hs.1, ?_⟩
    rw [hs.1, Option.map_some, Option.map_some, if_pos hmem, hsig]
    decide

theorem live_names (g : Graph) :
    g.live.map Node.name = g.liveIds.filterMap fun i => (g.nodes.map Node.name)[i]? := by
  rw [live_eq_filterMap, List.map_filterMap]
  exact List.filterMap_congr fun i _ => List.getElem?_map.symm

/-- What is left of the live nodes is in the order in which it was. -/
theorem live_names_contractSwish :
    (g.contractSwish.1.live.map Node.name).Sublist (g.live.map Node.name) := by
  have hnames : g.contractSwish.1.nodes.map Node.name = g.nodes.map Node.name :=
    map_contractSwish fun _ _ _ _ => rfl
  have hids : g.contractSwish.1.liveIds =
      g.liveIds.filter fun k => k ∉ g.swishPairs.map Prod.snd := by
    refine pairwise_liveIds.eq_of_mem_iff (pairwise_liveIds.sublist List.filter_sublist) fun k => ?_
    rw [mem_liveIds_contractSwish, List.mem_filter, decide_eq_true_eq]
  rw [live_names, live_names, hnames, hids]
  exact List.filter_sublist.filterMap _

/-- **Contracting swish is exhaustive**, and a second time does nothing. In an ordered graph, no
neighbours that are left are a sigmoid and a product of it with its first operand. As many nodes
are removed as contractions were made, and as many have another operator: each removed node is a
product right behind a sigmoid that became a swish, and the other way round. Nothing refers to a
removed node, the graph is as ordered as before, and the nodes that are left keep their order. -/
theorem contractSwish_exhaustive (hg : g.Ordered) (run : g.contractSwish = (h, k)) :
    (∀ i j s m, h.Neighbours i j → h.LiveAt i s → h.LiveAt j m → s.opType = "Sigmoid" →
      m.opType = "Mul" → ∀ x, s.inputs.head? = some x → ¬ (s.name ∈ m.inputs ∧ x ∈ m.inputs)) ∧
    (g.removed h).length = k ∧ (g.changedOps h).length = k ∧
    (∀ j ∈ g.removed h, ∃ i, g.SwishMade h i j) ∧
    (∀ i ∈ g.changedOps h, ∃ j, g.SwishMade h i j) ∧
    (∀ j ∈ g.removed h, ∀ m, g.node? j = some m → h.users m.name = []) ∧
    h.Ordered ∧
    (h.live.map Node.name).Sublist (g.live.map Node.name) ∧
    h.contractSwish = (h, 0) := by
  obtain ⟨rfl, rfl⟩ : h = g.contractSwish.1 ∧ k = g.contractSwish.2 := by rw [run]; exact ⟨rfl, rfl⟩
  have hcount : g.contractSwish.2 = g.swishPairs.length := contractPairs_snd ..
  have hnone : ∀ p ∈ g.contractSwish.1.liveIds.zip g.contractSwish.1.liveIds.tail,
      g.contractSwish.1.contractPair? p.1 p.2 = none := fun p hp =>
    (neighbours_iff.mp hp).contractPair?_eq_none hg
  refine ⟨fun i j s m hn hs hm hsig hmul x hx hboth => ?_, ?_, ?_, fun j hj => ?_, fun i hi => ?_,
    fun j hj m hm => ?_, hg.contractSwish, live_names_contractSwish,
    contractPairs_of_forall_none hnone⟩
  · have hpair : isSwishPair s m = true :=
      isSwishPair_eq_true_iff.mpr ⟨hs.2, hsig, hmul, hboth.1, x, hx, hboth.2⟩
    have hno := hn.contractPair?_eq_none hg
    simp [contractPair?, hs.1, hm.1, hpair] at hno
  · rw [removed_contractSwish, List.length_map, hcount]
  · rw [changedOps_contractSwish, List.length_map, hcount]
  · rw [removed_contractSwish] at hj
    obtain ⟨⟨i, _⟩, hp, rfl⟩ := List.mem_map.mp hj
    exact ⟨i, SwishMade.of_mem hp⟩
  · rw [changedOps_contractSwish] at hi
    obtain ⟨⟨_, j⟩, hp, rfl⟩ := List.mem_map.mp hi
    exact ⟨j, SwishMade.of_mem hp⟩
  · -- the removed node is there under its name, and marked
    have hname := congrArg (·[j]?) (map_contractSwish (g := g) (p := Node.name) fun _ _ _ _ => rfl)
    simp only [List.getElem?_map] at hname
    rw [show g.nodes[j]? = some m from hm, Option.map_some, Option.map_eq_some_iff] at hname
    obtain ⟨m', hm', heq⟩ := hname
    have hdel : m'.deleted = true := by
      by_contra hlive
      exact (mem_removed.mp hj).2 (mem_liveIds.mpr ⟨m', hm', by simpa using hlive⟩)
    refine List.eq_nil_iff_forall_not_mem.mpr fun i hi => ?_
    obtain ⟨n, hn, hx⟩ := mem_users.mp hi
    exact hg.contractSwish.not_mem_inputs hm' hdel (mem_live.mpr ⟨i, hn⟩) (heq ▸ hx)

/-- Two pairs, with a second product behind the first of them and a deleted node inside the second.
The last two nodes are no pair, before or after. -/
def swishRow : Graph := ⟨[
  { name := "x", opType := "Input", inbound := some [] },
  { name := "s", opType := "Sigmoid", inbound := some ["x"] },
  { name := "m", opType := "Mul", inbound := some ["x", "s"] },
  { name := "r", opType := "Mul", inbound := some ["s", "x"] },
  { name := "t", opType := "Sigmoid", inbound := some ["m"] },
  { name := "old", opType := "Relu", inbound := some ["ghost"], deleted := true },
  { name := "p", opType := "Mul", inbound := some ["t", "m"] },
  { name := "u", opType := "Sigmoid", inbound := some ["p"] },
  { name := "v", opType := "Mul", inbound := some ["u", "m"] }]⟩

/-- The second product becomes the neighbour of a swish and is left alone. -/
theorem contractSwish_swishRow :
    swishRow.Ordered ∧ swishRow.contractSwish.2 = 2 ∧
      swishRow.contractSwish.1.live.map (fun n => (n.name, n.opType, n.inputs)) =
        [("x", "Input", []), ("s", "Swish", ["x"]), ("r", "Mul", ["s", "x"]),
          ("t", "Swish", ["s"]), ("u", "Sigmoid", ["t"]), ("v", "Mul", ["u", "s"])] ∧
      (swishRow.removed swishRow.contractSwish.1).length = 2 ∧
      (swishRow.changedOps swishRow.contractSwish.1).length = 2 ∧
      (∃ i, swishRow.SwishMade swishRow.contractSwish.1 i 6) ∧
      swishRow.contractSwish.1.contractSwish = (swishRow.contractSwish.1, 0) := by
  have hg : swishRow.Ordered := by decide
  have hk : swishRow.contractSwish.2 = 2 := by decide
  obtain ⟨-, hgone, hchanged, hmade, -, -, -, -, htwice⟩ :=
    contractSwish_exhaustive hg (h := swishRow.contractSwish.1) (k := 2) (Prod.ext rfl hk)
  exact ⟨hg, hk, by decide, hgone, hchanged, hmade 6 (by decide), htwice⟩

end Graph

end LayerGraph
