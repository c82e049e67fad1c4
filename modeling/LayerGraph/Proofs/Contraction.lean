import LayerGraph.Proofs.Preservation
import LayerGraph.Proofs.Swish

/-!
# What contracting swish computes

Let swish be the product of a value with its sigmoid, and let products commute. Then a contraction
gives the node of the sigmoid the value that the product had, and whoever referred to the product
refers to it. Nobody else may refer to it: the sigmoid keeps its name, so another user of the
sigmoid would go on to read that name and find the swish there.

The pattern itself does not ask for this. Where it holds of all neighbours that match, all
contractions together keep what the graph computes, and it is enough to look at the graph as it
stands before the first one: a contraction makes no new match and brings no sigmoid a new user
(`LayerGraph.Graph.SwishAt.unshared_contract`). Where it fails, the values change:
`LayerGraph.Graph.sharedSigmoid` adds a sigmoid to its swish, and ends up with twice the swish.
-/

namespace LayerGraph

universe u

variable {V : Type u}

/-! ### Layers as functions -/

namespace Node

/-- The node without its wiring and its mark: what the function of a layer may depend on. -/
def unwired (n : Node) : Node := { n with inbound := none, deleted := false }

@[simp] theorem unwired_rewire (n : Node) (r : String) (names : List String) :
    (n.rewire r names).unwired = n.unwired := rfl

@[simp] theorem unwired_toSwish (n : Node) : n.toSwish.unwired = n.unwired.toSwish := rfl

theorem opType_of_unwired {n m : Node} (h : n.unwired = m.unwired) : n.opType = m.opType :=
  (congrArg opType h :)

end Node

/-- The meaning of nodes if each computes a function of the values of all its operands. -/
def Meaning.ofLayers (layer : Node → List V → V) : Meaning V := fun n vs =>
  (vs.mapM id).map (layer n.unwired)

namespace Graph

variable {g g' h h' : Graph} {i j k : Nat} {n s m : Node} {x : String} {ps : List (Nat × Nat)}
  {layer : Node → List V → V} {ρ ρ' : String → Option V}

/-- **Swish is the product of a value with its sigmoid**, and the order of a product does not
matter: this is how the layers of `g` are read. -/
structure ReadsSwish (layer : Node → List V → V) (g : Graph) : Prop where
  swish : ∀ s ∈ g.live, ∀ m ∈ g.live, s.opType = "Sigmoid" → m.opType = "Mul" →
    ∀ v, layer s.unwired.toSwish [v] = layer m.unwired [v, layer s.unwired [v]]
  comm : ∀ m ∈ g.live, m.opType = "Mul" → ∀ v w, layer m.unwired [v, w] = layer m.unwired [w, v]

/-- **Sigmoids have one operand and products two.** -/
def SwishWired (g : Graph) : Prop :=
  ∀ n ∈ g.live, (n.opType = "Sigmoid" → n.inputs.length = 1) ∧
    (n.opType = "Mul" → n.inputs.length = 2)

instance (g : Graph) : Decidable g.SwishWired :=
  inferInstanceAs (Decidable (∀ n ∈ g.live, _))

/-- **The sigmoid of a match is not shared**: if the nodes at two positions match, the second is
the only one to refer to the first. -/
def Unshared (g : Graph) (i j : Nat) : Prop :=
  ∀ s ∈ g.node? i, ∀ m ∈ g.node? j, m.deleted = false → isSwishPair s m = true →
    g.users s.name = [j]

instance (g : Graph) (i j : Nat) : Decidable (g.Unshared i j) :=
  inferInstanceAs (Decidable (∀ s ∈ g.node? i, ∀ m ∈ g.node? j, _))

/-! ### One contraction -/

/-- **A swish at two positions** of a graph: the sigmoid of `x`, and later the product of the two,
in either order. -/
structure SwishAt (g : Graph) (i j : Nat) (s m : Node) (x : String) : Prop where
  sigmoid : g.LiveAt i s
  product : g.LiveAt j m
  lt : i < j
  isSigmoid : s.opType = "Sigmoid"
  isProduct : m.opType = "Mul"
  single : s.inputs = [x]
  double : m.inputs = [x, s.name] ∨ m.inputs = [s.name, x]

/-- What it takes to match, for a sigmoid that is there and has one operand. -/
theorem isSwishPair_iff (hlive : s.deleted = false) (hin : s.inputs = [x]) :
    isSwishPair s m = true ↔
      s.opType = "Sigmoid" ∧ m.opType = "Mul" ∧ s.name ∈ m.inputs ∧ x ∈ m.inputs := by
  simp [isSwishPair_eq_true_iff, hlive, hin]

/-- What a match says without knowing the operand of the sigmoid. -/
theorem of_isSwishPair (hpair : isSwishPair s m = true) :
    s.deleted = false ∧ s.opType = "Sigmoid" ∧ s.name ∈ m.inputs := by
  obtain ⟨hlive, hop, -, hmem, -⟩ := isSwishPair_eq_true_iff.mp hpair
  exact ⟨hlive, hop, hmem⟩

/-- A list of two that has two elements consists of them. -/
theorem eq_pair_of_mem {α : Type} {a b : α} {l : List α} (hlen : l.length = 2) (ha : a ∈ l)
    (hb : b ∈ l) (hne : a ≠ b) : l = [a, b] ∨ l = [b, a] := by
  obtain ⟨c, d, rfl⟩ := List.length_eq_two.mp hlen
  simp only [List.mem_cons, List.not_mem_nil, or_false] at ha hb
  rcases ha with rfl | rfl <;> rcases hb with rfl | rfl
  · exact absurd rfl hne
  · exact .inl rfl
  · exact .inr rfl
  · exact absurd rfl hne

/-- Nodes of an ordered and well-wired graph that match are a swish. -/
theorem exists_swishAt (hg : g.Ordered) (hw : g.SwishWired) (hs : g.LiveAt i s)
    (hm : g.LiveAt j m) (hij : i < j) (hpair : isSwishPair s m = true) :
    ∃ x, g.SwishAt i j s m x := by
  have hop : s.opType = "Sigmoid" := (of_isSwishPair hpair).2.1
  obtain ⟨x, hin⟩ := List.length_eq_one_iff.mp ((hw s (mem_live.mpr ⟨i, hs⟩)).1 hop)
  obtain ⟨-, hmul, hsm, hxm⟩ := (isSwishPair_iff hs.2 hin).mp hpair
  -- a node is not its own operand, so the two operands of the product are not the same
  have hne : x ≠ s.name := by
    obtain ⟨l, n, hl, hn, rfl⟩ := hg.earlier i s hs x (by simp [hin])
    intro he
    exact Nat.ne_of_lt hl (hg.distinct.eq_of_name hn.1 hs.1 he)
  exact ⟨x, hs, hm, hij, hop, hmul, hin,
    eq_pair_of_mem ((hw m (mem_live.mpr ⟨j, hm⟩)).2 hmul) hxm hsm hne⟩

/-- A layer needs the values of all operands, and these only. -/
theorem ofLayers_some (n : Node) (vs : List V) :
    Meaning.ofLayers layer n (vs.map some) = some (layer n.unwired vs) := by
  have hall : (vs.map some).mapM id = some vs := by
    induction vs with
    | nil => rfl
    | cons v vs ih => simp [List.mapM_cons, ih]
  rw [Meaning.ofLayers, hall, Option.map_some]

namespace SwishAt

variable (hp : g.SwishAt i j s m x)

include hp in
/-- **The product of a swish has the value that swish makes of the operand.** -/
theorem value_product (hread : ReadsSwish layer g) (hs : (Meaning.ofLayers layer).Solves g ρ) :
    ρ m.name = Meaning.ofLayers layer s.toSwish (s.inputs.map ρ) := by
  have hsig : ρ s.name = Meaning.ofLayers layer s [ρ x] := by rw [hs i s hp.sigmoid, hp.single]; rfl
  have hmul : ρ m.name = Meaning.ofLayers layer m (m.inputs.map ρ) := hs j m hp.product
  rw [hmul, hp.single]
  cases hx : ρ x with
  | none =>
    -- without the operand there is neither a product nor a swish
    rw [hx] at hsig
    have hnone : ρ s.name = none := hsig
    rcases hp.double with h | h <;> simp [h, hx, hnone, Meaning.ofLayers, List.mapM_cons]
  | some v =>
    have hsome : ρ s.name = some (layer s.unwired [v]) := by
      rw [hsig, hx]
      exact ofLayers_some s [v]
    have hcomm : Meaning.ofLayers layer m (m.inputs.map ρ) =
        some (layer m.unwired [v, layer s.unwired [v]]) := by
      rcases hp.double with h | h
      · rw [h, List.map_cons, List.map_cons, hx, hsome]
        exact ofLayers_some m [v, layer s.unwired [v]]
      · rw [h, List.map_cons, List.map_cons, hx, hsome,
          hread.comm m (mem_live.mpr ⟨j, hp.product⟩) hp.isProduct]
        exact ofLayers_some m [layer s.unwired [v], v]
    rw [hcomm, List.map_cons, hx,
      ← hread.swish s (mem_live.mpr ⟨i, hp.sigmoid⟩) m (mem_live.mpr ⟨j, hp.product⟩) hp.isSigmoid
        hp.isProduct]
    exact (ofLayers_some s.toSwish [v]).symm

include hp in
/-- **The values after a contraction**: the sigmoid takes over the value of the product, if nobody
else refers to it. -/
theorem solves_contract (hg : g.Distinct) (hread : ReadsSwish layer g)
    (hsole : g.users s.name = [j]) (hs : (Meaning.ofLayers layer).Solves g ρ) :
    (Meaning.ofLayers layer).Solves (g.contract i j s m) (takeOver ρ s m) := by
  intro k n' hn'
  obtain ⟨hne, n, hn, rfl⟩ := liveAt_contract.mp hn'
  have hops : (n.rewire m.name [s.name]).inputs.map (takeOver ρ s m) = n.inputs.map ρ :=
    map_takeOver hsole hn hne
  by_cases hk : k = i
  · subst hk
    obtain rfl := hn.unique hp.sigmoid
    rw [if_pos rfl]
    calc takeOver ρ n m n.name
        = ρ m.name := if_pos rfl
      _ = Meaning.ofLayers layer n.toSwish (n.inputs.map ρ) := hp.value_product hread hs
      _ = Meaning.ofLayers layer n.toSwish
            ((n.rewire m.name [n.name]).inputs.map (takeOver ρ n m)) := by rw [hops]
  · have hname : n.name ≠ s.name := fun he => hk (hg.eq_of_name hn.1 hp.sigmoid.1 he)
    rw [if_neg hk, hops, Node.rewire_name, takeOver_of_ne hname, hs k n hn]
    rfl

include hp in
/-- A contraction changes the value of the sigmoid only. -/
theorem value?_contract (hg : g.Ordered) (hg' : (g.contract i j s m).Ordered)
    (hread : ReadsSwish layer g) (hsole : g.users s.name = [j])
    (hn : (g.contract i j s m).LiveAt k n) :
    (Meaning.ofLayers layer).value? (g.contract i j s m) n.name =
      takeOver ((Meaning.ofLayers layer).value? g) s m n.name :=
  (Meaning.solves_value? hg').unique hg'
    (hp.solves_contract hg.distinct hread hsole (Meaning.solves_value? hg)) hn

end SwishAt

/-! ### No new matches -/

/-- A list in which every position comes later than the one before, and which has one element. -/
theorem eq_singleton_of_pairwise {l : List Nat} (hl : l.Pairwise (· < ·)) (hj : j ∈ l)
    (hall : ∀ k ∈ l, k = j) : l = [j] := by
  cases l with
  | nil => cases hj
  | cons a l =>
    obtain rfl := hall a List.mem_cons_self
    cases l with
    | nil => rfl
    | cons b l =>
      have hlt : a < b := (List.pairwise_cons.mp hl).1 b List.mem_cons_self
      exact absurd (hall b (by simp)) (Nat.ne_of_gt hlt)

theorem users_eq_singleton_iff : g.users x = [j] ↔ j ∈ g.users x ∧ ∀ k ∈ g.users x, k = j := by
  refine ⟨fun h => ?_, fun h => eq_singleton_of_pairwise (pairwise_idsWhere _) h.1 h.2⟩
  rw [h]
  simp

namespace SwishAt

variable {a b : Nat} {t l : Node} (hp : g.SwishAt i j s m x) (hsole : g.users s.name = [j])

include hp hsole in
/-- **A contraction makes no new match** among the nodes after the pair. -/
theorem isSwishPair_of_contract (hg : g.Ordered) (hw : g.SwishWired) (ht : g.LiveAt a t)
    (hl : g.LiveAt b l) (hia : i < a) (haj : a ≠ j) (hbj : b ≠ j)
    (hpair : isSwishPair (t.rewire m.name [s.name]) (l.rewire m.name [s.name]) = true) :
    isSwishPair t l = true := by
  have hop : t.opType = "Sigmoid" := (of_isSwishPair hpair).2.1
  obtain ⟨y, hin⟩ := List.length_eq_one_iff.mp ((hw t (mem_live.mpr ⟨a, ht⟩)).1 hop)
  have hin' : (t.rewire m.name [s.name]).inputs = [if y = m.name then s.name else y] := by
    rw [Node.rewire_inputs, hin, substitute_singleton]
    rfl
  obtain ⟨-, hmul, htl, hyl⟩ :=
    (isSwishPair_iff (s := t.rewire m.name [s.name]) ht.2 hin').mp hpair
  rw [Node.rewire_inputs, mem_substitute] at htl hyl
  refine (isSwishPair_iff ht.2 hin).mpr ⟨hop, hmul, ?_, ?_⟩
  · rcases htl with ⟨htl, -⟩ | ⟨-, hts⟩
    · exact htl
    · -- the sigmoid of another pair is another node
      have hts : t.name = s.name := List.mem_singleton.mp hts
      exact absurd (hg.distinct.eq_of_name ht.1 hp.sigmoid.1 hts) (Nat.ne_of_gt hia)
  · by_cases hym : y = m.name
    · rw [if_pos hym] at hyl
      rcases hyl with ⟨hsl, -⟩ | ⟨hml, -⟩
      · -- the product is the only user of the sigmoid
        exact absurd hsl (not_mem_inputs_of_sole hsole hl hbj)
      · rwa [hym]
    · rw [if_neg hym] at hyl
      rcases hyl with ⟨hyl, -⟩ | ⟨-, hys⟩
      · exact hyl
      · have hys : y = s.name := List.mem_singleton.mp hys
        refine absurd ?_ (not_mem_inputs_of_sole hsole ht haj)
        rw [hin, hys]
        exact List.mem_singleton_self _

omit hp hsole in
/-- Only the sigmoid of the pair gets new users. -/
theorem mem_users_of_contract {y : String} (hy : y ≠ s.name)
    (hk : k ∈ (g.contract i j s m).users y) : k ∈ g.users y := by
  obtain ⟨n', hn', hyn⟩ := mem_users.mp hk
  obtain ⟨-, n, hn, rfl⟩ := liveAt_contract.mp hn'
  have hmem : y ∈ (n.rewire m.name [s.name]).inputs := by
    split at hyn
    · exact hyn
    · exact hyn
  rw [Node.rewire_inputs, mem_substitute] at hmem
  rcases hmem with ⟨hmem, -⟩ | ⟨-, hys⟩
  · exact mem_users.mpr ⟨n, hn, hmem⟩
  · exact absurd (List.mem_singleton.mp hys) hy

include hp hsole in
/-- **A contraction keeps what comes after the pair unshared.** -/
theorem unshared_contract (hg : g.Ordered) (hw : g.SwishWired) (hja : j ≤ a) (hab : a < b)
    (hun : g.Unshared a b) : (g.contract i j s m).Unshared a b := by
  intro s' hs' m' hm' hlive hpair
  have hia : i < a := Nat.lt_of_lt_of_le hp.lt hja
  obtain ⟨haj, t, ht, rfl⟩ := liveAt_contract.mp ⟨hs', (of_isSwishPair hpair).1⟩
  obtain ⟨hbj, l, hl, rfl⟩ := liveAt_contract.mp ⟨hm', hlive⟩
  rw [if_neg (Nat.ne_of_gt hia)] at hpair ⊢
  rw [if_neg (Nat.ne_of_gt (Nat.lt_trans hia hab))] at hpair hm' hlive
  have hold : isSwishPair t l = true :=
    hp.isSwishPair_of_contract hsole hg hw ht hl hia haj hbj hpair
  have husers : g.users t.name = [b] := hun t ht.1 l hl.1 hl.2 hold
  obtain ⟨-, hall⟩ := users_eq_singleton_iff.mp husers
  have hts : t.name ≠ s.name := fun he =>
    Nat.ne_of_gt hia (hg.distinct.eq_of_name ht.1 hp.sigmoid.1 he)
  have hb : b ∈ (g.contract i j s m).users t.name :=
    mem_users.mpr ⟨_, ⟨hm', hlive⟩, (of_isSwishPair hpair).2.2⟩
  exact users_eq_singleton_iff.mpr ⟨hb, fun k hk => hall k (mem_users_of_contract hts hk)⟩

end SwishAt

/-- After a contraction the graph is as well wired as before. -/
theorem SwishWired.contract (hw : g.SwishWired) : (g.contract i j s m).SwishWired := by
  intro n' hn'
  obtain ⟨k, hk⟩ := mem_live.mp hn'
  obtain ⟨-, n, hn, rfl⟩ := liveAt_contract.mp hk
  have hlen : (n.rewire m.name [s.name]).inputs.length = n.inputs.length := by
    rw [Node.rewire_inputs, substitute_singleton, List.length_map]
  by_cases hki : k = i
  · rw [if_pos hki]
    have hop : (n.toSwish.rewire m.name [s.name]).opType = "Swish" := rfl
    exact ⟨fun h => absurd (hop.symm.trans h) (by decide),
      fun h => absurd (hop.symm.trans h) (by decide)⟩
  · rw [if_neg hki, hlen]
    exact hw n (mem_live.mpr ⟨k, hn⟩)

/-! ### All contractions -/

/-- **A node before and after contractions** of some pairs. Either nothing was done to it and it
has the value that it had, or it is a sigmoid that became the swish of its pair and has the value
that the product had, which is gone. -/
inductive Contracted (g h : Graph) (pairs : List (Nat × Nat)) (ρ ρ' : String → Option V) (i : Nat)
    (n n' : Node) : Prop
  | kept (same : n'.unwired = n.unwired) (value : ρ' n'.name = ρ n.name)
  | swish {j : Nat} {m : Node} (sigmoid : n.opType = "Sigmoid")
      (same : n'.unwired = n.unwired.toSwish) (pair : (i, j) ∈ pairs) (product : g.LiveAt j m)
      (isProduct : m.opType = "Mul") (gone : j ∉ h.liveIds) (value : ρ' n'.name = ρ m.name)

/-- **Where a run stands** that started at `g` with some pairs, when the pairs `ps` are still to be
tried. -/
structure ContractedSoFar (layer : Node → List V → V) (g : Graph) (pairs ps : List (Nat × Nat))
    (h : Graph) : Prop where
  ordered : h.Ordered
  wired : h.SwishWired
  unshared : ∀ p ∈ ps, h.Unshared p.1 p.2
  there : ∀ p ∈ ps, p.1 < p.2 ∧ p.2 ∈ h.liveIds
  apart : ps.Pairwise fun p q => p.2 ≤ q.1
  listed : ∀ p ∈ ps, p ∈ pairs
  carried : ∀ i n', h.LiveAt i n' → ∃ n, g.LiveAt i n ∧ Contracted g h pairs
    ((Meaning.ofLayers layer).value? g) ((Meaning.ofLayers layer).value? h) i n n'

namespace ContractedSoFar

variable {pairs : List (Nat × Nat)}

theorem skip {p : Nat × Nat} (h₀ : ContractedSoFar layer g pairs (p :: ps) h) :
    ContractedSoFar layer g pairs ps h where
  ordered := h₀.ordered
  wired := h₀.wired
  unshared := fun q hq => h₀.unshared q (List.mem_cons_of_mem _ hq)
  there := fun q hq => h₀.there q (List.mem_cons_of_mem _ hq)
  apart := (List.pairwise_cons.mp h₀.apart).2
  listed := fun q hq => h₀.listed q (List.mem_cons_of_mem _ hq)
  carried := h₀.carried

/-- Nothing has been done so far to a node that is no swish. -/
theorem exists_kept (h₀ : ContractedSoFar layer g pairs ps h) (hn : h.LiveAt i n)
    (hop : n.opType ≠ "Swish") : ∃ n₀, g.LiveAt i n₀ ∧ n.unwired = n₀.unwired ∧
      (Meaning.ofLayers layer).value? h n.name = (Meaning.ofLayers layer).value? g n₀.name := by
  obtain ⟨n₀, hn₀, hc⟩ := h₀.carried i n hn
  cases hc with
  | kept same value => exact ⟨n₀, hn₀, same, value⟩
  | swish _ same => exact absurd (congrArg Node.opType same) hop

/-- The layers that are still to be contracted are read as at the start. -/
theorem readsSwish (h₀ : ContractedSoFar layer g pairs ps h) (hread : ReadsSwish layer g) :
    ReadsSwish layer h where
  swish := by
    intro s hs m hm hsig hmul v
    obtain ⟨i, hi⟩ := mem_live.mp hs
    obtain ⟨j, hj⟩ := mem_live.mp hm
    obtain ⟨s₀, hs₀, hseq, -⟩ := h₀.exists_kept hi (by rw [hsig]; decide)
    obtain ⟨m₀, hm₀, hmeq, -⟩ := h₀.exists_kept hj (by rw [hmul]; decide)
    rw [hseq, hmeq]
    exact hread.swish s₀ (mem_live.mpr ⟨i, hs₀⟩) m₀ (mem_live.mpr ⟨j, hm₀⟩)
      ((Node.opType_of_unwired hseq).symm.trans hsig)
      ((Node.opType_of_unwired hmeq).symm.trans hmul) v
  comm := by
    intro m hm hmul
    obtain ⟨j, hj⟩ := mem_live.mp hm
    obtain ⟨m₀, hm₀, hmeq, -⟩ := h₀.exists_kept hj (by rw [hmul]; decide)
    rw [hmeq]
    exact hread.comm m₀ (mem_live.mpr ⟨j, hm₀⟩) ((Node.opType_of_unwired hmeq).symm.trans hmul)

/-- After one more contraction every node is carried over. -/
theorem carried_contract {s m : Node} {x : String}
    (h₀ : ContractedSoFar layer g pairs ((i, j) :: ps) h) (hread : ReadsSwish layer g)
    (hp : h.SwishAt i j s m x) (hsole : h.users s.name = [j])
    (hord : (h.contract i j s m).Ordered) {k : Nat} {n' : Node}
    (hn' : (h.contract i j s m).LiveAt k n') : ∃ n, g.LiveAt k n ∧
      Contracted g (h.contract i j s m) pairs ((Meaning.ofLayers layer).value? g)
        ((Meaning.ofLayers layer).value? (h.contract i j s m)) k n n' := by
  have hval := hp.value?_contract h₀.ordered hord (h₀.readsSwish hread) hsole hn'
  obtain ⟨hkj, n, hn, rfl⟩ := liveAt_contract.mp hn'
  have hgone : ∀ l, l = j ∨ l ∉ h.liveIds → l ∉ (h.contract i j s m).liveIds := by
    rintro l hl hmem
    obtain ⟨n', hn'⟩ := mem_liveIds.mp hmem
    obtain ⟨hlj, n, hn, -⟩ := liveAt_contract.mp hn'
    exact hl.elim hlj fun hnot => hnot (mem_liveIds.mpr ⟨n, hn⟩)
  by_cases hki : k = i
  · -- this is the sigmoid, to which nothing had been done, nor to the product
    subst hki
    obtain rfl := hn.unique hp.sigmoid
    obtain ⟨n₀, hn₀, hseq, -⟩ := h₀.exists_kept hn (by rw [hp.isSigmoid]; decide)
    obtain ⟨m₀, hm₀, hmeq, hmval⟩ := h₀.exists_kept hp.product (by rw [hp.isProduct]; decide)
    rw [if_pos rfl] at hval ⊢
    have hsame : (n.toSwish.rewire m.name [n.name]).unwired = n₀.unwired.toSwish := by
      rw [Node.unwired_rewire, Node.unwired_toSwish, hseq]
    exact ⟨n₀, hn₀, .swish ((Node.opType_of_unwired hseq).symm.trans hp.isSigmoid) hsame
      (h₀.listed (k, j) List.mem_cons_self) hm₀
      ((Node.opType_of_unwired hmeq).symm.trans hp.isProduct) (hgone j (.inl rfl))
      ((hval.trans (if_pos rfl)).trans hmval)⟩
  · have hname : n.name ≠ s.name := fun he =>
      hki (h₀.ordered.distinct.eq_of_name hn.1 hp.sigmoid.1 he)
    rw [if_neg hki] at hval ⊢
    replace hval := hval.trans (takeOver_of_ne hname)
    obtain ⟨n₀, hn₀, hcon⟩ := h₀.carried k n hn
    refine ⟨n₀, hn₀, ?_⟩
    cases hcon with
    | kept same value => exact .kept same (hval.trans value)
    | @swish j' m' sigmoid same pair product isProduct gone value =>
      exact .swish sigmoid same pair product isProduct (hgone j' (.inr gone)) (hval.trans value)

/-- **One more contraction.** -/
theorem step (h₀ : ContractedSoFar layer g pairs ((i, j) :: ps) h) (hread : ReadsSwish layer g)
    (hc : h.contractPair? i j = some h') : ContractedSoFar layer g pairs ps h' := by
  obtain ⟨hij, hj⟩ := h₀.there (i, j) List.mem_cons_self
  obtain ⟨hfirst, hps⟩ := List.pairwise_cons.mp h₀.apart
  have hord : h'.Ordered := h₀.ordered.contractPair? hij hj hc
  have hlive : ∀ k ∈ h.liveIds, k ≠ j → k ∈ h'.liveIds := fun k hk hne =>
    mem_liveIds_of_contractPair? hc hk hne
  obtain ⟨s, m, hs, hm, hpair, rfl⟩ := exists_of_contractPair? hc
  obtain ⟨m', hm'⟩ := mem_liveIds.mp hj
  obtain rfl : m' = m := Option.some.inj (hm'.1.symm.trans hm)
  obtain ⟨x, hp⟩ := exists_swishAt h₀.ordered h₀.wired hs hm' hij hpair
  have hsole : h.users s.name = [j] :=
    h₀.unshared (i, j) List.mem_cons_self s hs.1 m' hm'.1 hm'.2 hpair
  refine ⟨hord, h₀.wired.contract, fun p hp' => ?_, fun p hp' => ?_, hps,
    fun p hp' => h₀.listed p (List.mem_cons_of_mem _ hp'),
    fun k n' hn' => h₀.carried_contract hread hp hsole hord hn'⟩
  · exact hp.unshared_contract hsole h₀.ordered h₀.wired (hfirst p hp')
      (h₀.there p (List.mem_cons_of_mem _ hp')).1 (h₀.unshared p (List.mem_cons_of_mem _ hp'))
  · obtain ⟨hlt, hmem⟩ := h₀.there p (List.mem_cons_of_mem _ hp')
    exact ⟨hlt, hlive p.2 hmem (Nat.ne_of_gt (Nat.lt_of_le_of_lt (hfirst p hp') hlt))⟩

end ContractedSoFar

/-- Pairs of neighbours in an increasing list do not overlap but in one node. -/
theorem pairwise_zip_tail : ∀ {ids : List Nat}, ids.Pairwise (· < ·) →
    (ids.zip ids.tail).Pairwise fun p q => p.2 ≤ q.1
  | [], _ => .nil
  | [_], _ => .nil
  | a :: b :: ids, h => by
    rw [List.tail_cons, List.zip_cons_cons]
    refine List.pairwise_cons.mpr ⟨fun q hq => ?_, pairwise_zip_tail (List.pairwise_cons.mp h).2⟩
    rcases List.mem_cons.mp (List.of_mem_zip hq).1 with hb | hmem
    · exact Nat.le_of_eq hb.symm
    · have hb := (List.pairwise_cons.mp h).2
      exact Nat.le_of_lt ((List.pairwise_cons.mp hb).1 _ hmem)

/-- Every live node of an ordered graph has a value, if layers are functions. -/
theorem isSome_value?_ofLayers (hg : g.Ordered) (hn : n ∈ g.live) :
    ((Meaning.ofLayers layer).value? g n.name).isSome := by
  obtain ⟨i, hi⟩ := mem_live.mp hn
  refine Meaning.isSome_value? hg (fun m _ vs _ hall => ?_) hi
  rw [Meaning.ofLayers, Option.isSome_map]
  exact Meaning.isSome_mapM_id hall

/-- **Contracting swish keeps what a graph computes**, if no sigmoid of a match has a user other
than the product. A node that is left is what it was and has the value that it had, or it is a
sigmoid that became a swish, and has the value that the product behind it had. -/
theorem contractSwish_preserves_values (layer : Node → List V → V) (hg : g.Ordered)
    (hw : g.SwishWired) (hread : ReadsSwish layer g)
    (hun : ∀ p ∈ g.liveIds.zip g.liveIds.tail, g.Unshared p.1 p.2) :
    (∀ n ∈ g.live, ((Meaning.ofLayers layer).value? g n.name).isSome) ∧
      ∀ i n', g.contractSwish.1.LiveAt i n' → ∃ n, g.LiveAt i n ∧
        Contracted g g.contractSwish.1 (g.liveIds.zip g.liveIds.tail)
          ((Meaning.ofLayers layer).value? g)
          ((Meaning.ofLayers layer).value? g.contractSwish.1) i n n' := by
  refine ⟨fun n hn => isSome_value?_ofLayers hg hn, ?_⟩
  have hinit : ContractedSoFar layer g (g.liveIds.zip g.liveIds.tail)
      (g.liveIds.zip g.liveIds.tail) g :=
    { ordered := hg
      wired := hw
      unshared := hun
      there := fun p hp => ⟨lt_of_mem_zip_tail pairwise_liveIds p hp,
        List.mem_of_mem_tail (List.of_mem_zip hp).2⟩
      apart := pairwise_zip_tail pairwise_liveIds
      listed := fun _ hp => hp
      carried := fun i n hn => ⟨n, hn, .kept rfl rfl⟩ }
  exact (contractPairs_invariant (P := ContractedSoFar layer g (g.liveIds.zip g.liveIds.tail))
    (fun _ _ _ h₀ => h₀.skip) (fun _ _ _ _ _ h₀ hc => h₀.step hread hc) _ hinit).carried

/-- Layers over numbers: whatever is no part of a swish adds up its operands. -/
def countingLayers (n : Node) (vs : List Nat) : Nat :=
  match n.opType, vs with
  | "Input", _ => 2
  | "Sigmoid", [v] => v + 1
  | "Mul", [v, w] => v * w
  | "Swish", [v] => v * (v + 1)
  | _, vs => vs.foldl Nat.add 0

theorem readsSwish_countingLayers (g : Graph) : ReadsSwish countingLayers g where
  swish := by
    intro s _ m _ hs hm v
    have hs' : s.unwired.opType = "Sigmoid" := hs
    have hm' : m.unwired.opType = "Mul" := hm
    simp [countingLayers, hs', hm', Node.toSwish]
  comm := by
    intro m _ hm v w
    have hm' : m.unwired.opType = "Mul" := hm
    simp [countingLayers, hm', Nat.mul_comm]

/-- A swish of a swish, and a sum of both. -/
def swishChain : Graph := ⟨[
  { name := "x", opType := "Input", inbound := some [] },
  { name := "s", opType := "Sigmoid", inbound := some ["x"] },
  { name := "m", opType := "Mul", inbound := some ["x", "s"] },
  { name := "t", opType := "Sigmoid", inbound := some ["m"] },
  { name := "p", opType := "Mul", inbound := some ["t", "m"] },
  { name := "sum", opType := "Add", inbound := some ["p", "m"] }]⟩

/-- Both pairs are contracted, and all values are kept. -/
theorem contractSwish_swishChain_values :
    swishChain.Ordered ∧ swishChain.SwishWired ∧ ReadsSwish countingLayers swishChain ∧
      (∀ p ∈ swishChain.liveIds.zip swishChain.liveIds.tail, swishChain.Unshared p.1 p.2) ∧
      swishChain.contractSwish.2 = 2 ∧
      ∀ i n', swishChain.contractSwish.1.LiveAt i n' → ∃ n, swishChain.LiveAt i n ∧
        Contracted swishChain swishChain.contractSwish.1
          (swishChain.liveIds.zip swishChain.liveIds.tail)
          ((Meaning.ofLayers countingLayers).value? swishChain)
          ((Meaning.ofLayers countingLayers).value? swishChain.contractSwish.1) i n n' := by
  have hord : swishChain.Ordered := by decide
  have hwired : swishChain.SwishWired := by decide
  have hread : ReadsSwish countingLayers swishChain := readsSwish_countingLayers swishChain
  have hun : ∀ p ∈ swishChain.liveIds.zip swishChain.liveIds.tail,
    swishChain.Unshared p.1 p.2 := by decide
  exact ⟨hord, hwired, hread, hun, by decide,
    (contractSwish_preserves_values countingLayers hord hwired hread hun).2⟩

/-- The sum of a sigmoid and of its swish. -/
def sharedSigmoid : Graph := ⟨[
  { name := "x", opType := "Input", inbound := some [] },
  { name := "s", opType := "Sigmoid", inbound := some ["x"] },
  { name := "m", opType := "Mul", inbound := some ["x", "s"] },
  { name := "sum", opType := "Add", inbound := some ["s", "m"] }]⟩

/-- **A sigmoid that has another user** must not be contracted: the sum, which is no part of the
pair, had the value 3 + 6 and gets the value 6 + 6. -/
theorem contractSwish_sharedSigmoid :
    sharedSigmoid.Ordered ∧ sharedSigmoid.SwishWired ∧ ReadsSwish countingLayers sharedSigmoid ∧
      (∃ n, sharedSigmoid.LiveAt 3 n ∧ n.name = "sum") ∧
      (∃ n, sharedSigmoid.contractSwish.1.LiveAt 3 n ∧ n.name = "sum" ∧ n.opType = "Add") ∧
      (Meaning.ofLayers countingLayers).value? sharedSigmoid "sum" = some 9 ∧
      (Meaning.ofLayers countingLayers).value? sharedSigmoid.contractSwish.1 "sum" = some 12 :=
  ⟨by decide, by decide, readsSwish_countingLayers sharedSigmoid, ⟨_, ⟨rfl, rfl⟩, rfl⟩,
    ⟨_, ⟨rfl, rfl⟩, rfl, rfl⟩, by decide, by decide⟩

end Graph

end LayerGraph
