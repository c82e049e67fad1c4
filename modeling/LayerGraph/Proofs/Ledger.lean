import LayerGraph.Proofs.Visit

/-!
# The ledger of a fusion

What leaves a graph by being absorbed is on record: some node that is left holds what it handed
over. `LayerGraph.Graph.Ledger` balances a graph against the one that a run started from. Every
node that is gone was a dropout or is held, nothing is held that is not gone, and nothing is held
twice.

A visit keeps the balance as long as no node that holds something leaves
(`LayerGraph.Graph.Ledger.visited`). It is enough that the policy sees to that: what it lets absorb
is neither a dropout nor let be absorbed (`LayerGraph.FusionContext.Terminal`).
-/

namespace LayerGraph

/-! ### Holding a contribution -/

/-- The node that a contribution comes from. -/
def Contribution.source : Contribution → String
  | .activation a => a.source
  | .norm p => p.source

namespace Node

variable {cx : FusionContext} {n : Node} {c d : Contribution}

/-- The node has absorbed `c`. -/
def Holds (n : Node) : Contribution → Prop
  | .activation a => n.absorbed.activation = some a
  | .norm p => n.absorbed.norm = some p

theorem not_holds_of_absorbed (h : n.absorbed = {}) : ¬ n.Holds c := by
  cases c <;> simp [Holds, h]

/-- **A contribution names the node** that hands it over. -/
theorem Offers.source_eq (h : n.Offers cx c) : c.source = n.name := by
  rcases h.cases with ⟨-, rfl⟩ | ⟨-, rfl⟩
  · cases cx.format <;> rfl
  · rfl

@[simp] theorem holds_rewire {r : String} {names : List String} :
    (n.rewire r names).Holds c ↔ n.Holds c := by
  cases c <;> rfl

theorem holds_absorb (n : Node) (c : Contribution) : (n.absorb c).Holds c := by
  cases c <;> rfl

/-- **Nothing is pushed out**: what is absorbed goes where nothing was. -/
theorem Holds.absorb (hacc : n.accepts c = true) (h : n.Holds d) : (n.absorb c).Holds d := by
  have hfree : n.absorbed.accepts c = true := (Bool.and_eq_true_iff.mp hacc).1
  cases c <;> cases d <;> simp_all [Holds, Absorbed.accepts, Absorbed.absorb]

theorem eq_or_holds_of_absorb (h : (n.absorb c).Holds d) : d = c ∨ n.Holds d := by
  cases c <;> cases d <;> simp_all [Holds, Absorbed.absorb]

end Node

/-! ### The ledger -/

/-- **What absorbs never leaves**: an operator that the policy lets absorb is neither let be
absorbed nor that of a dropout. -/
def FusionContext.Terminal (cx : FusionContext) : Prop :=
  ∀ op target, cx.policy.allows cx.format op target = true →
    (∀ op', cx.policy.allows cx.format target op' = false) ∧
      Family.resolve cx.format cx.custom target ≠ .ok .dropout

namespace Graph

variable {cx : FusionContext} {g₀ g g' : Graph} {i id t : Nat} {n m : Node} {c : Contribution}
  {o : Outcome}

/-- **A balanced ledger** between the graph that a run started from and the graph it has come to. -/
structure Ledger (cx : FusionContext) (g₀ g : Graph) : Prop where
  kept : ∀ i n, g.LiveAt i n → ∃ m, g₀.LiveAt i m ∧ n.bare = m.bare
  /-- A node that is gone was a dropout, or some node holds what it handed over. -/
  removed : ∀ i n, g₀.LiveAt i n → i ∉ g.liveIds →
    Family.resolve cx.format cx.custom n.opType = .ok .dropout ∨
      ∃ c, n.Offers cx c ∧ ∃ t m, g.LiveAt t m ∧ m.Holds c
  /-- What is held comes from a node that is gone, by leave of the policy. -/
  sources : ∀ t m c, g.LiveAt t m → m.Holds c → ∃ i n, g₀.LiveAt i n ∧ i ∉ g.liveIds ∧
    n.Offers cx c ∧ cx.policy.allows cx.format n.opType m.opType = true
  unique : ∀ t t' m m' c, g.LiveAt t m → g.LiveAt t' m' → m.Holds c → m'.Holds c → t = t'

/-- The ledger is balanced as long as nothing was absorbed. -/
theorem Ledger.initial (hfresh : ∀ n ∈ g.live, n.absorbed = {}) : Ledger cx g g where
  kept := fun _ n hn => ⟨n, hn, rfl⟩
  removed := fun _ n hn hi => absurd (mem_liveIds.mpr ⟨n, hn⟩) hi
  sources := fun t m _ hm hc =>
    absurd hc (Node.not_holds_of_absorbed (hfresh m (mem_live.mpr ⟨t, hm⟩)))
  unique := fun t _ m _ _ hm _ hc _ =>
    absurd hc (Node.not_holds_of_absorbed (hfresh m (mem_live.mpr ⟨t, hm⟩)))

theorem mem_liveIds_retire {name : String} {names : List String} :
    i ∈ (g.retire id name names).liveIds ↔ i ≠ id ∧ i ∈ g.liveIds := by
  simp only [mem_liveIds, liveAt_retire]
  constructor
  · rintro ⟨_, hne, m, hm, -⟩
    exact ⟨hne, m, hm⟩
  · rintro ⟨hne, m, hm⟩
    exact ⟨_, hne, m, hm, rfl⟩

theorem mem_liveIds_merge (hm : g.node? t = some m) :
    i ∈ (g.merge id n c t).liveIds ↔ i ≠ id ∧ i ∈ g.liveIds := by
  simp only [mem_liveIds, liveAt_merge hm]
  constructor
  · rintro ⟨_, hne, k, hk, -⟩
    exact ⟨hne, k, hk⟩
  · rintro ⟨hne, k, hk⟩
    exact ⟨_, hne, k, hk, rfl⟩

section Merge

variable {d : Contribution} {k l : Node}

/-- **What is held after a merge** was held before, or it is what the merge hands over. -/
theorem holds_of_merge (hm : g.LiveAt t m) (hl : (g.merge id n c t).LiveAt i l) (hh : l.Holds d) :
    (i = t ∧ d = c) ∨ ∃ k, g.LiveAt i k ∧ k.Holds d := by
  obtain ⟨-, k, hk, rfl⟩ := (liveAt_merge hm.1).mp hl
  rw [Node.holds_rewire] at hh
  split at hh
  · next heq =>
    rcases Node.eq_or_holds_of_absorb hh with hdc | hh
    · exact Or.inl ⟨heq, hdc⟩
    · exact Or.inr ⟨k, hk, hh⟩
  · exact Or.inr ⟨k, hk, hh⟩

/-- **What is held before a merge** is held after it, where the node is not the one that leaves. -/
theorem exists_holds_merge (hm : g.LiveAt t m) (hacc : m.accepts c = true) (hk : g.LiveAt i k)
    (hne : i ≠ id) (hh : k.Holds d) : ∃ l, (g.merge id n c t).LiveAt i l ∧ l.Holds d := by
  refine ⟨_, (liveAt_merge hm.1).mpr ⟨hne, k, hk, rfl⟩, ?_⟩
  rw [Node.holds_rewire]
  split
  · next heq =>
    subst heq
    obtain rfl := hk.unique hm
    exact hh.absorb hacc
  · exact hh

/-- What a merge hands over is held by the node that absorbs. -/
theorem exists_holds_merge_target (hm : g.LiveAt t m) (hne : t ≠ id) :
    ∃ l, (g.merge id n c t).LiveAt t l ∧ l.Holds c := by
  refine ⟨_, (liveAt_merge hm.1).mpr ⟨hne, m, hm, rfl⟩, ?_⟩
  rw [Node.holds_rewire, if_pos rfl]
  exact m.holds_absorb c

/-- A merge changes no operator. -/
theorem opType_of_merge (hm : g.LiveAt t m) (hl : (g.merge id n c t).LiveAt i l)
    (hk : g.LiveAt i k) : l.opType = k.opType := by
  obtain ⟨-, k', hk', rfl⟩ := (liveAt_merge hm.1).mp hl
  obtain rfl := hk'.unique hk
  split <;> rfl

end Merge

namespace Ledger

/-- A dropout holds nothing. -/
theorem not_holds_of_dropout (h : Ledger cx g₀ g) (ht : cx.Terminal) (hn : g.LiveAt i n)
    (hf : Family.resolve cx.format cx.custom n.opType = .ok .dropout) : ¬ n.Holds c := by
  intro hc
  obtain ⟨_, _, -, -, -, hallow⟩ := h.sources i n c hn hc
  exact (ht _ _ hallow).2 hf

/-- What may be absorbed holds nothing. -/
theorem not_holds_of_allows (h : Ledger cx g₀ g) (ht : cx.Terminal) (hn : g.LiveAt i n)
    {target : String} (hallow : cx.policy.allows cx.format n.opType target = true) :
    ¬ n.Holds c := by
  intro hc
  obtain ⟨_, _, -, -, -, hallow'⟩ := h.sources i n c hn hc
  rw [(ht _ _ hallow').1 target] at hallow
  cases hallow

/-- What a live node offers nobody holds yet. -/
theorem not_holds_of_offers (h : Ledger cx g₀ g) (hd : g₀.Distinct) (hn : g.LiveAt id n)
    (hc : n.Offers cx c) (hm : g.LiveAt t m) : ¬ m.Holds c := by
  intro hh
  obtain ⟨i, l, hl, hgone, hoff, -⟩ := h.sources t m c hm hh
  obtain ⟨n₀, hn₀, hb⟩ := h.kept id n hn
  have hname : l.name = n₀.name := by
    rw [← hoff.source_eq, hc.source_eq, Node.name_of_bare hb]
  obtain rfl := hd.eq_of_name hl.1 hn₀.1 hname
  exact hgone (mem_liveIds.mpr ⟨n, hn⟩)

/-- **Eliding a dropout that holds nothing keeps the balance.** -/
theorem elide (h : Ledger cx g₀ g) (hn : g.LiveAt id n)
    (hf : Family.resolve cx.format cx.custom n.opType = .ok .dropout)
    (hnone : ∀ c, ¬ n.Holds c) : Ledger cx g₀ (g.elide id n) where
  kept := by
    intro i l hl
    obtain ⟨-, k, hk, rfl⟩ := liveAt_retire.mp hl
    exact h.kept i k hk
  removed := by
    intro i l hl hgone
    rw [elide_eq, mem_liveIds_retire, not_and_or, not_not] at hgone
    rcases hgone with rfl | hgone
    · obtain ⟨l', hl', hb⟩ := h.kept i n hn
      obtain rfl := hl.unique hl'
      exact Or.inl (Node.opType_of_bare hb ▸ hf)
    · refine (h.removed i l hl hgone).imp_right ?_
      rintro ⟨c, hc, t, m, hm, hh⟩
      refine ⟨c, hc, t, _, liveAt_retire.mpr ⟨?_, m, hm, rfl⟩, Node.holds_rewire.mpr hh⟩
      -- the node that holds it stays
      rintro rfl
      obtain rfl := hm.unique hn
      exact hnone c hh
  sources := by
    intro t m' c hm' hh
    obtain ⟨-, m, hm, rfl⟩ := liveAt_retire.mp hm'
    obtain ⟨i, l, hl, hgone, hoff, hallow⟩ := h.sources t m c hm (Node.holds_rewire.mp hh)
    exact ⟨i, l, hl, fun hi => hgone (mem_liveIds_retire.mp hi).2, hoff, hallow⟩
  unique := by
    intro t t' m m' c hm hm' hh hh'
    obtain ⟨-, k, hk, rfl⟩ := liveAt_retire.mp hm
    obtain ⟨-, k', hk', rfl⟩ := liveAt_retire.mp hm'
    exact h.unique t t' k k' c hk hk' (Node.holds_rewire.mp hh) (Node.holds_rewire.mp hh')

/-- **A merge keeps the balance**, if the node that leaves holds nothing: it is held itself from
now on. -/
theorem merge (h : Ledger cx g₀ g) (hd : g₀.Distinct) (hn : g.LiveAt id n)
    (hnone : ∀ c, ¬ n.Holds c) (hc : n.Offers cx c) (hm : g.LiveAt t m) (hne : t ≠ id)
    (hallow : cx.policy.allows cx.format n.opType m.opType = true) (hacc : m.accepts c = true) :
    Ledger cx g₀ (g.merge id n c t) where
  kept := by
    intro i l hl
    obtain ⟨-, k, hk, rfl⟩ := (liveAt_merge hm.1).mp hl
    obtain ⟨k₀, hk₀, hb⟩ := h.kept i k hk
    refine ⟨k₀, hk₀, ?_⟩
    split <;> exact hb
  removed := by
    intro i l hl hgone
    rw [mem_liveIds_merge hm.1, not_and_or, not_not] at hgone
    rcases hgone with rfl | hgone
    · -- the node that leaves now is held by the one that absorbs it
      obtain ⟨l', hl', hb⟩ := h.kept i n hn
      obtain rfl := hl.unique hl'
      exact Or.inr ⟨c, hc.of_bare hb, t, exists_holds_merge_target hm hne⟩
    · refine (h.removed i l hl hgone).imp_right ?_
      rintro ⟨d, hd', t', k, hk, hh⟩
      refine ⟨d, hd', t', exists_holds_merge hm hacc hk ?_ hh⟩
      -- the node that holds it stays
      rintro rfl
      obtain rfl := hk.unique hn
      exact hnone d hh
  sources := by
    intro t' l d hl hh
    rcases holds_of_merge hm hl hh with ⟨rfl, rfl⟩ | ⟨k, hk, hh⟩
    · obtain ⟨n₀, hn₀, hb⟩ := h.kept id n hn
      refine ⟨id, n₀, hn₀, fun hi => ((mem_liveIds_merge hm.1).mp hi).1 rfl, hc.of_bare hb, ?_⟩
      rw [← Node.opType_of_bare hb, opType_of_merge hm hl hm]
      exact hallow
    · obtain ⟨i, k₀, hk₀, hgone, hoff, hallow'⟩ := h.sources t' k d hk hh
      refine ⟨i, k₀, hk₀, fun hi => hgone ((mem_liveIds_merge hm.1).mp hi).2, hoff, ?_⟩
      rw [opType_of_merge hm hl hk]
      exact hallow'
  unique := by
    intro t₁ t₂ l₁ l₂ d hl₁ hl₂ hh₁ hh₂
    -- what the merge hands over was held by nobody before
    have hnew : ∀ {t' : Nat} {k : Node}, g.LiveAt t' k → ¬ k.Holds c :=
      fun hk => h.not_holds_of_offers hd hn hc hk
    rcases holds_of_merge hm hl₁ hh₁ with ⟨rfl, rfl⟩ | ⟨k₁, hk₁, hh₁⟩ <;>
      rcases holds_of_merge hm hl₂ hh₂ with ⟨rfl, heq⟩ | ⟨k₂, hk₂, hh₂⟩
    · rfl
    · exact absurd hh₂ (hnew hk₂)
    · exact absurd (heq ▸ hh₁) (hnew hk₁)
    · exact h.unique t₁ t₂ k₁ k₂ d hk₁ hk₂ hh₁ hh₂

/-- **A visit keeps the balance**, if the visited node holds nothing should it leave, and is not
handed over to itself. -/
theorem visited (h : Ledger cx g₀ g) (hd : g₀.Distinct) (hv : Visited cx g id g' o)
    (hnone : o ≠ .kept → ∀ n c, g.LiveAt id n → ¬ n.Holds c) (hne : o ≠ .absorbedBy id) :
    Ledger cx g₀ g' := by
  cases hv with
  | kept => exact h
  | elided live dropout => exact h.elide live dropout fun c => hnone nofun _ c live
  | @absorbed n m c t live offers target _ _ allowed accepts =>
    refine h.merge hd live (fun c => hnone nofun n c live) offers target ?_ allowed accepts
    rintro rfl
    exact hne rfl

/-- **Under a terminal policy every visit keeps the balance.** -/
theorem visited_of_terminal (h : Ledger cx g₀ g) (hd : g₀.Distinct) (ht : cx.Terminal)
    (hv : Visited cx g id g' o) : Ledger cx g₀ g' := by
  refine h.visited hd hv ?_ ?_
  · intro ho n c hn
    cases hv with
    | kept => exact absurd rfl ho
    | elided live dropout =>
      obtain rfl := live.unique hn
      exact h.not_holds_of_dropout ht hn dropout
    | absorbed live _ _ _ _ allowed =>
      obtain rfl := live.unique hn
      exact h.not_holds_of_allows ht hn allowed
  · rintro rfl
    cases hv with
    | absorbed live _ target _ _ allowed =>
      obtain rfl := live.unique target
      rw [(ht _ _ allowed).1 _] at allowed
      cases allowed

/-- **A run keeps the balance**, if it starts from a graph in which nothing was absorbed. -/
theorem of_fuseFrom (hfresh : ∀ n ∈ g.live, n.absorbed = {}) (hd : g.Distinct) (ht : cx.Terminal)
    (ids : List Nat) : Ledger cx g (g.fuseFrom cx ids).1 :=
  fuseFrom_invariant ids (fun _ _ _ _ _ hl hv => hl.visited_of_terminal hd ht hv) (initial hfresh)

end Ledger

end Graph

end LayerGraph
