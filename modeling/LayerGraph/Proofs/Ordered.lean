import LayerGraph.Proofs.Live

/-!
# Ordered graphs

Records are linked in the order of their nodes, so a graph can be written down if every
operand of a live node is a live node declared before it. This is what
`LayerGraph.Graph.Ordered` says, and it is the invariant that all rewritings of a graph have
in common: a node can be retired in favour of names that could have been its own operands
(`LayerGraph.Graph.Ordered.retire`).

A weaker order is all that fusion needs for itself. In a `LayerGraph.Graph.Backward` graph
a reference may be to a deleted node or to nothing at all; only a reference to a node of
the graph has to be to an earlier one.
-/

namespace LayerGraph

namespace Graph

variable {g g' : Graph} {i j id : Nat} {n m : Node} {x : String} {names : List String}

/-! ### The two orders -/

/-- The name belongs to a live node before a position. -/
def Feeds (g : Graph) (i : Nat) (x : String) : Prop := ∃ j m, j < i ∧ g.LiveAt j m ∧ m.name = x

/-- The name belongs to no node at or after a position. -/
def Below (g : Graph) (i : Nat) (x : String) : Prop := ∀ j, g.find? x = some j → j < i

/-- **A closed and ordered graph**: names are distinct, and every operand of a live node is
a live node declared before it. -/
structure Ordered (g : Graph) : Prop where
  distinct : g.Distinct
  earlier : ∀ i n, g.LiveAt i n → ∀ x ∈ n.inputs, g.Feeds i x

/-- **A graph without forward references**: names are distinct, and an operand of a live
node that is a node at all is one declared before it. -/
structure Backward (g : Graph) : Prop where
  distinct : g.Distinct
  earlier : ∀ i n, g.LiveAt i n → ∀ x ∈ n.inputs, g.Below i x

instance (g : Graph) : Decidable g.Distinct :=
  inferInstanceAs (Decidable (g.nodes.map Node.name).Nodup)

instance (g : Graph) (i : Nat) (x : String) : Decidable (g.Below i x) :=
  decidable_of_iff (∀ j ∈ g.find? x, j < i) Iff.rfl

instance (g : Graph) (i : Nat) (x : String) : Decidable (g.Feeds i x) :=
  decidable_of_iff (∃ p ∈ g.nodes.zipIdx, p.2 < i ∧ p.1.deleted = false ∧ p.1.name = x) <| by
    simp only [Prod.exists, List.mem_zipIdx_iff_getElem?, Feeds, LiveAt, node?]
    constructor
    · rintro ⟨m, j, hm, hj, hd, hx⟩
      exact ⟨j, m, hj, ⟨hm, hd⟩, hx⟩
    · rintro ⟨j, m, hj, ⟨hm, hd⟩, hx⟩
      exact ⟨m, j, hm, hj, hd, hx⟩

/-- A property of all operands of live nodes can be checked node by node. -/
theorem forall_operand_iff {p : Nat → String → Prop} :
    (∀ q ∈ g.nodes.zipIdx, q.1.deleted = false → ∀ x ∈ q.1.inputs, p q.2 x) ↔
      ∀ i n, g.LiveAt i n → ∀ x ∈ n.inputs, p i x := by
  simp only [Prod.forall, List.mem_zipIdx_iff_getElem?, LiveAt, node?]
  constructor
  · exact fun h i n hn => h n i hn.1 hn.2
  · exact fun h n i hn hd => h i n ⟨hn, hd⟩

instance (g : Graph) : Decidable g.Ordered :=
  decidable_of_iff (g.Distinct ∧ ∀ q ∈ g.nodes.zipIdx, q.1.deleted = false →
      ∀ x ∈ q.1.inputs, g.Feeds q.2 x) <| by
    rw [forall_operand_iff]
    exact ⟨fun h => ⟨h.1, h.2⟩, fun h => ⟨h.1, h.2⟩⟩

instance (g : Graph) : Decidable g.Backward :=
  decidable_of_iff (g.Distinct ∧ ∀ q ∈ g.nodes.zipIdx, q.1.deleted = false →
      ∀ x ∈ q.1.inputs, g.Below q.2 x) <| by
    rw [forall_operand_iff]
    exact ⟨fun h => ⟨h.1, h.2⟩, fun h => ⟨h.1, h.2⟩⟩

/-! ### How the orders are related -/

/-- Names are looked up in the names alone. -/
theorem find?_congr (h : g'.nodes.map Node.name = g.nodes.map Node.name) (x : String) :
    g'.find? x = g.find? x := by
  rw [find?, find?, h]

theorem Distinct.congr (hg : g.Distinct) (h : g'.nodes.map Node.name = g.nodes.map Node.name) :
    g'.Distinct := by
  rw [Distinct, h]
  exact hg

theorem names_retire (id : Nat) (name : String) (names : List String) :
    (g.retire id name names).nodes.map Node.name = g.nodes.map Node.name :=
  map_retire (fun _ _ _ => rfl) name names

theorem Feeds.mono (h : g.Feeds i x) (hij : i ≤ j) : g.Feeds j x := by
  obtain ⟨k, m, hk, hm, hx⟩ := h
  exact ⟨k, m, Nat.lt_of_lt_of_le hk hij, hm, hx⟩

theorem Feeds.below (hg : g.Distinct) (h : g.Feeds i x) : g.Below i x := by
  obtain ⟨j, m, hj, hm, hx⟩ := h
  intro k hk
  rw [hg.find?_eq_some_iff.mpr ⟨m, hm.1, hx⟩] at hk
  exact Option.some.inj hk ▸ hj

theorem Ordered.backward (h : g.Ordered) : g.Backward where
  distinct := h.distinct
  earlier := fun i n hn x hx => (h.earlier i n hn x hx).below h.distinct

/-- A reference to a node of a graph without forward references is to an earlier node. -/
theorem Backward.lt (h : g.Backward) (hi : g.LiveAt i n) (hj : g.node? j = some m)
    (hx : m.name ∈ n.inputs) : j < i :=
  h.earlier i n hi m.name hx j (h.distinct.find?_eq_some_iff.mpr ⟨m, hj, rfl⟩)

/-- **Among the live nodes of an ordered graph** an operand is the name of one before. -/
theorem Ordered.exists_live_before (h : g.Ordered) {k : Nat} (hn : g.live[k]? = some n)
    (hx : x ∈ n.inputs) : ∃ j m, j < k ∧ g.live[j]? = some m ∧ m.name = x := by
  obtain ⟨p, hp, hlive, htake⟩ := exists_getElem?_of_filter hn
  obtain ⟨j, m, hj, hm, hname⟩ := h.earlier p n ⟨hp, by simpa using hlive⟩ x hx
  have hmem : m ∈ (g.nodes.take p).filter fun n => !n.deleted :=
    List.mem_filter.mpr ⟨mem_take_iff.mpr ⟨j, hj, hm.1⟩, by simp [hm.2]⟩
  -- the live nodes before position `p` are the first `k` of all live nodes
  rw [htake] at hmem
  obtain ⟨l, hlk, hl⟩ := mem_take_iff.mp hmem
  exact ⟨l, m, hlk, hl, hname⟩

/-- In an ordered graph nothing refers to a deleted node. -/
theorem Ordered.not_mem_inputs (h : g.Ordered) (hn : g.node? i = some n) (hdel : n.deleted = true)
    (hm : m ∈ g.live) : n.name ∉ m.inputs := by
  intro hx
  obtain ⟨k, hk⟩ := mem_live.mp hm
  -- an operand is the name of a live node, and no other node bears it
  obtain ⟨j, l, -, hl, hname⟩ := h.earlier k m hk n.name hx
  obtain rfl := h.distinct.eq_of_name hl.1 hn hname
  obtain rfl := Option.some.inj (hl.1.symm.trans hn)
  rw [hl.2] at hdel
  cases hdel

/-! ### Retiring a node -/

/-- What feeds a position still does after a retirement, if it is not the retired node. -/
theorem Feeds.retire (h : g.Feeds i x) (hn : g.LiveAt id n) (hx : x ≠ n.name) :
    (g.retire id n.name names).Feeds i x := by
  obtain ⟨j, m, hj, hm, rfl⟩ := h
  refine ⟨j, m.rewire n.name names, hj, liveAt_retire.mpr ⟨fun he => hx ?_, m, hm, rfl⟩, rfl⟩
  rw [he] at hm
  rw [hm.unique hn]

/-- **Retiring a node keeps a graph ordered**, if the names it gives way to could have been
its own operands. -/
theorem Ordered.retire (h : g.Ordered) (hn : g.LiveAt id n) (hnames : ∀ x ∈ names, g.Feeds id x) :
    (g.retire id n.name names).Ordered where
  distinct := h.distinct.congr (names_retire ..)
  earlier := by
    intro i m' hm' x hx
    obtain ⟨-, m, hm, rfl⟩ := liveAt_retire.mp hm'
    rw [Node.rewire_inputs] at hx
    rcases mem_substitute.mp hx with ⟨hx, hne⟩ | ⟨hr, hx⟩
    · exact (h.earlier i m hm x hx).retire hn hne
    · -- the slot held the retired node, which is before the user
      have hlt : id < i := h.backward.lt hm hn.1 hr
      refine ((hnames x hx).retire hn ?_).mono (Nat.le_of_lt hlt)
      rintro rfl
      obtain ⟨j, k, hj, hk, hname⟩ := hnames _ hx
      exact absurd (h.distinct.eq_of_name hk.1 hn.1 hname) (Nat.ne_of_lt hj)

/-- **Retiring a node brings in no forward reference**, if the names it gives way to are
none for the node itself. -/
theorem Backward.retire (h : g.Backward) (hn : g.LiveAt id n) (hnames : ∀ x ∈ names, g.Below id x) :
    (g.retire id n.name names).Backward where
  distinct := h.distinct.congr (names_retire ..)
  earlier := by
    intro i m' hm' x hx j hj
    rw [find?_congr (names_retire ..)] at hj
    obtain ⟨-, m, hm, rfl⟩ := liveAt_retire.mp hm'
    rw [Node.rewire_inputs] at hx
    rcases mem_substitute.mp hx with ⟨hx, -⟩ | ⟨hr, hx⟩
    · exact h.earlier i m hm x hx j hj
    · exact Nat.lt_trans (hnames x hx j hj) (h.lt hm hn.1 hr)

/-! ### Touching a node -/

section Touch

variable {f : Node → Node} (hname : ∀ n, (f n).name = n.name)
  (hinbound : ∀ n, (f n).inbound = n.inbound) (hdel : ∀ n, (f n).deleted = n.deleted)

include hname in
theorem names_modify : (g.modify id f).nodes.map Node.name = g.nodes.map Node.name :=
  map_modify hname

include hname hdel in
theorem Feeds.modify (h : g.Feeds i x) : (g.modify id f).Feeds i x := by
  obtain ⟨j, m, hj, hm, hx⟩ := h
  refine ⟨j, _, hj, (liveAt_modify hdel).mpr ⟨m, hm, rfl⟩, ?_⟩
  split
  · exact (hname m).trans hx
  · exact hx

include hname in
theorem Below.modify (h : g.Below i x) : (g.modify id f).Below i x := by
  intro j hj
  rw [find?_congr (names_modify hname)] at hj
  exact h j hj

include hinbound hdel in
/-- The operands of a node of the touched graph are those of the node in its place. -/
theorem exists_liveAt_of_modify (h : (g.modify id f).LiveAt i n) :
    ∃ m, g.LiveAt i m ∧ n.inputs = m.inputs := by
  obtain ⟨m, hm, rfl⟩ := (liveAt_modify hdel).mp h
  refine ⟨m, hm, ?_⟩
  split
  · rw [Node.inputs, Node.inputs, hinbound]
  · rfl

include hname hinbound hdel in
theorem Ordered.modify (h : g.Ordered) : (g.modify id f).Ordered where
  distinct := h.distinct.congr (names_modify hname)
  earlier := by
    intro i n hn x hx
    obtain ⟨m, hm, heq⟩ := exists_liveAt_of_modify hinbound hdel hn
    exact (h.earlier i m hm x (heq ▸ hx)).modify hname hdel

include hname hinbound hdel in
theorem Backward.modify (h : g.Backward) : (g.modify id f).Backward where
  distinct := h.distinct.congr (names_modify hname)
  earlier := by
    intro i n hn x hx
    obtain ⟨m, hm, heq⟩ := exists_liveAt_of_modify hinbound hdel hn
    exact (h.earlier i m hm x (heq ▸ hx)).modify hname

end Touch

end Graph

end LayerGraph
