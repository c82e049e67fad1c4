import LayerGraph.Proofs.Calls
import LayerGraph.Proofs.Ordered
import Mathlib.Order.WellFoundedSet

/-!
# Dropouts in any order

A dropout that is elided gives way to its operands, and some of these may be dropouts that are
still to be elided. So the graphs on the way depend on the order in which the dropouts are visited:
an early visit hands references to other dropouts around, a late one finds them gone. What does not
depend on the order is where all references lead in the end. The *expansion* of a name
(`LayerGraph.Graph.IsExpansion`) replaces a dropout by what its operands expand to, which is well
defined if no chain of references comes back to where it started. One visit changes the operands of
the nodes that are left, but not what they expand to. When no dropout is left, every operand
expands to itself, and the operands are the expansion of what they were at first
(`LayerGraph.Graph.elide_all`).
-/

namespace LayerGraph

namespace Graph

variable {cx : FusionContext} {g h : Graph} {i j id : Nat} {n m : Node} {x y : String}
  {f : String → List String} {done ids : List Nat}

/-! ### Chains of references -/

/-- The node at `i` has an operand whose name belongs to the node at `j`. -/
def Refers (g : Graph) (i j : Nat) : Prop :=
  ∃ n x, g.node? i = some n ∧ x ∈ n.inputs ∧ g.find? x = some j

/-- **No chain of references comes back** to where it started. -/
def Acyclic (g : Graph) : Prop := ∀ i, ¬ Relation.TransGen g.Refers i i

/-- There is no cycle where references go down in rank. -/
theorem acyclic_of_rank (rank : Nat → Nat) (hrank : ∀ i j, g.Refers i j → rank j < rank i) :
    g.Acyclic := by
  have hlt : ∀ i j, Relation.TransGen g.Refers i j → rank j < rank i := by
    intro i j hij
    induction hij with
    | single h => exact hrank _ _ h
    | tail _ h ih => exact (hrank _ _ h).trans ih
  exact fun i hi => Nat.lt_irrefl _ (hlt i i hi)

theorem Refers.lt_length (h : g.Refers i j) : i < g.nodes.length ∧ j < g.nodes.length := by
  obtain ⟨n, x, hn, -, hx⟩ := h
  obtain ⟨m, hm, -⟩ := node?_of_find? hx
  exact ⟨(List.getElem?_eq_some_iff.mp hn).1, (List.getElem?_eq_some_iff.mp hm).1⟩

/-- **Without cycles all chains of references end**, since a graph has only so many nodes. -/
theorem Acyclic.wellFounded (hg : g.Acyclic) : WellFounded fun j i => g.Refers i j := by
  let back : Nat → Nat → Prop := fun j i => Relation.TransGen g.Refers i j
  have : IsTrans Nat back := ⟨fun _ _ _ h h' => h'.trans h⟩
  have : Std.Irrefl back := ⟨hg⟩
  have : IsStrictOrder Nat back := {}
  have hwf := Set.wellFoundedOn_iff.mp
    (Set.Finite.wellFoundedOn (r := back) (Set.finite_lt_nat g.nodes.length))
  exact Subrelation.wf (fun h => ⟨.single h, h.lt_length.2, h.lt_length.1⟩) hwf

/-- Each position has one name. -/
theorem find?_injective (hx : g.find? x = some i) (hy : g.find? y = some i) : x = y := by
  obtain ⟨n, hn, rfl⟩ := node?_of_find? hx
  obtain ⟨m, hm, rfl⟩ := node?_of_find? hy
  rw [Option.some.inj (hn.symm.trans hm)]

/-! ### Expansion -/

/-- The dropout that a name belongs to. -/
def dropout? (g : Graph) (x : String) : Option Node :=
  ((g.find? x).bind g.node?).filter fun n => n.opType == "Dropout"

theorem dropout?_eq_some_iff : g.dropout? x = some n ↔
    ∃ i, g.find? x = some i ∧ g.node? i = some n ∧ n.opType = "Dropout" := by
  simp only [dropout?, Option.filter_eq_some_iff, Option.bind_eq_some_iff, beq_iff_eq]
  constructor
  · rintro ⟨⟨i, hi, hn⟩, hop⟩
    exact ⟨i, hi, hn, hop⟩
  · rintro ⟨i, hi, hn, hop⟩
    exact ⟨⟨i, hi, hn⟩, hop⟩

/-- **What the names expand to**: the name of a dropout to what its operands expand to, in operand
order, and any other name to itself. -/
def IsExpansion (g : Graph) (f : String → List String) : Prop :=
  ∀ x, f x = match g.dropout? x with
    | some n => n.inputs.flatMap f
    | none => [x]

/-- The name `x` is an operand of a dropout of the name `y`. -/
def Within (g : Graph) (x y : String) : Prop := ∃ n, g.dropout? y = some n ∧ x ∈ n.inputs

theorem Acyclic.wellFounded_within (hg : g.Acyclic) : WellFounded g.Within := by
  have hnone : ∀ y, g.find? y = none → Acc g.Within y := by
    intro y hy
    refine Acc.intro y fun x hx => ?_
    obtain ⟨n, hn, -⟩ := hx
    obtain ⟨i, hi, -⟩ := dropout?_eq_some_iff.mp hn
    rw [hy] at hi
    cases hi
  have hsome : ∀ i y, g.find? y = some i → Acc g.Within y := by
    intro i
    induction i using hg.wellFounded.induction with
    | _ i ih =>
      intro y hy
      refine Acc.intro y fun x hx => ?_
      obtain ⟨n, hn, hmem⟩ := hx
      obtain ⟨i', hi', hnode, -⟩ := dropout?_eq_some_iff.mp hn
      obtain rfl := Option.some.inj (hy.symm.trans hi')
      cases hfind : g.find? x with
      | none => exact hnone x hfind
      | some j => exact ih j ⟨n, x, hnode, hmem, hfind⟩ x hfind
  refine ⟨fun y => ?_⟩
  cases hfind : g.find? y with
  | none => exact hnone y hfind
  | some i => exact hsome i y hfind

/-- The expansion, by recursion along the operands of dropouts. -/
noncomputable def expand (g : Graph) (hwf : WellFounded g.Within) : String → List String :=
  hwf.fix fun x rec =>
    match hx : g.dropout? x with
    | some n => n.inputs.attach.flatMap fun y => rec y.1 ⟨n, hx, y.2⟩
    | none => [x]

theorem isExpansion_expand (hwf : WellFounded g.Within) : g.IsExpansion (g.expand hwf) := by
  intro x
  rw [expand, hwf.fix_eq]
  split
  · next n hx =>
    change (n.inputs.attach.flatMap fun y => g.expand hwf y.1) = _
    rw [hx, List.flatMap_subtype fun y _ => rfl, List.unattach_attach]
    rfl
  · next hx => rw [hx]

theorem IsExpansion.unique {f' : String → List String} (hwf : WellFounded g.Within)
    (hf : g.IsExpansion f) (hf' : g.IsExpansion f') : f = f' := by
  funext x
  induction x using hwf.induction with
  | _ x ih =>
    rw [hf x, hf' x]
    cases hx : g.dropout? x with
    | none => rfl
    | some n => exact List.flatMap_congr fun y hy => ih y ⟨n, hx, hy⟩

theorem Acyclic.existsUnique_expansion (hg : g.Acyclic) : ∃! f, g.IsExpansion f :=
  ⟨g.expand hg.wellFounded_within, isExpansion_expand _,
    fun _ hf => hf.unique hg.wellFounded_within (isExpansion_expand _)⟩

/-- A name expands to what comes of it when it is replaced by names that expand to the same. -/
theorem flatMap_substitute {names : List String} (hx : f x = names.flatMap f) (xs : List String) :
    (substitute x names xs).flatMap f = xs.flatMap f := by
  rw [substitute, List.flatMap_assoc]
  refine List.flatMap_congr fun y _ => ?_
  split
  · next hy => rw [hy, hx]
  · rw [List.flatMap_singleton]

/-! ### On the way -/

/-- **The operands of a node on the way**: they expand to what those of `n` expand to, and a node
that one of them belongs to is not done yet and could be reached from the node at first. -/
structure Rewired (g : Graph) (f : String → List String) (done : List Nat) (i : Nat) (n : Node)
    (xs : Option (List String)) : Prop where
  expands : xs.map (·.flatMap f) = n.inbound.map (·.flatMap f)
  pending : ∀ x ∈ xs.getD [], ∀ j, g.find? x = some j →
    j ∉ done ∧ Relation.TransGen g.Refers i j

/-- **A graph on the way**: the nodes of `g` that are not done are live, with their operands
rewired. -/
structure Elided (g : Graph) (f : String → List String) (done : List Nat) (h : Graph) : Prop where
  stays : ∀ i n, g.node? i = some n → i ∉ done → ∃ m, h.LiveAt i m
  wired : ∀ i m, h.LiveAt i m → i ∉ done ∧
    ∃ n xs, g.node? i = some n ∧ m = { n with inbound := xs } ∧ Rewired g f done i n xs

theorem elided_nil (hlive : ∀ n ∈ g.nodes, n.deleted = false) : Elided g f [] g where
  stays _ n hn _ := ⟨n, hn, hlive n (List.mem_of_getElem? hn)⟩
  wired _ m hm := by
    refine ⟨List.not_mem_nil, m, m.inbound, hm.1, by cases m; rfl, rfl, fun x hx j hj => ?_⟩
    exact ⟨List.not_mem_nil, .single ⟨m, x, hm.1, hx, hj⟩⟩

/-- A dropout expands to what the operands that it has by then expand to. -/
theorem Rewired.eq_flatMap {ys : Option (List String)} (hys : Rewired g f done id n ys)
    (hf : g.IsExpansion f) (hn : g.dropout? n.name = some n) :
    f n.name = (ys.getD []).flatMap f := by
  have hinputs : (ys.getD []).flatMap f = n.inputs.flatMap f := by
    have hexpands := hys.expands
    rw [Node.inputs]
    cases hin : n.inbound <;> cases ys <;> simp_all
  rw [hf, hn, hinputs]

/-- **One dropout more**: it hands the operands that it has by then to a node that refers to it.
None of them is its own name, since it could be reached from itself otherwise. -/
theorem Rewired.substitute {xs ys : Option (List String)} (hxs : Rewired g f done i m xs)
    (hys : Rewired g f done id n ys) (hg : g.Acyclic) (hf : g.IsExpansion f)
    (hid : g.find? n.name = some id) (hn : g.dropout? n.name = some n) :
    Rewired g f (done ++ [id]) i m (xs.map (substitute n.name (ys.getD []))) := by
  refine ⟨?_, fun x hx j hj => ?_⟩
  · rw [← hxs.expands, Option.map_map]
    exact congrArg (Option.map · xs)
      (funext fun zs => flatMap_substitute (hys.eq_flatMap hf hn) zs)
  · have hx' : x ∈ LayerGraph.substitute n.name (ys.getD []) (xs.getD []) := by
      cases xs with
      | none => exact hx
      | some zs => exact hx
    -- the operand was there before, or it is one of the dropout
    suffices hsuf : (j ∉ done ∧ j ≠ id) ∧ Relation.TransGen g.Refers i j by
      refine ⟨?_, hsuf.2⟩
      simp [hsuf.1]
    rcases mem_substitute.mp hx' with ⟨hmem, hname⟩ | ⟨hmem, hy⟩
    · obtain ⟨hj', hreach⟩ := hxs.pending x hmem j hj
      refine ⟨⟨hj', ?_⟩, hreach⟩
      rintro rfl
      exact hname (find?_injective hj hid)
    · obtain ⟨-, hto⟩ := hxs.pending n.name hmem id hid
      obtain ⟨hj', hfrom⟩ := hys.pending x hy j hj
      refine ⟨⟨hj', ?_⟩, hto.trans hfrom⟩
      rintro rfl
      exact hg j hfrom

/-- **What a visit to a dropout keeps.** -/
theorem Elided.retire (hd : g.Distinct) (hg : g.Acyclic) (hf : g.IsExpansion f)
    (h' : Elided g f done h) (hn : g.node? id = some n) (hop : n.opType = "Dropout")
    (hm : h.LiveAt id m) : Elided g f (done ++ [id]) (h.retire id m.name m.inputs) := by
  obtain ⟨-, n', ys, hn', rfl, hys⟩ := h'.wired id m hm
  obtain rfl : n = n' := Option.some.inj (hn.symm.trans hn')
  have hid : g.find? n.name = some id := hd.find?_eq_some_iff.mpr ⟨n, hn, rfl⟩
  have hdrop : g.dropout? n.name = some n := dropout?_eq_some_iff.mpr ⟨id, hid, hn, hop⟩
  constructor
  · intro i k hk hi
    obtain ⟨hi, hne⟩ : i ∉ done ∧ i ≠ id := by simpa using hi
    obtain ⟨l, hl⟩ := h'.stays i k hk hi
    exact ⟨_, liveAt_retire.mpr ⟨hne, l, hl, rfl⟩⟩
  · intro i k hk
    obtain ⟨hne, l, hl, rfl⟩ := liveAt_retire.mp hk
    obtain ⟨hi, o, xs, ho, rfl, hxs⟩ := h'.wired i l hl
    have hxs' := hxs.substitute hys hg hf hid hdrop
    exact ⟨by simp [hi, hne], o, _, ho, rfl, hxs'⟩

theorem call_dropout (cx : FusionContext) (hm : h.LiveAt id m) :
    h.call cx id .dropout = (.ok .elided, h.retire id m.name m.inputs) := by
  rw [call_eq, fuseNode, hm.1]
  simp [hm.2, elide_eq]

/-- **What visits to some dropouts keep**, in whatever order they come. -/
theorem Elided.calls (hd : g.Distinct) (hg : g.Acyclic) (hf : g.IsExpansion f) :
    ∀ {ids done : List Nat} {h : Graph}, Elided g f done h → (done ++ ids).Nodup →
      (∀ id ∈ ids, ∃ n, g.node? id = some n ∧ n.opType = "Dropout") →
      Elided g f (done ++ ids) (h.calls cx (ids.map (·, .dropout)))
  | [], done, h, h', _, _ => by
    rw [List.append_nil]
    exact h'
  | id :: ids, done, h, h', hnodup, hdrops => by
    obtain ⟨n, hn, hop⟩ := hdrops id List.mem_cons_self
    have hid : id ∉ done := by
      intro hmem
      exact List.disjoint_of_nodup_append hnodup hmem List.mem_cons_self
    obtain ⟨m, hm⟩ := h'.stays id n hn hid
    rw [List.map_cons, Graph.calls, call_dropout cx hm, List.append_cons]
    exact (h'.retire hd hg hf hn hop hm).calls hd hg hf (List.append_cons _ _ _ ▸ hnodup)
      fun k hk => hdrops k (List.mem_cons_of_mem _ hk)

/-! ### All dropouts -/

/-- **When no dropout is left**, the operands are the expansion of the operands at first. -/
theorem Rewired.eq_map {xs : Option (List String)} (hf : g.IsExpansion f)
    (hxs : Rewired g f done i n xs)
    (hdone : ∀ j k, g.node? j = some k → k.opType = "Dropout" → j ∈ done) :
    xs = n.inbound.map (·.flatMap f) := by
  rw [← hxs.expands]
  have hself : ∀ x ∈ xs.getD [], f x = [x] := by
    intro x hx
    rw [hf x]
    split
    · next k hk =>
      obtain ⟨j, hj, hnode, hop⟩ := dropout?_eq_some_iff.mp hk
      exact absurd (hdone j k hnode hop) (hxs.pending x hx j hj).1
    · rfl
  cases xs with
  | none => rfl
  | some zs =>
    have hzs : zs.flatMap f = zs :=
      (List.flatMap_congr hself).trans (List.flatMap_singleton' zs)
    exact congrArg some hzs.symm

/-- **Eliding all dropouts is substitution, in any order**: in a graph of distinct names without
deleted nodes and without cycles, names have one expansion. A visit to each dropout elides it,
whatever the order, and leaves the other nodes with their operands expanded. -/
theorem elide_all (cx : FusionContext) (hd : g.Distinct)
    (hlive : ∀ n ∈ g.nodes, n.deleted = false) (hg : g.Acyclic) :
    (∃! f, g.IsExpansion f) ∧
      ∀ f, g.IsExpansion f → ∀ ids, ids.Perm (g.idsWhere fun n => n.opType == "Dropout") →
        (∀ before id after, ids = before ++ id :: after →
          ((g.calls cx (before.map (·, .dropout))).call cx id .dropout).1 = .ok .elided) ∧
        ∀ i m, (g.calls cx (ids.map (·, .dropout))).LiveAt i m ↔
          ∃ n, g.node? i = some n ∧ n.opType ≠ "Dropout" ∧
            m = { n with inbound := n.inbound.map (·.flatMap f) } := by
  refine ⟨hg.existsUnique_expansion, fun f hf ids hids => ?_⟩
  have hnodup : ids.Nodup := hids.nodup_iff.mpr ((pairwise_idsWhere _).imp Nat.ne_of_lt)
  have hmem : ∀ id, id ∈ ids ↔ ∃ n, g.node? id = some n ∧ n.opType = "Dropout" := by
    intro id
    rw [hids.mem_iff, mem_idsWhere]
    simp only [beq_iff_eq]
  constructor
  · rintro before id after rfl
    obtain ⟨n, hn, hop⟩ := (hmem id).mp (by simp)
    have hstage : Elided g f before (g.calls cx (before.map (·, .dropout))) :=
      (elided_nil hlive).calls hd hg hf (List.Nodup.of_append_left hnodup)
        fun k hk => (hmem k).mp (by simp [hk])
    have hid : id ∉ before := fun h => List.disjoint_of_nodup_append hnodup h List.mem_cons_self
    obtain ⟨m, hm⟩ := hstage.stays id n hn hid
    rw [call_dropout cx hm]
  · have hend : Elided g f ids (g.calls cx (ids.map (·, .dropout))) :=
      (elided_nil hlive).calls hd hg hf hnodup fun k => (hmem k).mp
    have hresult : ∀ i m, (g.calls cx (ids.map (·, .dropout))).LiveAt i m → i ∉ ids ∧
        ∃ n, g.node? i = some n ∧ m = { n with inbound := n.inbound.map (·.flatMap f) } := by
      intro i m hm
      obtain ⟨hi, n, xs, hn, rfl, hxs⟩ := hend.wired i m hm
      exact ⟨hi, n, hn, by rw [hxs.eq_map hf fun j k hk hop => (hmem j).mpr ⟨k, hk, hop⟩]⟩
    intro i m
    constructor
    · intro hm
      obtain ⟨hi, n, hn, rfl⟩ := hresult i m hm
      exact ⟨n, hn, fun hop => hi ((hmem i).mpr ⟨n, hn, hop⟩), rfl⟩
    · rintro ⟨n, hn, hop, rfl⟩
      have hi : i ∉ ids := by
        intro h
        obtain ⟨k, hk, hop'⟩ := (hmem i).mp h
        obtain rfl := Option.some.inj (hn.symm.trans hk)
        exact hop hop'
      obtain ⟨m, hm⟩ := hend.stays i n hn hi
      obtain ⟨-, k, hk, rfl⟩ := hresult i m hm
      obtain rfl := Option.some.inj (hn.symm.trans hk)
      exact hm

/-- A dropout that refers twice to a later one, which refers to one without operands. The sum refers
to two of them, and to nothing at all. -/
def scattered : Graph := ⟨[
  { name := "twice", opType := "Dropout", inbound := some ["later", "in", "later"] },
  { name := "in", opType := "InputLayer" },
  { name := "later", opType := "Dropout", inbound := some ["in", "nothing"] },
  { name := "nothing", opType := "Dropout", inbound := some [] },
  { name := "sum", opType := "Add", inbound := some ["twice", "ghost", "nothing", "twice"] }]⟩

theorem acyclic_scattered : scattered.Acyclic := by
  refine acyclic_of_rank (fun i => [2, 0, 1, 0, 3].getD i 0) fun i j hij => ?_
  obtain ⟨n, x, hn, hx, hj⟩ := hij
  have hlive : ∀ n ∈ scattered.nodes, n.deleted = false := by decide
  have hrank := (forall_operand_iff (g := scattered) (p := fun i x => ∀ j ∈ scattered.find? x,
    [2, 0, 1, 0, 3].getD j 0 < [2, 0, 1, 0, 3].getD i 0)).mp (by decide)
  exact hrank i n ⟨hn, hlive n (List.mem_of_getElem? hn)⟩ x hx j hj

/-- The sum refers to the input six times, whether its own dropouts come first or last. -/
theorem elide_scattered :
    (scattered.calls ⟨.keras, .standard, {}⟩ ([0, 3, 2].map (·, .dropout))).LiveAt 4
        { name := "sum", opType := "Add",
          inbound := some ["in", "in", "in", "ghost", "in", "in", "in"] } ∧
      (scattered.calls ⟨.keras, .standard, {}⟩ ([2, 3, 0].map (·, .dropout))).LiveAt 4
        { name := "sum", opType := "Add",
          inbound := some ["in", "in", "in", "ghost", "in", "in", "in"] } := by
  obtain ⟨⟨f, hf, -⟩, hall⟩ := elide_all ⟨.keras, .standard, {}⟩ (g := scattered) (by decide)
    (by decide) acyclic_scattered
  have hin : f "in" = ["in"] := hf "in"
  have hghost : f "ghost" = ["ghost"] := hf "ghost"
  have hnothing : f "nothing" = [] := hf "nothing"
  have hlater : f "later" = ["in"] := by
    have h : f "later" = ["in", "nothing"].flatMap f := hf "later"
    simpa [hin, hnothing] using h
  have htwice : f "twice" = ["in", "in", "in"] := by
    have h : f "twice" = ["later", "in", "later"].flatMap f := hf "twice"
    simpa [hin, hlater] using h
  constructor
  · refine ((hall f hf [0, 3, 2] (by decide)).2 4 _).mpr ⟨_, rfl, by decide, ?_⟩
    simp [hghost, hnothing, htwice]
  · refine ((hall f hf [2, 3, 0] (by decide)).2 4 _).mpr ⟨_, rfl, by decide, ?_⟩
    simp [hghost, hnothing, htwice]

end Graph

end LayerGraph
