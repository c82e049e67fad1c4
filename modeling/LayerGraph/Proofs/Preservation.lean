import LayerGraph.Proofs.Value

/-!
# Fusion keeps what a graph computes

If a node is merged into one that has no other user, nothing that anyone refers to is computed
differently (`LayerGraph.Graph.fuse_preserves_values`). The node that absorbs takes over the value
of the absorbed one; its own former value is lost, but only the absorbed node had asked for it.
A dropout has the value of its operand, so whoever referred to it may as well refer to that.

What a change of a graph keeps of the values is `LayerGraph.Graph.Keeps`, which has one step
lemma for a visit (`LayerGraph.Graph.Visited.keeps`) and composes along a run
(`LayerGraph.Graph.Keeps.trans`).
-/

namespace LayerGraph

universe u

namespace Graph

variable {V : Type u} {I : Interpretation V} {cx : FusionContext} {g g₁ g' : Graph}
  {i j id k t : Nat} {ids : List Nat} {n n' m : Node} {o : Outcome} {ρ ρ₁ ρ' : String → Option V}

/-! ### What is kept of the values -/

/-- **A node before and after a change** of the graph. Its operands have the same values, slot by
slot. If nothing was merged into it, it has the same value; else it has the value of the node
that was merged into it last. -/
structure Carried (g : Graph) (ρ ρ' : String → Option V) (last : Option Nat) (n n' : Node) :
    Prop where
  bare : n'.bare = n.bare
  operands : n'.inputs.map ρ' = n.inputs.map ρ
  same : last = none → n'.absorbed = n.absorbed ∧ ρ' n'.name = ρ n.name
  taken : ∀ j, last = some j → n'.absorbed ≠ {} ∧ ∃ m, g.LiveAt j m ∧ ρ' n'.name = ρ m.name

/-- **Every node that is left is carried over**, where `last` gives the position of the node that
was merged last into the one at a position. -/
def Keeps (g g' : Graph) (ρ ρ' : String → Option V) (last : Nat → Option Nat) : Prop :=
  ∀ i n', g'.LiveAt i n' → ∃ n, g.LiveAt i n ∧ Carried g ρ ρ' (last i) n n'

theorem Keeps.refl (g : Graph) (ρ : String → Option V) : Keeps g g ρ ρ fun _ => none :=
  fun _ n hn => ⟨n, hn, rfl, rfl, fun _ => ⟨rfl, rfl⟩, nofun⟩

/-- **Changes compose**, if what is merged later was not merged into before. -/
theorem Keeps.trans {last last₁ : Nat → Option Nat} (h : Keeps g g₁ ρ ρ₁ last)
    (h₁ : Keeps g₁ g' ρ₁ ρ' last₁) (hlast : ∀ i j, last₁ i = some j → last j = none) :
    Keeps g g' ρ ρ' fun i => (last₁ i).or (last i) := by
  intro i n' hn'
  obtain ⟨n₁, hn₁, hc₁⟩ := h₁ i n' hn'
  obtain ⟨n, hn, hc⟩ := h i n₁ hn₁
  refine ⟨n, hn, hc₁.bare.trans hc.bare, hc₁.operands.trans hc.operands, fun hnone => ?_,
    fun j hj => ?_⟩
  · obtain ⟨hnone₁, hnone⟩ := Option.or_eq_none_iff.mp hnone
    exact ⟨(hc₁.same hnone₁).1.trans (hc.same hnone).1, (hc₁.same hnone₁).2.trans (hc.same hnone).2⟩
  · cases hl : last₁ i with
    | none =>
      -- the node has the value that it took over before
      simp only [hl, Option.none_or] at hj
      obtain ⟨hne, m, hm, hv⟩ := hc.taken j hj
      exact ⟨(hc₁.same hl).1 ▸ hne, m, hm, (hc₁.same hl).2.trans hv⟩
    | some j' =>
      simp only [hl, Option.some_or, Option.some.injEq] at hj
      subst hj
      obtain ⟨hne, m₁, hm₁, hv⟩ := hc₁.taken j' hl
      obtain ⟨m, hm, hcm⟩ := h j' m₁ hm₁
      exact ⟨hne, m, hm, hv.trans (hcm.same (hlast i j' hl)).2⟩

/-- The values of an ordered graph may be given by any solution. -/
theorem Keeps.of_solves {last : Nat → Option Nat} (h : Keeps g g' ρ ρ₁ last) (hg' : g'.Ordered)
    (hs : g'.Solves I cx ρ₁) : Keeps g g' ρ (g'.value? I cx) last := by
  intro i n' hn'
  obtain ⟨n, hn, hc⟩ := h i n' hn'
  have hname : g'.value? I cx n'.name = ρ₁ n'.name := (solves_value? hg').unique hg' hs hn'
  have hops : n'.inputs.map (g'.value? I cx) = n'.inputs.map ρ₁ :=
    (solves_value? hg').map_inputs hg' hs hn'
  exact ⟨n, hn, hc.bare, hops.trans hc.operands, fun hl => hname ▸ hc.same hl,
    fun j hj => hname ▸ hc.taken j hj⟩

/-! ### Eliding a dropout -/

/-- Substituting a name keeps the values of all slots, if the new name has the value of the old
one and the others have the values that they had. -/
theorem map_substitute {r y : String} {xs : List String} (hy : ρ' y = ρ r)
    (hxs : ∀ x ∈ xs, x ≠ r → ρ' x = ρ x) : (substitute r [y] xs).map ρ' = xs.map ρ := by
  rw [substitute_singleton, List.map_map]
  refine List.map_congr_left fun x hx => ?_
  simp only [Function.comp]
  split
  · next h => rw [hy, h]
  · next h => exact hxs x hx h

/-- **A dropout has the value of its operand.** -/
theorem value?_dropout {x : String} (hs : g.Solves I cx ρ) (hn : g.LiveAt id n)
    (hfresh : n.absorbed = {}) (hin : n.inputs = [x])
    (hf : Family.resolve cx.format cx.custom n.opType = .ok .dropout) : ρ n.name = ρ x := by
  rw [hs id n hn, Interpretation.meaning, Interpretation.own_of_dropout hf, hin, hfresh]
  cases h : ρ x <;> simp [applyUnary, h]

/-- A node that offers a contribution has the value that this makes of its operand's value. -/
theorem value?_offers {c : Contribution} {x : String} (hs : g.Solves I cx ρ) (hn : g.LiveAt id n)
    (hfresh : n.absorbed = {}) (hin : n.inputs = [x]) (hc : n.Offers cx c) :
    ρ n.name = (ρ x).map (I.part c) := by
  rw [hs id n hn, Interpretation.meaning, Interpretation.own_of_offers hc, hin, hfresh]
  cases h : ρ x <;> simp [applyUnary, h]

/-- **Eliding a dropout keeps all values.** -/
theorem keeps_elide (hg : g.Ordered) (hg' : (g.elide id n).Ordered) (hn : g.LiveAt id n)
    (hfresh : n.absorbed = {}) (hlen : n.inputs.length = 1)
    (hf : Family.resolve cx.format cx.custom n.opType = .ok .dropout) :
    Keeps g (g.elide id n) (g.value? I cx) ((g.elide id n).value? I cx) fun _ => none := by
  have hs : g.Solves I cx (g.value? I cx) := solves_value? hg
  obtain ⟨x, hin⟩ := List.length_eq_one_iff.mp hlen
  have hx : g.value? I cx n.name = g.value? I cx x := value?_dropout hs hn hfresh hin hf
  have hops : ∀ l : Node, (l.rewire n.name n.inputs).inputs.map (g.value? I cx) =
      l.inputs.map (g.value? I cx) := by
    intro l
    rw [Node.rewire_inputs, hin]
    exact map_substitute hx.symm fun _ _ _ => rfl
  have hkeeps : Keeps g (g.elide id n) (g.value? I cx) (g.value? I cx) fun _ => none := by
    intro i l' hl'
    obtain ⟨-, l, hl, rfl⟩ := liveAt_retire.mp hl'
    exact ⟨l, hl, rfl, hops l, fun _ => ⟨rfl, rfl⟩, nofun⟩
  -- the values of the graph before solve the graph after
  refine hkeeps.of_solves hg' fun i l' hl' => ?_
  obtain ⟨-, l, hl, rfl⟩ := liveAt_retire.mp hl'
  rw [hops, Node.rewire_name, hs i l hl]
  exact Interpretation.meaning_congr rfl rfl

/-! ### A merge -/

/-- The values after a merge: the node that absorbs takes over the value of the absorbed one. -/
def takeOver (ρ : String → Option V) (m n : Node) (x : String) : Option V :=
  if x = m.name then ρ n.name else ρ x

theorem takeOver_of_ne {x : String} (h : x ≠ m.name) : takeOver ρ m n x = ρ x := if_neg h

section Merge

variable {c : Contribution} {l : Node} (hn : g.LiveAt id n) (hm : g.LiveAt t m)
  (hsole : g.users m.name = [id])

include hsole in
/-- Only the absorbed node refers to the one that absorbs it. -/
theorem not_mem_inputs_of_sole (hl : g.LiveAt i l) (hne : i ≠ id) : m.name ∉ l.inputs := by
  intro hmem
  have hi : i ∈ g.users m.name := mem_users.mpr ⟨l, hl, hmem⟩
  rw [hsole, List.mem_singleton] at hi
  exact hne hi

include hsole in
/-- The slots of all other nodes keep their values: who referred to the absorbed node refers to
the one that absorbs it, and nobody else does. -/
theorem map_takeOver (hl : g.LiveAt i l) (hne : i ≠ id) :
    (l.rewire n.name [m.name]).inputs.map (takeOver ρ m n) = l.inputs.map ρ := by
  rw [Node.rewire_inputs]
  refine map_substitute (if_pos rfl) fun x hx _ => takeOver_of_ne ?_
  rintro rfl
  exact not_mem_inputs_of_sole hsole hl hne hx

include hn hm hsole in
theorem keeps_takeOver (hg : g.Distinct) :
    Keeps g (g.merge id n c t) ρ (takeOver ρ m n) fun i => if t = i then some id else none := by
  intro i l' hl'
  obtain ⟨hne, l, hl, rfl⟩ := (liveAt_merge hm.1).mp hl'
  by_cases hit : i = t
  · subst hit
    obtain rfl := hl.unique hm
    simp only [if_true]
    have hops : ((l.absorb c).rewire n.name [l.name]).inputs.map (takeOver ρ l n) =
        l.inputs.map ρ := map_takeOver (l := l) hsole hl hne
    refine ⟨l, hl, rfl, hops, nofun, fun j hj => ?_⟩
    obtain rfl := Option.some.inj hj
    refine ⟨?_, n, hn, if_pos rfl⟩
    cases c <;> simp [Absorbed.absorb]
  · simp only [if_neg hit, if_neg (Ne.symm hit)]
    refine ⟨l, hl, rfl, map_takeOver hsole hl hne, fun _ => ⟨rfl, takeOver_of_ne fun he => hit ?_⟩,
      nofun⟩
    exact hg.eq_of_name hl.1 hm.1 he

include hm hsole in
/-- **The values after a merge solve the merged graph**, if the absorbed node had the value of its
contribution applied to the value of the one that absorbs it. -/
theorem solves_merge (hg : g.Distinct) (hs : g.Solves I cx ρ)
    (hvalue : ρ n.name = (ρ m.name).map (I.part c)) (hacc : m.accepts c = true) :
    (g.merge id n c t).Solves I cx (takeOver ρ m n) := by
  intro i l' hl'
  obtain ⟨hne, l, hl, rfl⟩ := (liveAt_merge hm.1).mp hl'
  by_cases hit : i = t
  · -- the node that absorbs computes what it did, and after that what it has absorbed
    subst hit
    obtain rfl := hl.unique hm
    have hops : ((l.absorb c).rewire n.name [l.name]).inputs.map (takeOver ρ l n) =
        l.inputs.map ρ := map_takeOver (l := l) hsole hl hne
    rw [if_pos rfl, hops]
    calc takeOver ρ l n l.name
        = (ρ l.name).map (I.part c) := by rw [takeOver, if_pos rfl, hvalue]
      _ = (I.meaning cx l (l.inputs.map ρ)).map (I.part c) := by rw [hs i l hl]
      _ = I.meaning cx (l.absorb c) (l.inputs.map ρ) := (Interpretation.meaning_absorb hacc).symm
      _ = I.meaning cx ((l.absorb c).rewire n.name [l.name]) (l.inputs.map ρ) :=
        Interpretation.meaning_congr rfl rfl
  · have hname : l.name ≠ m.name := fun he => hit (hg.eq_of_name hl.1 hm.1 he)
    rw [if_neg hit, map_takeOver hsole hl hne, Node.rewire_name, takeOver_of_ne hname, hs i l hl]
    exact Interpretation.meaning_congr rfl rfl

end Merge

/-- **A merge keeps all values but that of the node that absorbs**, if it has no user but the
absorbed node. -/
theorem keeps_merge {c : Contribution} (hg : g.Ordered) (hg' : (g.merge id n c t).Ordered)
    (hn : g.LiveAt id n) (hfresh : n.absorbed = {}) (hlen : n.inputs.length = 1)
    (hc : n.Offers cx c) (hm : g.LiveAt t m) (hx : m.name ∈ n.inputs) (hacc : m.accepts c = true)
    (hsole : g.users m.name = [id]) :
    Keeps g (g.merge id n c t) (g.value? I cx) ((g.merge id n c t).value? I cx)
      fun i => if t = i then some id else none := by
  have hs : g.Solves I cx (g.value? I cx) := solves_value? hg
  have hin : n.inputs = [m.name] := by
    obtain ⟨x, hin⟩ := List.length_eq_one_iff.mp hlen
    rw [hin, List.mem_singleton] at hx
    rw [hin, hx]
  have hvalue := value?_offers hs hn hfresh hin hc
  exact (keeps_takeOver hn hm hsole hg.distinct).of_solves hg'
    (solves_merge hm hsole hg.distinct hs hvalue hacc)

/-! ### A visit -/

/-- A node that is merged has no rival: it is the only one to refer to the node that absorbs it. -/
def SoleUser (g : Graph) (id : Nat) : Outcome → Prop
  | .absorbedBy t => ∀ m ∈ g.node? t, g.users m.name = [id]
  | _ => True

instance (g : Graph) (id : Nat) (o : Outcome) : Decidable (g.SoleUser id o) :=
  match o with
  | .absorbedBy t => inferInstanceAs (Decidable (∀ m ∈ g.node? t, g.users m.name = [id]))
  | .kept | .elided => isTrue trivial

/-- What a visit with some outcome has merged into a position. -/
def mergedInto (id : Nat) (o : Outcome) (i : Nat) : Option Nat :=
  if o = .absorbedBy i then some id else none

theorem Visited.mergedInto_eq_none (h : Visited cx g id g' o) (hg : g.Backward) (hi : id ≤ i) :
    mergedInto id o i = none := by
  refine if_neg ?_
  rintro rfl
  exact Nat.lt_irrefl i (Nat.lt_of_lt_of_le (h.target_lt hg) hi)

/-- **A visit keeps the values**, if the visited node has absorbed nothing itself and is the sole
user of the node that it is merged into. -/
theorem Visited.keeps (h : Visited cx g id g' o) (hg : g.Ordered) (hw : g.UnaryWired cx)
    (hfresh : ∀ n, g.LiveAt id n → n.absorbed = {}) (hsole : g.SoleUser id o) :
    Keeps g g' (g.value? I cx) (g'.value? I cx) (mergedInto id o) := by
  have hg' : g'.Ordered := h.ordered hg
  cases h with
  | kept => exact Keeps.refl g _
  | @elided n live dropout =>
    have hlen : n.inputs.length = 1 :=
      hw n (mem_live.mpr ⟨id, live⟩) (Node.isUnary_of_dropout dropout)
    exact keeps_elide hg hg' live (hfresh n live) hlen dropout
  | @absorbed n m c t live offers target _ operand _ accepts =>
    have hlen : n.inputs.length = 1 := hw n (mem_live.mpr ⟨id, live⟩) offers.isUnary
    have hkeeps := keeps_merge (I := I) hg hg' live (hfresh n live) hlen offers target operand
      accepts (hsole m target.1)
    intro i n' hn'
    obtain ⟨l, hl, hc⟩ := hkeeps i n' hn'
    refine ⟨l, hl, ?_⟩
    rw [mergedInto]
    simpa only [Outcome.absorbedBy.injEq] using hc

/-! ### A run -/

/-- **Every merge of a run is unshared**: the node that is merged is the only one to refer to the
one that absorbs it. -/
def UnsharedMerges (cx : FusionContext) : Graph → List Nat → Prop
  | _, [] => True
  | g, id :: ids =>
    match g.visit cx id with
    | .ok (g', o) => g.SoleUser id o ∧ UnsharedMerges cx g' ids
    | .error _ => True

instance decidableUnsharedMerges (cx : FusionContext) :
    ∀ (g : Graph) (ids : List Nat), Decidable (g.UnsharedMerges cx ids)
  | _, [] => isTrue trivial
  | g, id :: ids =>
    match h : g.visit cx id with
    | .ok (g', o) =>
      have := decidableUnsharedMerges cx g' ids
      decidable_of_iff (g.SoleUser id o ∧ g'.UnsharedMerges cx ids) (by simp [UnsharedMerges, h])
    | .error _ => isTrue (by simp [UnsharedMerges, h])

/-- **The node merged last** into the one at a position, in a run over the nodes at some
positions. -/
def lastMerged (cx : FusionContext) : Graph → List Nat → Nat → Option Nat
  | _, [], _ => none
  | g, id :: ids, i =>
    match g.visit cx id with
    | .ok (g', o) => (lastMerged cx g' ids i).or (mergedInto id o i)
    | .error _ => none

theorem mem_of_lastMerged : ∀ {ids : List Nat} {g : Graph} {i j : Nat},
    g.lastMerged cx ids i = some j → j ∈ ids
  | [], _, _, _, h => nomatch h
  | id :: ids, g, i, j, h => by
    rw [lastMerged] at h
    split at h
    · next g' o hv =>
      rcases Option.or_eq_some_iff.mp h with h | ⟨-, h⟩
      · exact List.mem_cons_of_mem _ (mem_of_lastMerged h)
      · rw [mergedInto] at h
        split at h
        · obtain rfl := Option.some.inj h
          exact List.mem_cons_self
        · cases h
    · cases h

/-- What is kept of the values keeps the operands of functions of one operand single. -/
theorem Keeps.unaryWired {last : Nat → Option Nat} (h : Keeps g g' ρ ρ' last)
    (hw : g.UnaryWired cx) : g'.UnaryWired cx := by
  intro n' hn' hu
  obtain ⟨i, hi⟩ := mem_live.mp hn'
  obtain ⟨n, hn, hc⟩ := h i n' hi
  have hlen := congrArg List.length hc.operands
  rw [List.length_map, List.length_map] at hlen
  rw [hlen]
  exact hw n (mem_live.mpr ⟨i, hn⟩) (hu.of_bare hc.bare)

/-- **A run keeps the values**, if its merges are unshared and none of the nodes to visit has
absorbed anything yet. -/
theorem keeps_of_fuseFrom :
    ∀ {ids : List Nat} {g : Graph} {k : Nat}, g.fuseFrom cx ids = (g', .ok k) → g.Ordered →
      g.UnaryWired cx → ids.Pairwise (· < ·) →
      (∀ i ∈ ids, ∀ n, g.LiveAt i n → n.absorbed = {}) → g.UnsharedMerges cx ids →
      Keeps g g' (g.value? I cx) (g'.value? I cx) (g.lastMerged cx ids)
  | [], g, k, hrun, _, _, _, _, _ => by
    obtain ⟨rfl, -⟩ := Prod.mk.inj hrun
    exact Keeps.refl g _
  | id :: ids, g, k, hrun, hg, hw, hids, hfresh, hun => by
    obtain ⟨g₁, o, k', hv, hrest, -⟩ := fuseFrom_cons_ok hrun
    obtain ⟨hlt, hids⟩ := List.pairwise_cons.mp hids
    simp only [UnsharedMerges, hv] at hun
    have hvis := visited_of_visit hv
    have hstep := hvis.keeps (I := I) hg hw (hfresh id List.mem_cons_self) hun.1
    have hlater : ∀ i ∈ ids, mergedInto id o i = none := fun i hi =>
      hvis.mergedInto_eq_none hg.backward (Nat.le_of_lt (hlt i hi))
    -- nothing has been merged into the nodes still to visit
    have hfresh₁ : ∀ i ∈ ids, ∀ n, g₁.LiveAt i n → n.absorbed = {} := by
      intro i hi n₁ hn₁
      obtain ⟨n, hn, hc⟩ := hstep i n₁ hn₁
      rw [(hc.same (hlater i hi)).1]
      exact hfresh i (List.mem_cons_of_mem _ hi) n hn
    have hrun := keeps_of_fuseFrom hrest (hvis.ordered hg) (hstep.unaryWired hw) hids hfresh₁ hun.2
    have hlast : g.lastMerged cx (id :: ids) =
        fun i => (g₁.lastMerged cx ids i).or (mergedInto id o i) := by
      funext i
      simp only [lastMerged, hv]
    rw [hlast]
    exact hstep.trans hrun fun i j hj => hlater j (mem_of_lastMerged hj)

/-- **Fusion keeps what a graph computes**, whatever the layers mean, if every node that is merged
is the only one to refer to the one that absorbs it. A node that is left has the value that it had
if it absorbed nothing, else the value that the node merged into it last had; and every slot of
its operands has the value that it had. -/
theorem fuse_preserves_values (I : Interpretation V) (hg : g.Ordered)
    (hfresh : ∀ n ∈ g.live, n.absorbed = {}) (hw : g.UnaryWired cx)
    (run : g.fuse cx = (g', .ok k)) (hun : g.UnsharedMerges cx g.liveIds) :
    (∀ n ∈ g.live, (g.value? I cx n.name).isSome) ∧
      ∀ i n', g'.LiveAt i n' → ∃ n, g.LiveAt i n ∧ n'.bare = n.bare ∧
        (n'.absorbed = {} → g'.value? I cx n'.name = g.value? I cx n.name) ∧
        (n'.absorbed ≠ {} → ∃ j m, g.lastMerged cx g.liveIds i = some j ∧ g.LiveAt j m ∧
          g'.value? I cx n'.name = g.value? I cx m.name) ∧
        n'.inputs.map (g'.value? I cx) = n.inputs.map (g.value? I cx) := by
  constructor
  · intro n hn
    obtain ⟨i, hi⟩ := mem_live.mp hn
    exact isSome_value? hg hw hi
  · intro i n' hn'
    have hkeeps : Keeps g g' (g.value? I cx) (g'.value? I cx) (g.lastMerged cx g.liveIds) :=
      keeps_of_fuseFrom run hg hw pairwise_liveIds
        (fun i _ n hn => hfresh n (mem_live.mpr ⟨i, hn⟩)) hun
    obtain ⟨n, hn, hc⟩ := hkeeps i n' hn'
    refine ⟨n, hn, hc.bare, fun hnone => ?_, fun hsome => ?_, hc.operands⟩
    · cases hl : g.lastMerged cx g.liveIds i with
      | none => exact (hc.same hl).2
      | some j => exact absurd hnone (hc.taken j hl).1
    · cases hl : g.lastMerged cx g.liveIds i with
      | none => exact absurd ((hc.same hl).1.trans (hfresh n (mem_live.mpr ⟨i, hn⟩))) hsome
      | some j =>
        obtain ⟨-, m, hm, hv⟩ := hc.taken j hl
        exact ⟨j, m, rfl, hm, hv⟩

/-- A convolution that absorbs a batch normalization and then, behind a dropout, an activation. -/
def normChain : Graph := ⟨[
  { name := "in", opType := "InputLayer", inbound := some [] },
  { name := "conv", opType := "Conv2D", inbound := some ["in"] },
  { name := "norm", opType := "BatchNormalization", inbound := some ["conv"],
    weights := [("moving_mean", ⟨[0], []⟩), ("moving_variance", ⟨[0], []⟩)] },
  { name := "drop", opType := "Dropout", inbound := some ["norm"] },
  { name := "relu", opType := "ReLU", inbound := some ["drop"] },
  { name := "sum", opType := "Add", inbound := some ["relu", "in"] }]⟩

/-- The convolution ends up with the value of the activation, and all slots keep their values. -/
theorem fuse_normChain_values :
    normChain.Ordered ∧ (∀ n ∈ normChain.live, n.absorbed = {}) ∧
      normChain.UnaryWired ⟨.keras, .standard, {}⟩ ∧
      (normChain.fuse ⟨.keras, .standard, {}⟩).2 = .ok 3 ∧
      normChain.UnsharedMerges ⟨.keras, .standard, {}⟩ normChain.liveIds ∧
      normChain.lastMerged ⟨.keras, .standard, {}⟩ normChain.liveIds 1 = some 4 ∧
      ∀ (I : Interpretation Nat) i n', (normChain.fuse ⟨.keras, .standard, {}⟩).1.LiveAt i n' →
        ∃ n, normChain.LiveAt i n ∧
          n'.inputs.map
              ((normChain.fuse ⟨.keras, .standard, {}⟩).1.value? I ⟨.keras, .standard, {}⟩) =
            n.inputs.map (normChain.value? I ⟨.keras, .standard, {}⟩) := by
  have hord : normChain.Ordered := by decide
  have hfresh : ∀ n ∈ normChain.live, n.absorbed = {} := by decide
  have hwired : normChain.UnaryWired ⟨.keras, .standard, {}⟩ := by decide
  have hrun : (normChain.fuse ⟨.keras, .standard, {}⟩).2 = .ok 3 := by decide
  have hsole : normChain.UnsharedMerges ⟨.keras, .standard, {}⟩ normChain.liveIds := by decide
  refine ⟨hord, hfresh, hwired, hrun, hsole, by decide, fun I i n' hn' => ?_⟩
  obtain ⟨n, hn, -, -, -, hops⟩ :=
    (fuse_preserves_values (k := 3) I hord hfresh hwired (Prod.ext rfl hrun) hsole).2 i n' hn'
  exact ⟨n, hn, hops⟩

end Graph

end LayerGraph
