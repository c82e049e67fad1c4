import LayerGraph.Proofs.Forest
import LayerGraph.Proofs.Normalize

/-!
# What feeds the first leaf of a container

A container is gone after flattening, and its own operand list with it. What feeds the first leaf
inside it is decided by the order of the nodes: a leaf that leaves its operands open is fed by the
leaf before it, whatever the containers around it were applied to
(`LayerGraph.normalize_firstLeaf`).

So the operands of a container reach its first leaf exactly if the container was applied to what
comes right before it: to the leaf there, or to a container that ends with that leaf. In a list of
branches they are lost (`LayerGraph.normalize_sideBranch`).
-/

namespace LayerGraph

section FirstLeaf

variable {nodes before : List Node} {c l p : Node} {x : String}

/-! ### The leaf before a position -/

theorem nameBefore_append (a : List Node) (n : Node) (b : List Node) :
    nameBefore none (a ++ n :: b) a.length = a.getLast?.map Node.name := by
  cases a using List.reverseRecOn with
  | nil => rfl
  | append_singleton a m => simp [nameBefore]

/-- A node with a leaf inside it is a container. -/
theorem Node.isLeaf_eq_false_of_leaves (h : (LayerGraph.leaves c.children).head? = some l) :
    c.isLeaf = false := by
  cases hleaf : c.isLeaf with
  | false => rfl
  | true =>
    rw [children_of_isLeaf hleaf] at h
    cases h

/-- **The first leaf of a container comes right after the leaves before the container.** -/
theorem Precedes.leaves_eq (hc : Precedes nodes before c)
    (hl : (leaves c.children).head? = some l) :
    ∃ rest, leaves nodes = before.filter Node.isLeaf ++ l :: rest := by
  obtain ⟨after, hsplit⟩ := hc
  obtain ⟨inner, hinner⟩ := List.head?_eq_some_iff.mp hl
  refine ⟨inner ++ after.filter Node.isLeaf, ?_⟩
  rw [leaves_eq_filter nodes, hsplit, List.filter_append, List.filter_append,
    ← Node.leaves_eq_filter, Node.leaves_of_not_isLeaf (Node.isLeaf_eq_false_of_leaves hl), hinner,
    List.append_assoc, List.cons_append]

/-- **The first leaf of a container is fed by the leaf before the container**, if it leaves its
operands open. -/
theorem Precedes.getElem?_feedInOrder (hc : Precedes nodes before c)
    (hl : (leaves c.children).head? = some l) (hin : l.inbound = none) :
    (feedInOrder none (flatten nodes))[(before.filter Node.isLeaf).length]? =
      some { l with
        inbound := some ((before.filter Node.isLeaf).getLast?.map Node.name).toList } := by
  obtain ⟨rest, hleaves⟩ := hc.leaves_eq hl
  -- the leaves before the container, as they stand in the flattened list
  obtain ⟨a, ha⟩ :
      ∃ a, a = (before.filter Node.isLeaf).map (Node.redirected (forestAliases nodes)) := ⟨_, rfl⟩
  have hlen : (before.filter Node.isLeaf).length = a.length := by rw [ha, List.length_map]
  have hlast : a.getLast?.map Node.name = (before.filter Node.isLeaf).getLast?.map Node.name := by
    rw [ha, List.getLast?_map, Option.map_map]
    rfl
  have hget : ∀ m b, (a ++ m :: b)[a.length]? = some m := fun m b => by simp
  rw [LayerGraph.getElem?_feedInOrder, flatten_eq_leaves, hleaves, List.map_append, List.map_cons,
    ← ha, hlen, hget, nameBefore_append, hlast, Option.map_some, Node.feed, Node.redirected, hin]
  rfl

/-! ### What a reference has to be to mean a leaf -/

/-- **A reference means a leaf** if it is the name of that leaf or of a container that stands for
it. -/
def Means (nodes : List Node) (x : String) (p : Node) : Prop :=
  x = p.name ∨ ∃ before n, Precedes nodes before n ∧ n.isLeaf = false ∧ n.name = x ∧
    n.lastLeaf? before = some p

/-- The references that are sent to a leaf are those that mean it. -/
theorem redirect_eq_iff (hd : ((postorder nodes).map Node.name).Nodup) (hp : p ∈ leaves nodes) :
    redirect (forestAliases nodes) x = p.name ↔ Means nodes x p := by
  have hleaf : p.isLeaf = true := isLeaf_of_mem_leaves hp
  have hmem : p ∈ postorder nodes := List.mem_of_mem_filter (leaves_eq_filter nodes ▸ hp)
  constructor
  · intro hx
    rcases exists_container_or hd x with ⟨before, n, hbefore, hnleaf, rfl⟩ | hnone
    · obtain ⟨e, he, hname, -, hlast, hnone⟩ := hbefore.exists_redirect hd hnleaf
      obtain rfl : e = p := List.inj_on_of_nodup_map hd he hmem (hname.symm.trans hx)
      refine Or.inr ⟨before, n, hbefore, hnleaf, rfl, ?_⟩
      cases h : n.lastLeaf? before with
      | none => exact absurd hleaf (by simp [hnone h])
      | some l => rw [hlast l h]
    · rw [redirect, follow_of_value?_eq_none hnone] at hx
      exact Or.inl hx
  · rintro (rfl | ⟨before, n, hbefore, hnleaf, rfl, hlast⟩)
    · rw [forestAliases_eq]
      exact redirect_leaf hd hmem hleaf
    · obtain ⟨e, -, hname, -, hend, -⟩ := hbefore.exists_redirect hd hnleaf
      rw [hname, hend p hlast]

/-- **A list of references is sent to at most one leaf** exactly if it is empty and there is none,
or if it is one reference that means that leaf. -/
theorem map_redirect_eq_iff (hd : ((postorder nodes).map Node.name).Nodup) {o : Option Node}
    (ho : ∀ p, o = some p → p ∈ leaves nodes) {xs : List String} :
    (o.map Node.name).toList = xs.map (redirect (forestAliases nodes)) ↔
      (o = none ∧ xs = []) ∨ ∃ x p, o = some p ∧ xs = [x] ∧ Means nodes x p := by
  cases o with
  | none =>
    constructor
    · intro h
      exact Or.inl ⟨rfl, List.map_eq_nil_iff.mp h.symm⟩
    · rintro (⟨-, rfl⟩ | ⟨x, p, hp, -⟩)
      · rfl
      · cases hp
  | some p =>
    constructor
    · intro h
      obtain ⟨x, rfl, hx⟩ := List.map_eq_singleton_iff.mp h.symm
      exact Or.inr ⟨x, p, rfl, rfl, (redirect_eq_iff hd (ho p rfl)).mp hx⟩
    · rintro (⟨hnone, -⟩ | ⟨x, q, hq, rfl, hx⟩)
      · cases hnone
      · obtain rfl := Option.some.inj hq
        exact congrArg (fun y => [y]) ((redirect_eq_iff hd (ho p rfl)).mpr hx).symm

/-! ### Normal forms -/

/-- **The first leaf of a container is fed by the leaf before the container**, or by nothing if
there is none, as far as the leaf itself leaves its operands open. What the container was applied
to does not matter: it is what the leaf gets if it is a single reference to the leaf before, or if
there is no leaf before and the container was applied to nothing, and in no other case. -/
theorem normalize_firstLeaf (hd : ((postorder nodes).map Node.name).Nodup)
    (hc : Precedes nodes before c) (hl : (leaves c.children).head? = some l)
    (hin : l.inbound = none) :
    ∃ g i fed, normalize .keras nodes = .ok g ∧ g.find? l.name = some i ∧
      g.node? i = some { l with inbound := some fed } ∧
      fed = ((before.filter Node.isLeaf).getLast?.map Node.name).toList ∧
      ∀ xs, c.inbound = some xs → (fed = xs.map (redirect (forestAliases nodes)) ↔
        ((before.filter Node.isLeaf).getLast? = none ∧ xs = []) ∨
          ∃ x p, (before.filter Node.isLeaf).getLast? = some p ∧ xs = [x] ∧ Means nodes x p) := by
  have hg : normalize .keras nodes = .ok ⟨feedInOrder none (flatten nodes)⟩ :=
    normalize_eq_ok_iff.mpr ⟨nodup_names_flatten hd, rfl⟩
  have hnode := hc.getElem?_feedInOrder hl hin
  have hfind := (distinct_of_normalize hg).find?_eq_some_iff.mpr ⟨_, hnode, rfl⟩
  refine ⟨_, _, _, hg, hfind, hnode, rfl, fun xs _ => map_redirect_eq_iff hd fun p hp => ?_⟩
  obtain ⟨rest, hleaves⟩ := hc.leaves_eq hl
  exact hleaves ▸ List.mem_append_left _ (List.mem_of_getLast? hp)

end FirstLeaf

/-- Blocks in a row, each applied to what comes right before it. The second begins with an empty
container. -/
def chainedBlocks : List Node := [
  { name := "in", opType := "InputLayer", inbound := some [] },
  { name := "stem", opType := "Sequential", inbound := some ["in"], children := [
    { name := "relu", opType := "ReLU" },
    { name := "drop", opType := "Dropout" }] },
  { name := "body", opType := "Functional", inbound := some ["stem"], children := [
    { name := "inner", opType := "Sequential", children := [
      { name := "void", opType := "Model" },
      { name := "flat", opType := "Flatten" }] }] }]

/-- The operands of the second block reach its first leaf, one container further in. -/
theorem normalize_chainedBlocks :
    ((postorder chainedBlocks).map Node.name).Nodup ∧
      ∃ g i n, normalize .keras chainedBlocks = .ok g ∧ g.find? "flat" = some i ∧
        g.node? i = some n ∧ n.inbound = some ["drop"] ∧
        n.inbound = some (["stem"].map (redirect (forestAliases chainedBlocks))) := by
  have hd : ((postorder chainedBlocks).map Node.name).Nodup := by decide
  -- in postorder: in, relu, drop, stem, void, flat, inner, body
  have hbody : Precedes chainedBlocks ((postorder chainedBlocks).take 4) chainedBlocks[2] :=
    ⟨[], rfl⟩
  have hstem : Means chainedBlocks "stem" { name := "drop", opType := "Dropout" } :=
    Or.inr ⟨(postorder chainedBlocks).take 1, chainedBlocks[1],
      ⟨(postorder chainedBlocks).drop 4, rfl⟩, rfl, rfl, rfl⟩
  obtain ⟨g, i, fed, hg, hi, hnode, hfed, hreach⟩ :=
    normalize_firstLeaf hd hbody (l := { name := "flat", opType := "Flatten" }) rfl rfl
  have hreached := (hreach ["stem"] rfl).mpr (Or.inr ⟨"stem", _, rfl, rfl, hstem⟩)
  exact ⟨hd, g, i, _, hg, hi, hnode, congrArg some hfed, congrArg some hreached⟩

/-- Two inputs, and a block that is applied to the first of them. -/
def sideBranch : List Node := [
  { name := "left", opType := "InputLayer", inbound := some [] },
  { name := "right", opType := "InputLayer", inbound := some [] },
  { name := "block", opType := "Sequential", inbound := some ["left"], children := [
    { name := "flat", opType := "Flatten" }] }]

/-- **The operands of a container are lost** if it is not applied to what comes right before it:
the only leaf of the block is fed by the second input. -/
theorem normalize_sideBranch :
    ((postorder sideBranch).map Node.name).Nodup ∧
      ∃ block flat g i n, block ∈ postorder sideBranch ∧ block.inbound = some ["left"] ∧
        block.children = [flat] ∧ (leaves block.children).head? = some flat ∧ flat.inbound = none ∧
        normalize .keras sideBranch = .ok g ∧ g.find? flat.name = some i ∧ g.node? i = some n ∧
        n.inbound = some ["right"] ∧
        n.inbound ≠ some (["left"].map (redirect (forestAliases sideBranch))) := by
  refine ⟨by decide, _, _, _, 2, _, List.mem_of_getElem? (i := 3) rfl, rfl, rfl, rfl, rfl, rfl, ?_,
    rfl, rfl, ?_⟩ <;> decide

end LayerGraph
