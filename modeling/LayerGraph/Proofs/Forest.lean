import LayerGraph.Proofs.Flattening

/-!
# Flattening is exact

Flattening keeps the leaves of a forest, in depth-first order, and of each leaf it changes the
operand list alone. `LayerGraph.leaves` is that order, read off the trees without any detour over
the containers, and `LayerGraph.flatten_exact` says what becomes of the names in the operand lists:
the name of a container gives way to that of the leaf the container ends with, and nothing else is
touched.

A container may hold no leaf. Then it stands for the leaf before it, and if there is none of these
either, it stands for nothing, and references to it keep a name that no leaf bears. In all cases
the redirection has come to its end: there is no alias left that could still be followed. This
needs distinct names, for two containers of one name can be aliases of each other.
-/

namespace LayerGraph

/-! ### Leaves in depth-first order -/

mutual

/-- The leaves of a tree; an empty container has none. -/
def Node.leaves : Node → List Node
  | ⟨name, opType, attrs, inbound, weights, [], absorbed, deleted⟩ =>
    if isContainerOp opType then []
    else [⟨name, opType, attrs, inbound, weights, [], absorbed, deleted⟩]
  | ⟨_, _, _, _, _, child :: children, _, _⟩ => child.leaves ++ LayerGraph.leaves children

/-- **The leaves of a forest**, depth first. -/
def leaves : List Node → List Node
  | [] => []
  | n :: ns => n.leaves ++ leaves ns

end

@[simp] theorem leaves_nil : leaves [] = [] := rfl

@[simp] theorem leaves_cons (n : Node) (ns : List Node) :
    leaves (n :: ns) = n.leaves ++ leaves ns := rfl

theorem Node.leaves_of_isLeaf {n : Node} (h : n.isLeaf = true) : n.leaves = [n] := by
  obtain ⟨name, opType, attrs, inbound, weights, children, absorbed, deleted⟩ := n
  cases children <;> simp_all [isLeaf, leaves]

/-- The leaves of a container are those of the forest inside it. -/
theorem Node.leaves_of_not_isLeaf {n : Node} (h : n.isLeaf = false) :
    n.leaves = LayerGraph.leaves n.children := by
  obtain ⟨name, opType, attrs, inbound, weights, children, absorbed, deleted⟩ := n
  cases children <;> simp_all [isLeaf, leaves]

mutual

theorem Node.leaves_eq_filter : ∀ n : Node, n.leaves = n.postorder.filter Node.isLeaf
  | ⟨name, opType, attrs, inbound, weights, children, absorbed, deleted⟩ => by
    rw [Node.postorder_eq, List.filter_append, ← leaves_eq_filter children]
    cases hleaf :
        Node.isLeaf ⟨name, opType, attrs, inbound, weights, children, absorbed, deleted⟩ with
    | true =>
      obtain rfl : children = [] := by simp_all [Node.isLeaf]
      rw [Node.leaves_of_isLeaf hleaf, List.filter_cons_of_pos hleaf]
      rfl
    | false =>
      rw [Node.leaves_of_not_isLeaf hleaf, List.filter_cons_of_neg (by simp [hleaf])]
      exact (List.append_nil _).symm

/-- **Postorder lists the leaves in depth-first order.** -/
theorem leaves_eq_filter : ∀ ns : List Node, leaves ns = (postorder ns).filter Node.isLeaf
  | [] => rfl
  | n :: ns => by
    rw [leaves_cons, postorder_cons, List.filter_append, Node.leaves_eq_filter n,
      leaves_eq_filter ns]

end

theorem Node.children_of_isLeaf {n : Node} (h : n.isLeaf = true) : n.children = [] := by
  rw [isLeaf, Bool.and_eq_true] at h
  exact List.isEmpty_iff.mp h.1

theorem isLeaf_of_mem_leaves {n : Node} {ns : List Node} (h : n ∈ leaves ns) : n.isLeaf = true := by
  rw [leaves_eq_filter] at h
  exact List.of_mem_filter h

/-! ### Where a node stands in its forest -/

/-- The nodes that come up before a node of a forest and everything inside it. -/
def Precedes (nodes before : List Node) (n : Node) : Prop :=
  ∃ after, postorder nodes = before ++ n.postorder ++ after

mutual

theorem Node.exists_precedes {m : Node} :
    ∀ n : Node, m ∈ n.postorder → ∃ before after, n.postorder = before ++ m.postorder ++ after
  | ⟨name, opType, attrs, inbound, weights, children, absorbed, deleted⟩, h => by
    rw [Node.postorder_eq, List.mem_append, List.mem_singleton] at h
    rcases h with h | rfl
    · obtain ⟨before, after, hsplit⟩ := exists_precedes children h
      refine ⟨before, after ++
        [⟨name, opType, attrs, inbound, weights, children, absorbed, deleted⟩], ?_⟩
      rw [Node.postorder_eq, hsplit, List.append_assoc]
    · exact ⟨[], [], by simp⟩

/-- Every node of a forest has its place. -/
theorem exists_precedes {m : Node} :
    ∀ ns : List Node, m ∈ postorder ns → ∃ before, Precedes ns before m
  | n :: ns, h => by
    rw [postorder_cons, List.mem_append] at h
    rcases h with h | h
    · obtain ⟨before, after, hsplit⟩ := Node.exists_precedes n h
      exact ⟨before, after ++ postorder ns, by rw [postorder_cons, hsplit, List.append_assoc]⟩
    · obtain ⟨before, after, hsplit⟩ := exists_precedes ns h
      exact ⟨n.postorder ++ before, after, by
        rw [postorder_cons, hsplit, List.append_assoc, List.append_assoc, List.append_assoc]⟩

end

/-! ### Where references are sent -/

section Redirection

variable {nodes before : List Node} {n l : Node} {x : String}

/-- The aliases that flattening a forest leaves behind. -/
def forestAliases (nodes : List Node) : Entries String := (Flattening.expandAll {} nodes).aliases

theorem forestAliases_eq (nodes : List Node) :
    forestAliases nodes = aliasesOf (postorder nodes) := by
  rw [forestAliases, Flattening.expandAll_eq, aliasesOf]

/-- **The leaf that a container stands for**: its own last leaf, at any depth, or else the last one
of the nodes before it. -/
def Node.lastLeaf? (before : List Node) (n : Node) : Option Node :=
  n.leaves.getLast?.or (before.filter isLeaf).getLast?

/-- When a container ends, the leaf it stands for is the last one so far. -/
theorem Node.lastLeaf?_eq (before : List Node) (hleaf : n.isLeaf = false) :
    n.lastLeaf? before = ((before ++ LayerGraph.postorder n.children).filter isLeaf).getLast? := by
  rw [lastLeaf?, leaves_of_not_isLeaf hleaf, LayerGraph.leaves_eq_filter, List.filter_append,
    List.getLast?_append]

/-- **Where a reference to a container ends.** -/
theorem Precedes.exists_redirect (hd : ((postorder nodes).map Node.name).Nodup)
    (hn : Precedes nodes before n) (hleaf : n.isLeaf = false) :
    ∃ e ∈ postorder nodes, redirect (forestAliases nodes) n.name = e.name ∧
      (forestAliases nodes).value? e.name = none ∧
      (∀ l, n.lastLeaf? before = some l → e = l) ∧
      (n.lastLeaf? before = none → e.isLeaf = false) := by
  obtain ⟨after, hsplit⟩ := hn
  rw [n.postorder_eq, ← List.append_assoc, List.append_assoc _ [n]] at hsplit
  have hnested := nested_postorder none nodes
  rw [hsplit] at hd hnested
  obtain ⟨e, he, hend⟩ := exists_redirect_container hd hnested hleaf
  rw [forestAliases_eq, Node.lastLeaf?_eq before hleaf, hsplit]
  refine ⟨e, ?_, hend⟩
  rw [List.singleton_append, List.append_cons]
  exact List.mem_append_left _ he

/-- A name that no container bears has no alias. -/
theorem value?_forestAliases_eq_none (hd : ((postorder nodes).map Node.name).Nodup)
    (h : ∀ n ∈ postorder nodes, n.isLeaf = false → n.name ≠ x) :
    (forestAliases nodes).value? x = none := by
  rw [forestAliases_eq]
  by_cases hx : x ∈ (postorder nodes).map Node.name
  · obtain ⟨n, hn, rfl⟩ := List.mem_map.mp hx
    cases hleaf : n.isLeaf with
    | true => exact value?_aliasesOf_of_isLeaf hd hn hleaf
    | false => exact absurd rfl (h n hn hleaf)
  · exact Flattening.value?_foldl_close_of_not_mem {} hx

/-- A name is that of a container, or has no alias. -/
theorem exists_container_or (hd : ((postorder nodes).map Node.name).Nodup) (x : String) :
    (∃ before n, Precedes nodes before n ∧ n.isLeaf = false ∧ n.name = x) ∨
      (forestAliases nodes).value? x = none := by
  by_cases hx : ∃ n ∈ postorder nodes, n.isLeaf = false ∧ n.name = x
  · obtain ⟨n, hn, hleaf, rfl⟩ := hx
    obtain ⟨before, hbefore⟩ := exists_precedes nodes hn
    exact Or.inl ⟨before, n, hbefore, hleaf, rfl⟩
  · exact Or.inr (value?_forestAliases_eq_none hd fun n hn hleaf hname =>
      hx ⟨n, hn, hleaf, hname⟩)

/-- **The redirection comes to its end**: what it gives has no alias, whatever it started from. -/
theorem value?_redirect (hd : ((postorder nodes).map Node.name).Nodup) (x : String) :
    (forestAliases nodes).value? (redirect (forestAliases nodes) x) = none := by
  rcases exists_container_or hd x with ⟨before, n, hbefore, hleaf, rfl⟩ | hnone
  · obtain ⟨e, -, hname, hend, -⟩ := hbefore.exists_redirect hd hleaf
    rw [hname, hend]
  · rw [redirect, follow_of_value?_eq_none hnone, hnone]

theorem flatten_eq_leaves (nodes : List Node) :
    flatten nodes = (leaves nodes).map (Node.redirected (forestAliases nodes)) := by
  rw [flatten_eq, leaves_eq_filter, forestAliases_eq]

theorem Node.redirected_nil (n : Node) : n.redirected [] = n := by
  have hid : redirect [] = id := rfl
  obtain ⟨_, _, _, inbound, _, _, _, _⟩ := n
  cases inbound <;> simp [redirected, hid]

/-- **A list of leaves is flat already.** -/
theorem flatten_of_isLeaf (h : ∀ n ∈ nodes, n.isLeaf = true) : flatten nodes = nodes := by
  have hpost : postorder nodes = nodes :=
    postorder_of_flat fun n hn => Node.children_of_isLeaf (h n hn)
  have haliases : forestAliases nodes = [] := by
    rw [forestAliases_eq, hpost]
    exact Flattening.aliases_foldl_close h
  rw [flatten_eq_leaves, haliases, leaves_eq_filter, hpost, List.filter_eq_self.mpr h]
  exact (List.map_congr_left fun n _ => n.redirected_nil).trans (List.map_id nodes)

theorem isLeaf_of_mem_flatten (h : n ∈ flatten nodes) : n.isLeaf = true := by
  rw [flatten_eq_leaves] at h
  obtain ⟨l, hl, rfl⟩ := List.mem_map.mp h
  exact isLeaf_of_mem_leaves (n := l) hl

/-- **Flattening is exact.** It yields the leaves of a forest in depth-first order, changed in their
operand lists alone, and a second time changes nothing. If all names are distinct, the name of a
container is sent to that of the leaf it stands for, to a name that no leaf bears if it stands for
none, and all other names stay. There is never an alias left that could have been followed. -/
theorem flatten_exact (nodes : List Node) :
    flatten nodes = (leaves nodes).map (Node.redirected (forestAliases nodes)) ∧
      flatten (flatten nodes) = flatten nodes ∧
      (((postorder nodes).map Node.name).Nodup →
        (∀ n ∈ postorder nodes, n.isLeaf = false → (∃ before, Precedes nodes before n) ∧
          ∀ before, Precedes nodes before n →
            (∀ l, n.lastLeaf? before = some l → redirect (forestAliases nodes) n.name = l.name) ∧
            (n.lastLeaf? before = none →
              ∀ l ∈ leaves nodes, redirect (forestAliases nodes) n.name ≠ l.name)) ∧
        (∀ x, (∀ n ∈ postorder nodes, n.isLeaf = false → n.name ≠ x) →
          redirect (forestAliases nodes) x = x) ∧
        ∀ x, (forestAliases nodes).value? (redirect (forestAliases nodes) x) = none) := by
  refine ⟨flatten_eq_leaves nodes, flatten_of_isLeaf fun n hn => isLeaf_of_mem_flatten hn,
    fun hd => ⟨fun n hn hleaf => ⟨exists_precedes nodes hn, fun before hbefore => ?_⟩,
      fun x hx => ?_, value?_redirect hd⟩⟩
  · obtain ⟨e, he, hname, -, hlast, hnone⟩ := hbefore.exists_redirect hd hleaf
    rw [hname]
    refine ⟨fun l hl => congrArg Node.name (hlast l hl), fun h l hl heq => ?_⟩
    -- the container that the chain ends with would be a leaf
    have hlmem : l ∈ postorder nodes := List.mem_of_mem_filter (leaves_eq_filter nodes ▸ hl)
    obtain rfl : e = l := List.inj_on_of_nodup_map hd he hlmem heq
    exact absurd (isLeaf_of_mem_leaves hl) (by simp [hnone h])
  · exact follow_of_value?_eq_none (value?_forestAliases_eq_none hd hx) _

/-- A container that starts with nothing before it, and containers that end with an empty one. -/
def layeredForest : List Node := [
  { name := "head", opType := "Sequential", children := [{ name := "void", opType := "Model" }] },
  { name := "in", opType := "InputLayer", inbound := some [] },
  { name := "body", opType := "Functional", children := [
    { name := "block", opType := "Sequential", children := [
      { name := "relu", opType := "ReLU" },
      { name := "drop", opType := "Dropout" }] },
    { name := "tail", opType := "Sequential" }] },
  { name := "sum", opType := "Add", inbound := some ["body", "tail", "head", "relu", "ghost"] }]

/-- The body and its empty tail stand for the dropout; the head stands for no leaf at all. -/
theorem flatten_layeredForest :
    ((postorder layeredForest).map Node.name).Nodup ∧
      (flatten layeredForest).map (fun n => (n.name, n.inbound)) =
        [("in", some []), ("relu", none), ("drop", none),
          ("sum", some ["drop", "drop", "void", "relu", "ghost"])] ∧
      redirect (forestAliases layeredForest) "body" = "drop" ∧
      redirect (forestAliases layeredForest) "tail" = "drop" ∧
      (∀ l ∈ leaves layeredForest, redirect (forestAliases layeredForest) "head" ≠ l.name) ∧
      redirect (forestAliases layeredForest) "ghost" = "ghost" := by
  have hd : ((postorder layeredForest).map Node.name).Nodup := by decide
  obtain ⟨hflat, -, hrest⟩ := flatten_exact layeredForest
  obtain ⟨hcontainers, hothers, -⟩ := hrest hd
  have hghost : ∀ n ∈ postorder layeredForest, n.isLeaf = false → n.name ≠ "ghost" := by decide
  -- in postorder: void, head, in, relu, drop, block, tail, body, sum
  obtain ⟨-, hhead⟩ := hcontainers _ (List.mem_of_getElem? (i := 1) rfl) rfl
  obtain ⟨-, htail⟩ := hcontainers _ (List.mem_of_getElem? (i := 6) rfl) rfl
  obtain ⟨-, hbody⟩ := hcontainers _ (List.mem_of_getElem? (i := 7) rfl) rfl
  exact ⟨hd, by rw [hflat]; decide,
    (hbody ((postorder layeredForest).take 3) ⟨(postorder layeredForest).drop 8, rfl⟩).1 _ rfl,
    (htail ((postorder layeredForest).take 6) ⟨(postorder layeredForest).drop 7, rfl⟩).1 _ rfl,
    (hhead [] ⟨(postorder layeredForest).drop 2, rfl⟩).2 rfl, hothers "ghost" hghost⟩

end Redirection

end LayerGraph
