import LayerGraph.Container
import LayerGraph.Proofs.Entries
import Mathlib.Data.List.Induction
import Mathlib.Data.List.Nodup

/-!
# Where flattening sends a reference

Flattening a forest is a walk over its nodes in *postorder*: every node comes up where its
expansion ends, after everything inside it. Taking in a node then only depends on the leaves met
so far (`LayerGraph.Flattening.close`), and the whole flattening is a fold over a list
(`LayerGraph.Flattening.expandAll_eq`).

In postorder the last child of a container stands right before it. So the chain of aliases that
starts at a container runs backwards, one place after the other, until it meets a leaf: the
reference is sent to the last leaf before the end of the container
(`LayerGraph.redirect_container`). Every link of the chain uses up an alias of its own, which is
why following as many links as there are aliases is always enough.
-/

namespace LayerGraph

/-- A node that is no grouping of others. -/
def Node.isLeaf (n : Node) : Bool := n.children.isEmpty && !isContainerOp n.opType

/-! ### Postorder -/

mutual

/-- Everything inside a node, then the node itself. -/
def Node.postorder : Node → List Node
  | ⟨name, opType, attrs, inbound, weights, children, absorbed, deleted⟩ =>
    LayerGraph.postorder children ++
      [⟨name, opType, attrs, inbound, weights, children, absorbed, deleted⟩]

/-- **All nodes of a forest**, each where its expansion ends. -/
def postorder : List Node → List Node
  | [] => []
  | n :: ns => n.postorder ++ postorder ns

end

theorem Node.postorder_eq (n : Node) : n.postorder = LayerGraph.postorder n.children ++ [n] := by
  cases n
  rfl

@[simp] theorem postorder_nil : postorder [] = [] := rfl

@[simp] theorem postorder_cons (n : Node) (ns : List Node) :
    postorder (n :: ns) = n.postorder ++ postorder ns := rfl

/-- A list of nodes without anything inside them is its own postorder. -/
theorem postorder_of_flat : ∀ {nodes : List Node}, (∀ n ∈ nodes, n.children = []) →
    postorder nodes = nodes
  | [], _ => rfl
  | n :: nodes, h => by
    obtain ⟨hn, hnodes⟩ := List.forall_mem_cons.mp h
    rw [postorder_cons, Node.postorder_eq, hn, postorder_of_flat hnodes]
    rfl

/-- A forest ends with its last root. -/
theorem getLast?_postorder (ns : List Node) : (postorder ns).getLast? = ns.getLast? := by
  induction ns with
  | nil => rfl
  | cons n ns ih =>
    rw [postorder_cons, Node.postorder_eq, List.getLast?_append, ih, List.getLast?_concat]
    cases ns with
    | nil => rfl
    | cons m ms => simp [List.getLast?_cons]

/-! ### Flattening as a fold -/

namespace Flattening

/-- Takes in a node at the end of its expansion: a leaf joins the leaves, a container becomes an
alias of its last child or, if it has none, of the leaf before it. -/
def close (s : Flattening) (n : Node) : Flattening :=
  if n.isLeaf then { s with leaves := s.leaves ++ [n] }
  else
    match n.children.getLast?.or s.leaves.getLast? with
    | some m => { s with aliases := s.aliases.set n.name m.name }
    | none => s

mutual

theorem expand_eq (s : Flattening) : ∀ n : Node, s.expand n = n.postorder.foldl close s
  | ⟨name, opType, attrs, inbound, weights, [], absorbed, deleted⟩ => by
    rw [expand, Node.postorder_eq]
    by_cases h : isContainerOp opType
    · cases hl : s.leaves.getLast? <;> simp [close, Node.isLeaf, h, hl]
    · simp [close, Node.isLeaf, h]
  | ⟨name, opType, attrs, inbound, weights, child :: children, absorbed, deleted⟩ => by
    have hlast : (child :: children).getLast? =
        some ((child :: children).getLast (List.cons_ne_nil _ _)) :=
      List.getLast?_eq_some_getLast _
    rw [expand, Node.postorder_eq, expand_eq s child, expandAll_eq _ children,
      List.foldl_append, postorder_cons, List.foldl_append]
    simp only [List.foldl_cons, List.foldl_nil, close, Node.isLeaf, List.isEmpty_cons,
      Bool.false_and, Bool.false_eq_true, if_false, hlast, Option.some_or]

/-- **Flattening a forest is a fold over its nodes in postorder.** -/
theorem expandAll_eq (s : Flattening) :
    ∀ ns : List Node, s.expandAll ns = (postorder ns).foldl close s
  | [] => rfl
  | n :: ns => by
    rw [expandAll, expand_eq s n, expandAll_eq _ ns, postorder_cons, List.foldl_append]

end

variable {s : Flattening} {n : Node} {key : String} {ns a b : List Node}

theorem leaves_foldl_close (ns : List Node) (s : Flattening) :
    (ns.foldl close s).leaves = s.leaves ++ ns.filter Node.isLeaf := by
  induction ns generalizing s with
  | nil => simp
  | cons n ns ih =>
    rw [List.foldl_cons, ih, close]
    cases hleaf : n.isLeaf with
    | true => simp [hleaf]
    | false =>
      simp only [Bool.false_eq_true, if_false, hleaf, List.filter_cons]
      split <;> rfl

/-- Leaves leave no aliases. -/
theorem aliases_foldl_close (h : ∀ n ∈ ns, n.isLeaf = true) :
    (ns.foldl close s).aliases = s.aliases := by
  induction ns generalizing s with
  | nil => rfl
  | cons n ns ih =>
    obtain ⟨hn, hns⟩ := List.forall_mem_cons.mp h
    rw [List.foldl_cons, ih hns, close, if_pos hn]

theorem value?_close_of_ne (h : n.name ≠ key) :
    (s.close n).aliases.value? key = s.aliases.value? key := by
  rw [close]
  split
  · rfl
  · split
    · exact Entries.value?_set_of_ne h
    · rfl

/-- Only containers of a name change its alias. -/
theorem value?_foldl_close_of_forall_ne (s : Flattening)
    (h : ∀ n ∈ ns, n.isLeaf = false → n.name ≠ key) :
    (ns.foldl close s).aliases.value? key = s.aliases.value? key := by
  induction ns generalizing s with
  | nil => rfl
  | cons n ns ih =>
    obtain ⟨hn, hns⟩ := List.forall_mem_cons.mp h
    rw [List.foldl_cons, ih _ hns]
    cases hleaf : n.isLeaf with
    | true => rw [close, if_pos hleaf]
    | false => exact value?_close_of_ne (hn hleaf)

theorem value?_foldl_close_of_not_mem (s : Flattening) (h : key ∉ ns.map Node.name) :
    (ns.foldl close s).aliases.value? key = s.aliases.value? key :=
  value?_foldl_close_of_forall_ne s fun _ hn _ he => h (he ▸ List.mem_map_of_mem hn)

theorem length_aliases_le_close (s : Flattening) (n : Node) :
    s.aliases.length ≤ (s.close n).aliases.length := by
  rw [close]
  split
  · exact Nat.le_refl _
  · split
    · exact Entries.length_le_length_set ..
    · exact Nat.le_refl _

theorem length_aliases_le_foldl_close (ns : List Node) (s : Flattening) :
    s.aliases.length ≤ (ns.foldl close s).aliases.length := by
  induction ns generalizing s with
  | nil => exact Nat.le_refl _
  | cons n ns ih => exact Nat.le_trans (length_aliases_le_close s n) (ih _)

end Flattening

/-! ### The aliases of a list -/

section Aliases

variable {ns a b : List Node} {n m l : Node}

/-- The aliases that taking in a list of nodes leaves behind. -/
def aliasesOf (ns : List Node) : Entries String := (ns.foldl Flattening.close {}).aliases

/-- What a container stands for when the nodes before its end are `a`. -/
def standsFor (a : List Node) (n : Node) : Option Node :=
  n.children.getLast?.or (a.filter Node.isLeaf).getLast?

/-- **The alias of a node**, in a list without repeated names: a leaf has none, a container that
of what it stands for. -/
theorem value?_aliasesOf (hd : ((a ++ n :: b).map Node.name).Nodup) :
    (aliasesOf (a ++ n :: b)).value? n.name =
      if n.isLeaf then none else (standsFor a n).map Node.name := by
  rw [List.map_append, List.map_cons, List.nodup_middle, List.nodup_cons, List.mem_append,
    not_or] at hd
  have hbefore : (aliasesOf a).value? n.name = none :=
    Flattening.value?_foldl_close_of_not_mem {} hd.1.1
  have hleaves : (a.foldl Flattening.close {}).leaves = a.filter Node.isLeaf :=
    Flattening.leaves_foldl_close a {}
  rw [aliasesOf, List.foldl_append, List.foldl_cons,
    Flattening.value?_foldl_close_of_not_mem _ hd.1.2, Flattening.close, hleaves]
  split
  · exact hbefore
  · rw [standsFor]
    split
    · next m hm =>
      rw [hm, Entries.value?_set_self]
      rfl
    · next hm =>
      rw [hm]
      exact hbefore

/-- A container that stands for something has an alias of its own. -/
theorem length_aliasesOf_concat (hd : ((a ++ [n]).map Node.name).Nodup)
    (hleaf : n.isLeaf = false) (hm : standsFor a n = some m) :
    (aliasesOf (a ++ [n])).length = (aliasesOf a).length + 1 := by
  have hleaves : (a.foldl Flattening.close {}).leaves = a.filter Node.isLeaf :=
    Flattening.leaves_foldl_close a {}
  rw [List.map_append, List.nodup_append] at hd
  have hbefore : (aliasesOf a).value? n.name = none :=
    Flattening.value?_foldl_close_of_not_mem {} fun hmem =>
      hd.2.2 n.name hmem n.name (by simp) rfl
  rw [aliasesOf, List.foldl_append, List.foldl_cons, List.foldl_nil, Flattening.close, hleaf,
    hleaves, show n.children.getLast?.or (a.filter Node.isLeaf).getLast? = some m from hm]
  exact Entries.length_set_of_value?_eq_none hbefore

theorem length_aliasesOf_le (a b : List Node) :
    (aliasesOf a).length ≤ (aliasesOf (a ++ b)).length := by
  rw [aliasesOf, aliasesOf, List.foldl_append]
  exact Flattening.length_aliases_le_foldl_close ..

end Aliases

/-! ### Chains of aliases run backwards -/

section Chain

variable {p : Option Node} {ns a b : List Node} {n m l : Node}

/-- **Every container stands right behind its last child**, where `p` is the node before the
first one. -/
def Nested : Option Node → List Node → Prop
  | _, [] => True
  | p, n :: ns => (∀ m, n.children.getLast? = some m → p = some m) ∧ Nested (some n) ns

theorem nested_append : Nested p (a ++ b) ↔ Nested p a ∧ Nested (a.getLast?.or p) b := by
  induction a generalizing p with
  | nil => simp [Nested]
  | cons n ns ih =>
    have hlast : ((n :: ns).getLast?.or p) = ns.getLast?.or (some n) := by
      cases ns <;> simp [List.getLast?_cons]
    rw [List.cons_append, Nested, Nested, ih, hlast, and_assoc]

mutual

theorem nested_node (p : Option Node) : ∀ n : Node, Nested p n.postorder
  | ⟨name, opType, attrs, inbound, weights, children, absorbed, deleted⟩ => by
    rw [Node.postorder_eq, nested_append]
    refine ⟨nested_postorder p children, fun m hm => ?_, trivial⟩
    rw [getLast?_postorder, show children.getLast? = some m from hm, Option.some_or]

/-- In postorder every container stands right behind its last child. -/
theorem nested_postorder (p : Option Node) : ∀ ns : List Node, Nested p (postorder ns)
  | [] => trivial
  | n :: ns => by
    rw [postorder_cons, nested_append]
    exact ⟨nested_node p n, nested_postorder _ ns⟩

end

theorem value?_aliasesOf_of_isLeaf (hd : (ns.map Node.name).Nodup) (hn : n ∈ ns)
    (hleaf : n.isLeaf = true) : (aliasesOf ns).value? n.name = none := by
  obtain ⟨a, b, rfl⟩ := List.append_of_mem hn
  rw [value?_aliasesOf hd, if_pos hleaf]

theorem follow_of_value?_eq_none {aliases : Entries String} {x : String}
    (h : aliases.value? x = none) (k : Nat) : follow aliases k x = x := by
  cases k with
  | zero => rfl
  | succ k => rw [follow, h]

/-- A leaf is where a chain of aliases ends. -/
theorem follow_of_isLeaf (hd : (ns.map Node.name).Nodup) (hn : n ∈ ns) (hleaf : n.isLeaf = true)
    (k : Nat) : follow (aliasesOf ns) k n.name = n.name :=
  follow_of_value?_eq_none (value?_aliasesOf_of_isLeaf hd hn hleaf) k

/-- A container leads on to what it stands for. -/
theorem follow_of_standsFor (hd : ((a ++ n :: b).map Node.name).Nodup) (hleaf : n.isLeaf = false)
    (ht : standsFor a n = some m) (k : Nat) :
    follow (aliasesOf (a ++ n :: b)) (k + 1) n.name = follow (aliasesOf (a ++ n :: b)) k m.name := by
  have halias := value?_aliasesOf hd
  rw [hleaf, ht] at halias
  rw [follow, halias]
  rfl

/-- **Following the aliases from the end of a prefix** leads to a node of the prefix that has no
alias, within as many links as the prefix has aliases: to its last leaf or, if it has no leaf, to a
container. -/
theorem exists_follow_getLast (hd : ((a ++ b).map Node.name).Nodup) (hn : Nested none (a ++ b))
    {k : Nat} (hm : a.getLast? = some m) (hk : (aliasesOf a).length ≤ k) :
    ∃ e ∈ a, follow (aliasesOf (a ++ b)) k m.name = e.name ∧
      (aliasesOf (a ++ b)).value? e.name = none ∧
      (∀ l, (a.filter Node.isLeaf).getLast? = some l → e = l) ∧
      ((a.filter Node.isLeaf).getLast? = none → e.isLeaf = false) := by
  -- by induction on the prefix from its end, in a list that stays the same
  generalize hns : a ++ b = ns at hd hn
  induction a using List.reverseRecOn generalizing b k m with
  | nil => cases hm
  | append_singleton a n ih =>
    rw [List.getLast?_concat] at hm
    obtain rfl := Option.some.inj hm
    have hns' : a ++ n :: b = ns := by simpa using hns
    have halias := value?_aliasesOf (hns'.symm ▸ hd)
    rw [hns'] at halias
    cases hleaf : n.isLeaf with
    | true =>
      have hmem : n ∈ ns := hns' ▸ List.mem_append_cons_self
      rw [if_pos hleaf] at halias
      rw [List.filter_append, List.filter_cons_of_pos hleaf, List.filter_nil,
        List.getLast?_concat]
      exact ⟨n, by simp, follow_of_isLeaf hd hmem hleaf k, halias,
        fun l hl => Option.some.inj hl, nofun⟩
    | false =>
      rw [hleaf] at halias
      rw [List.filter_append, List.filter_cons_of_neg (by simp [hleaf]), List.filter_nil,
        List.append_nil]
      cases ht : standsFor a n with
      | none =>
        -- an empty container with no leaf before it stands for nothing
        rw [ht] at halias
        obtain ⟨-, hnone⟩ := Option.or_eq_none_iff.mp ht
        exact ⟨n, by simp, follow_of_value?_eq_none halias k, halias,
          fun l hl => absurd (hl.symm.trans hnone) nofun, fun _ => hleaf⟩
      | some t =>
        -- the container has an alias, and following it leads back into the prefix before it
        have hd' : ((a ++ [n]).map Node.name).Nodup := by
          rw [← hns', List.append_cons, List.map_append] at hd
          exact (List.nodup_append.mp hd).1
        rw [length_aliasesOf_concat hd' hleaf ht] at hk
        obtain ⟨k, rfl⟩ : ∃ j, k = j + 1 := ⟨k - 1, by omega⟩
        have hstep := follow_of_standsFor (hns'.symm ▸ hd) hleaf ht k
        rw [hns'] at hstep
        rw [hstep]
        cases hc : n.children.getLast? with
        | none =>
          rw [standsFor, hc, Option.none_or] at ht
          obtain ⟨hmem, htleaf⟩ := List.mem_filter.mp (List.mem_of_getLast? ht)
          have htns : t ∈ ns := hns' ▸ List.mem_append_left _ hmem
          exact ⟨t, List.mem_append_left _ hmem, follow_of_isLeaf hd htns htleaf k,
            value?_aliasesOf_of_isLeaf hd htns htleaf,
            fun l hl => Option.some.inj (ht.symm.trans hl),
            fun hnone => absurd (ht.symm.trans hnone) nofun⟩
        | some c =>
          rw [standsFor, hc, Option.some_or] at ht
          obtain rfl := Option.some.inj ht
          have hlast : a.getLast? = some c := by
            rw [← hns', nested_append] at hn
            simpa using hn.2.1 c hc
          have hlen : (aliasesOf a).length ≤ k := Nat.le_of_succ_le_succ hk
          obtain ⟨e, he, hrest⟩ := ih hlast hlen hns'
          exact ⟨e, List.mem_append_left _ he, hrest⟩

/-- **A reference to a leaf is not redirected.** -/
theorem redirect_leaf (hd : (ns.map Node.name).Nodup) (hn : n ∈ ns) (hleaf : n.isLeaf = true) :
    redirect (aliasesOf ns) n.name = n.name :=
  follow_of_isLeaf hd hn hleaf _

/-- **A reference to a container ends where no alias is left**, within the links that are followed:
at the last leaf before the end of the container or, if there is none, at a container. -/
theorem exists_redirect_container (hd : ((a ++ n :: b).map Node.name).Nodup)
    (hn : Nested none (a ++ n :: b)) (hleaf : n.isLeaf = false) :
    ∃ e ∈ a ++ [n], redirect (aliasesOf (a ++ n :: b)) n.name = e.name ∧
      (aliasesOf (a ++ n :: b)).value? e.name = none ∧
      (∀ l, (a.filter Node.isLeaf).getLast? = some l → e = l) ∧
      ((a.filter Node.isLeaf).getLast? = none → e.isLeaf = false) := by
  have hfilter : (a ++ [n]).filter Node.isLeaf = a.filter Node.isLeaf := by simp [hleaf]
  have hsplit : a ++ n :: b = (a ++ [n]) ++ b := List.append_cons ..
  rw [hsplit] at hd hn ⊢
  have hend := exists_follow_getLast hd hn List.getLast?_concat
    (Nat.le_succ_of_le (length_aliasesOf_le (a ++ [n]) b))
  rwa [hfilter] at hend

/-- **A reference to a container is sent to the last leaf before its end**, at any depth and
whether or not the leaf is inside. -/
theorem redirect_container (hd : ((a ++ n :: b).map Node.name).Nodup)
    (hn : Nested none (a ++ n :: b)) (hleaf : n.isLeaf = false)
    (hl : (a.filter Node.isLeaf).getLast? = some l) :
    redirect (aliasesOf (a ++ n :: b)) n.name = l.name := by
  obtain ⟨e, -, hname, -, hlast, -⟩ := exists_redirect_container hd hn hleaf
  rw [hname, hlast l hl]

end Chain

/-! ### The flattened forest -/

/-- A leaf of a forest, with its references redirected. -/
def Node.redirected (aliases : Entries String) (n : Node) : Node :=
  { n with inbound := n.inbound.map (List.map (redirect aliases)) }

theorem Node.redirected_inputs (aliases : Entries String) (n : Node) :
    (n.redirected aliases).inputs = n.inputs.map (redirect aliases) := by
  rw [inputs, inputs, redirected]
  cases n.inbound <;> rfl

/-- **Flattening yields the leaves in depth-first order**, with their references redirected. -/
theorem flatten_eq (nodes : List Node) :
    flatten nodes = ((postorder nodes).filter Node.isLeaf).map
      (Node.redirected (aliasesOf (postorder nodes))) := by
  have hleaves := Flattening.leaves_foldl_close (postorder nodes) {}
  rw [flatten]
  simp only [Flattening.expandAll_eq, hleaves]
  rfl

/-- If no name of a forest is repeated, none is repeated after flattening. -/
theorem nodup_names_flatten {nodes : List Node} (hd : ((postorder nodes).map Node.name).Nodup) :
    ((flatten nodes).map Node.name).Nodup := by
  rw [flatten_eq, List.map_map]
  exact hd.sublist (List.filter_sublist.map _)

end LayerGraph
