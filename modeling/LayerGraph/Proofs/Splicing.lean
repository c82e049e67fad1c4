import LayerGraph.Proofs.Live
import Mathlib.Data.List.Sort

/-!
# Splicing as a substitution

All wires are rewritten by splices. What a splice does can be said of one list of operands at a
time, slot by slot (`LayerGraph.Substituted`), and this settles the graph: the live nodes that have
a list of operands get the substituted one, and nothing else changes (`LayerGraph.Node.Spliced`).

It does not matter whether all nodes are gone through or only those that refer to the name. The
users are known before the first of them is touched, each has one visit, and a visit touches one
node; so when a user is visited it still is what it was when the users were listed
(`LayerGraph.Graph.node?_rewireAt`).

Two splices, one after the other, can change places if neither brings in the name that the other
one removes. If the first brings in the name that the second removes, the second is done in what the
first brings in as well; this is the one law behind it (`LayerGraph.substitute_substitute`). There
is no such law if the second brings in the name that the first removes: these references come too
late for the first splice, and would be there in time for it if it came second.
-/

namespace LayerGraph

variable {r a b : String} {names others xs ys : List String}

/-! ### Slot by slot -/

/-- **A list with a name substituted**, slot by slot: each reference to the name gives way to the
names, in its place, and every other entry stays. -/
inductive Substituted (r : String) (names : List String) : List String → List String → Prop
  | nil : Substituted r names [] []
  | reference {xs ys : List String} (rest : Substituted r names xs ys) :
      Substituted r names (r :: xs) (names ++ ys)
  | other {x : String} {xs ys : List String} (ne : x ≠ r) (rest : Substituted r names xs ys) :
      Substituted r names (x :: xs) (x :: ys)

theorem substitute_cons (r : String) (names : List String) (x : String) (xs : List String) :
    substitute r names (x :: xs) = (if x = r then names else [x]) ++ substitute r names xs :=
  List.flatMap_cons

/-- The substituted list is what `substitute` makes. -/
theorem substituted_iff : Substituted r names xs ys ↔ ys = substitute r names xs := by
  constructor
  · intro h
    induction h with
    | nil => rfl
    | reference _ ih => rw [substitute_cons, if_pos rfl, ih]
    | other ne _ ih => rw [substitute_cons, if_neg ne, ih, List.singleton_append]
  · rintro rfl
    induction xs with
    | nil => exact .nil
    | cons x xs ih =>
      rw [substitute_cons]
      split
      · next hx =>
        subst hx
        exact .reference ih
      · next hx => exact .other hx ih

/-! ### Two substitutions -/

@[simp] theorem substitute_self (r : String) (xs : List String) : substitute r [r] xs = xs := by
  rw [substitute_singleton]
  refine (List.map_congr_left fun x _ => ?_).trans (List.map_id xs)
  split
  · next hx => exact hx.symm
  · rfl

/-- **Substituting one name after another.** If the names that come second do not hold the first
name, the second name can as well be substituted first, in the names for the first one too. -/
theorem substitute_substitute (hab : a ≠ b) (ha : a ∉ others) (xs : List String) :
    substitute b others (substitute a names xs) =
      substitute a (substitute b others names) (substitute b others xs) := by
  have hslot : ∀ x, substitute b others (if x = a then names else [x]) =
      substitute a (substitute b others names) (if x = b then others else [x]) := by
    intro x
    by_cases hxa : x = a
    · have hxb : x ≠ b := hxa ▸ hab
      rw [if_pos hxa, if_neg hxb, substitute_cons, if_pos hxa]
      exact (List.append_nil _).symm
    · by_cases hxb : x = b
      · rw [if_neg hxa, if_pos hxb, substitute_of_not_mem ha, substitute_cons, if_pos hxb]
        exact List.append_nil _
      · have hself : ∀ c : String, x ≠ c → ∀ ns, substitute c ns [x] = [x] := fun c hc ns =>
          substitute_of_not_mem fun h => hc (List.mem_singleton.mp h).symm
        rw [if_neg hxa, if_neg hxb, hself b hxb, hself a hxa]
  calc substitute b others (substitute a names xs)
      = xs.flatMap fun x => substitute b others (if x = a then names else [x]) :=
        List.flatMap_assoc
    _ = xs.flatMap fun x => substitute a (substitute b others names)
          (if x = b then others else [x]) := List.flatMap_congr fun x _ => hslot x
    _ = substitute a (substitute b others names) (substitute b others xs) :=
        List.flatMap_assoc.symm

/-! ### Nodes -/

namespace Node

/-- **A node after a splice.** Deleted nodes, and nodes whose operands are left to the order of
declaration, stay as they are; of a live node with a list of operands, this list changes. -/
inductive Spliced (r : String) (names : List String) : Node → Node → Prop
  | deleted {n : Node} (deleted : n.deleted = true) : Spliced r names n n
  | unlisted {n : Node} (unlisted : n.inbound = none) : Spliced r names n n
  | listed {n : Node} {xs ys : List String} (live : n.deleted = false)
      (listed : n.inbound = some xs) (slots : Substituted r names xs ys) :
      Spliced r names n { n with inbound := some ys }

theorem rewire_of_unlisted {n : Node} (h : n.inbound = none) : n.rewire r names = n :=
  rewire_of_not_mem (by simp [inputs, h])

theorem rewire_of_listed {n : Node} (h : n.inbound = some xs) :
    n.rewire r names = { n with inbound := some (substitute r names xs) } := by
  rw [rewire, h, Option.map_some]

theorem spliced_iff {n m : Node} :
    Spliced r names n m ↔ m = if n.deleted then n else n.rewire r names := by
  constructor
  · rintro (hd | hn | ⟨hd, hn, hslots⟩)
    · rw [if_pos hd]
    · rw [rewire_of_unlisted hn, ite_self]
    · rw [if_neg (by simp [hd]), rewire_of_listed hn, substituted_iff.mp hslots]
  · rintro rfl
    cases hd : n.deleted with
    | true => exact .deleted hd
    | false =>
      rw [if_neg Bool.false_ne_true]
      cases hn : n.inbound with
      | none => exact (rewire_of_unlisted hn).symm ▸ .unlisted hn
      | some xs => exact rewire_of_listed hn ▸ .listed hd hn (substituted_iff.mpr rfl)

theorem rewire_self (n : Node) (r : String) : n.rewire r [r] = n := by
  have hid : substitute r [r] = id := funext (substitute_self r)
  exact rewire_eq_self (by rw [hid, Option.map_id, id_eq])

theorem rewire_rewire (n : Node) (hab : a ≠ b) (ha : a ∉ others) :
    (n.rewire a names).rewire b others =
      (n.rewire b others).rewire a (substitute b others names) := by
  simp only [rewire, Option.map_map]
  exact congrArg (fun f => { n with inbound := n.inbound.map f })
    (funext (substitute_substitute hab ha))

end Node

/-! ### Graphs -/

namespace Graph

variable {g h : Graph} {i : Nat} {ids : List Nat} {q : String}

theorem ext_node? (hnodes : ∀ i, g.node? i = h.node? i) : g = h :=
  congrArg Graph.mk (List.ext_getElem? hnodes)

/-- **A splice is exact**: there is one graph in which all nodes are spliced. -/
theorem forall₂_spliced_iff :
    List.Forall₂ (Node.Spliced r names) g.nodes h.nodes ↔ h = g.splice r names := by
  have hmap : List.Forall₂ (Node.Spliced r names) g.nodes h.nodes ↔
      g.nodes.map (fun n => if n.deleted then n else n.rewire r names) = h.nodes := by
    rw [← List.forall₂_eq_eq_eq, List.forall₂_map_left_iff]
    exact ⟨fun h => h.imp fun _ _ hm => (Node.spliced_iff.mp hm).symm,
      fun h => h.imp fun _ _ hm => Node.spliced_iff.mpr hm.symm⟩
  rw [hmap, eq_comm]
  exact ⟨fun hnodes => congrArg Graph.mk hnodes, fun hgraph => congrArg Graph.nodes hgraph⟩

/-- The nodes at some positions are rewired, one after the other. -/
def rewireAt (g : Graph) (r : String) (names : List String) (ids : List Nat) : Graph :=
  ids.foldl (fun h id => h.modify id fun n => n.rewire r names) g

/-- Positions that are different have one visit each, and it finds the node as it was at first. -/
theorem node?_rewireAt (hids : ids.Nodup) : (g.rewireAt r names ids).node? i =
    (g.node? i).map fun n => if i ∈ ids then n.rewire r names else n := by
  induction ids generalizing g with
  | nil => simp [rewireAt]
  | cons id ids ih =>
    obtain ⟨hid, hids⟩ := List.nodup_cons.mp hids
    rw [rewireAt, List.foldl_cons, ← rewireAt, ih hids, node?_modify, Option.map_map]
    refine congrArg (Option.map · (g.node? i)) (funext fun n => ?_)
    by_cases h : i = id
    · subst h
      simp [hid]
    · simp [h]

/-- **Visiting the users is enough**, as they are before the first visit. -/
theorem rewireAt_users (g : Graph) (r : String) (names : List String) :
    g.rewireAt r names (g.users r) = g.splice r names := by
  have hnodup : (g.users r).Nodup := (pairwise_idsWhere _).imp Nat.ne_of_lt
  refine ext_node? fun i => ?_
  rw [node?_rewireAt hnodup, node?_splice]
  refine Option.map_congr fun n hn => ?_
  cases hd : n.deleted with
  | true =>
    have hi : i ∉ g.users r := by
      intro h
      obtain ⟨m, hm, -⟩ := mem_users.mp h
      obtain rfl := Option.some.inj (hn.symm.trans hm.1)
      exact Bool.false_ne_true (hm.2.symm.trans hd)
    rw [if_neg hi, if_pos rfl]
  | false =>
    rw [if_neg Bool.false_ne_true]
    split
    · rfl
    · next hi =>
      exact (Node.rewire_of_not_mem fun hr => hi (mem_users.mpr ⟨n, ⟨hn, hd⟩, hr⟩)).symm

/-! ### Users -/

theorem mem_users_splice : i ∈ (g.splice r names).users q ↔
    (i ∈ g.users q ∧ q ≠ r) ∨ (i ∈ g.users r ∧ q ∈ names) := by
  simp only [mem_users, liveAt_splice]
  constructor
  · rintro ⟨-, ⟨m, hm, rfl⟩, hq⟩
    rw [Node.rewire_inputs, mem_substitute] at hq
    exact hq.imp (fun h => ⟨⟨m, hm, h.1⟩, h.2⟩) fun h => ⟨⟨m, hm, h.1⟩, h.2⟩
  · rintro (⟨⟨m, hm, hq⟩, hne⟩ | ⟨⟨m, hm, hr⟩, hq⟩)
    · exact ⟨_, ⟨m, hm, rfl⟩, by rw [Node.rewire_inputs, mem_substitute]; exact .inl ⟨hq, hne⟩⟩
    · exact ⟨_, ⟨m, hm, rfl⟩, by rw [Node.rewire_inputs, mem_substitute]; exact .inr ⟨hr, hq⟩⟩

/-- **The users of another name** are those that it had, and those of the name that is removed if it
is among the names that are brought in. -/
theorem users_splice (hq : q ≠ r) : (g.splice r names).users q =
    g.liveIds.filter fun i => i ∈ g.users q ∨ (q ∈ names ∧ i ∈ g.users r) := by
  have hsorted : ((g.splice r names).users q).Pairwise (· < ·) := pairwise_idsWhere _
  refine hsorted.eq_of_mem_iff (pairwise_liveIds.filter _) fun i => ?_
  have hlive : ∀ {x}, i ∈ g.users x → i ∈ g.liveIds := fun h =>
    mem_liveIds.mpr ((mem_users.mp h).imp fun _ hn => hn.1)
  rw [mem_users_splice, List.mem_filter, decide_eq_true_eq]
  constructor
  · rintro (⟨hi, -⟩ | ⟨hi, hmem⟩)
    · exact ⟨hlive hi, .inl hi⟩
    · exact ⟨hlive hi, .inr ⟨hmem, hi⟩⟩
  · rintro ⟨-, hi | ⟨hmem, hi⟩⟩
    · exact .inl ⟨hi, hq⟩
    · exact .inr ⟨hi, hmem⟩

/-! ### Splices in a row -/

theorem splice_self (g : Graph) (r : String) : g.splice r [r] = g := by
  refine (forall₂_spliced_iff.mp (List.forall₂_same.mpr fun n _ => ?_)).symm
  rw [Node.spliced_iff, Node.rewire_self, ite_self]

/-- **One splice after another.** -/
theorem splice_splice (hab : a ≠ b) (ha : a ∉ others) :
    (g.splice a names).splice b others =
      (g.splice b others).splice a (substitute b others names) := by
  refine ext_node? fun i => ?_
  simp only [node?_splice, Option.map_map]
  refine congrArg (Option.map · (g.node? i)) (funext fun n => ?_)
  cases hd : n.deleted with
  | true => simp [hd]
  | false => simp [hd, n.rewire_rewire hab ha]

/-- **A splice is a substitution.** In every live node that has a list of operands the name gives
way to the names, slot by slot, and nothing else changes; it is enough to go through those that were
users of the name before. If the name is not among the names, no live node refers to it any more; if
it is the only one, nothing has changed. Any other name keeps its users, and if it is among the
names it gains those of the name, and no more. Of two splices either may come first if neither
brings in what the other removes; if the first brings in what the second removes, the second has to
be done in the names of the first as well. -/
theorem splice_substitutes (g : Graph) (r : String) (names : List String) :
    (∀ h : Graph, List.Forall₂ (Node.Spliced r names) g.nodes h.nodes ↔ h = g.splice r names) ∧
    g.rewireAt r names (g.users r) = g.splice r names ∧
    (r ∉ names → ∀ n ∈ (g.splice r names).live, r ∉ n.inputs) ∧
    g.splice r [r] = g ∧
    (∀ q ≠ r, (g.splice r names).users q =
      g.liveIds.filter fun i => i ∈ g.users q ∨ (q ∈ names ∧ i ∈ g.users r)) ∧
    ∀ b others, b ≠ r → r ∉ others →
      (b ∉ names → (g.splice r names).splice b others = (g.splice b others).splice r names) ∧
      ∀ names', Substituted b others names names' →
        (g.splice r names).splice b others = (g.splice b others).splice r names' := by
  refine ⟨fun h => forall₂_spliced_iff, g.rewireAt_users r names, fun hr n hn hmem => ?_,
    g.splice_self r, fun q hq => users_splice hq, fun b others hb hr => ⟨fun hnames => ?_, ?_⟩⟩
  · obtain ⟨i, hi⟩ := mem_live.mp hn
    rcases mem_users_splice.mp (mem_users.mpr ⟨n, hi, hmem⟩) with ⟨-, hne⟩ | ⟨-, hmem⟩
    · exact hne rfl
    · exact hr hmem
  · rw [splice_splice hb.symm hr, substitute_of_not_mem hnames]
  · intro names' hnames'
    rw [splice_splice hb.symm hr, substituted_iff.mp hnames']

/-- Three nodes refer to `d`: one twice, one between two other references, and one that is deleted.
The last node leaves its operands to the order of declaration. -/
def doubledNames : Graph := ⟨[
  { name := "a", opType := "Input", inbound := some [] },
  { name := "d", opType := "Dropout", inbound := some ["a"] },
  { name := "e", opType := "Add", inbound := some ["d", "a", "d"] },
  { name := "f", opType := "Dropout", inbound := some ["d"], deleted := true },
  { name := "g", opType := "Concatenate", inbound := some ["e", "d", "e"] },
  { name := "h", opType := "ReLU" }]⟩

/-- The name gives way to two others. One of them gains users, and another splice removes the
other one again, or removes a name that has nothing to do with it. -/
theorem splice_doubledNames :
    (doubledNames.splice "d" ["a", "c"]).nodes.map Node.inbound =
        [some [], some ["a"], some ["a", "c", "a", "a", "c"], some ["d"], some ["e", "a", "c", "e"],
          none] ∧
      (∀ n ∈ (doubledNames.splice "d" ["a", "c"]).live, "d" ∉ n.inputs) ∧
      doubledNames.users "a" = [1, 2] ∧
      (doubledNames.splice "d" ["a", "c"]).users "a" = [1, 2, 4] ∧
      (doubledNames.splice "d" ["a", "c"]).splice "e" [] =
        (doubledNames.splice "e" []).splice "d" ["a", "c"] ∧
      (doubledNames.splice "d" ["a", "c"]).splice "c" ["b", "b"] =
        (doubledNames.splice "c" ["b", "b"]).splice "d" ["a", "b", "b"] := by
  obtain ⟨-, -, hgone, -, husers, hrow⟩ := splice_substitutes doubledNames "d" ["a", "c"]
  have hinner : Substituted "c" ["b", "b"] ["a", "c"] ["a", "b", "b"] :=
    .other (by decide) (.reference .nil)
  refine ⟨by decide, hgone (by decide), by decide, ?_, ?_, ?_⟩
  · rw [husers "a" (by decide)]
    decide
  · exact (hrow "e" [] (by decide) (by decide)).1 (by decide)
  · exact (hrow "c" ["b", "b"] (by decide) (by decide)).2 _ hinner

end Graph

end LayerGraph
