import LayerGraph.Graph
import Mathlib.Data.List.Nodup

/-!
# Live nodes and what a rewriting does to them

Every rewriting of a graph ends in the same way: a live node is *retired*, that is, all
references to its name become some other names and the node is marked as deleted
(`LayerGraph.Graph.retire`). Before that, another node may have been *touched* in a way
that leaves its name, its operands and its mark alone. The lemmas of this file say what
these two steps do to the nodes that are there, so that nothing after it has to look at
the lists behind a graph.

A node that is there is written `LayerGraph.Graph.LiveAt g i n`: the node at position `i`
of `g` is `n`, and it is not deleted. What a node says of itself, apart from its wiring and
from what became of it in a fusion, is its *bare* form (`LayerGraph.Node.bare`).
-/

namespace LayerGraph

/-! ### Names and positions -/

theorem getElem?_of_lastPosition? {name : String} :
    ∀ {xs : List String} {i : Nat}, lastPosition? name xs = some i → xs[i]? = some name
  | [], _, h => by simp [lastPosition?] at h
  | x :: xs, i, h => by
    rw [lastPosition?] at h
    split at h
    · next j hj =>
      obtain rfl := Option.some.inj h
      simpa using getElem?_of_lastPosition? hj
    · split at h
      · next hx =>
        obtain rfl := Option.some.inj h
        simp [hx]
      · cases h

theorem lastPosition?_isSome_of_mem {name : String} :
    ∀ {xs : List String}, name ∈ xs → (lastPosition? name xs).isSome
  | x :: xs, h => by
    rw [lastPosition?]
    split
    · rfl
    · next hnone =>
      rcases List.mem_cons.mp h with rfl | hmem
      · simp
      · exact absurd (lastPosition?_isSome_of_mem hmem) (by simp [hnone])

/-- In a list without repetitions the last position of a name is its only one. -/
theorem lastPosition?_eq_some_iff {xs : List String} (h : xs.Nodup) {name : String} {i : Nat} :
    lastPosition? name xs = some i ↔ xs[i]? = some name := by
  refine ⟨getElem?_of_lastPosition?, fun hi => ?_⟩
  obtain ⟨j, hj⟩ := Option.isSome_iff_exists.mp
    (lastPosition?_isSome_of_mem (List.mem_of_getElem? hi))
  obtain ⟨hlt, -⟩ := List.getElem?_eq_some_iff.mp hi
  -- both positions bear the name, so they are the same
  rw [hj, (List.getElem?_inj hlt h).mp (hi.trans (getElem?_of_lastPosition? hj).symm)]

/-- The elements of a prefix are those at the positions inside it. -/
theorem mem_take_iff {α : Type} {l : List α} {k : Nat} {a : α} :
    a ∈ l.take k ↔ ∃ j, j < k ∧ l[j]? = some a := by
  rw [List.mem_iff_getElem?]
  constructor
  · rintro ⟨j, hj⟩
    rw [List.getElem?_take] at hj
    split at hj
    · next hlt => exact ⟨j, hlt, hj⟩
    · cases hj
  · rintro ⟨j, hlt, hj⟩
    exact ⟨j, (List.getElem?_take_of_lt hlt).trans hj⟩

/-- A list comes apart at each of its positions. -/
theorem take_append_cons_drop {α : Type} {l : List α} {i : Nat} {a : α} (h : l[i]? = some a) :
    l.take i ++ a :: l.drop (i + 1) = l := by
  obtain ⟨hi, rfl⟩ := List.getElem?_eq_some_iff.mp h
  rw [← List.drop_eq_getElem_cons hi, List.take_append_drop]

/-- The place in a list of an element of a filtered list. -/
theorem exists_getElem?_of_filter {α : Type} {q : α → Bool} :
    ∀ {l : List α} {i : Nat} {a : α}, (l.filter q)[i]? = some a →
      ∃ p, l[p]? = some a ∧ q a = true ∧ (l.take p).filter q = (l.filter q).take i
  | b :: l, i, a, h => by
    cases hb : q b with
    | true =>
      rw [List.filter_cons_of_pos hb] at h ⊢
      cases i with
      | zero =>
        obtain rfl : b = a := by simpa using h
        exact ⟨0, rfl, hb, rfl⟩
      | succ i =>
        obtain ⟨p, hp, hq, htake⟩ := exists_getElem?_of_filter (l := l) (by simpa using h)
        exact ⟨p + 1, hp, hq, by simp [hb, htake]⟩
    | false =>
      have hneg : ¬ q b = true := by simp [hb]
      rw [List.filter_cons_of_neg hneg] at h ⊢
      obtain ⟨p, hp, hq, htake⟩ := exists_getElem?_of_filter (l := l) h
      exact ⟨p + 1, hp, hq, by simp [hb, htake]⟩

/-! ### Substituting names -/

theorem mem_substitute {removed x : String} {names xs : List String} :
    x ∈ substitute removed names xs ↔ (x ∈ xs ∧ x ≠ removed) ∨ (removed ∈ xs ∧ x ∈ names) := by
  simp only [substitute, List.mem_flatMap]
  constructor
  · rintro ⟨y, hy, hx⟩
    split at hx
    · next h => exact Or.inr ⟨h ▸ hy, hx⟩
    · next h =>
      obtain rfl := List.mem_singleton.mp hx
      exact Or.inl ⟨hy, h⟩
  · rintro (⟨hx, hne⟩ | ⟨hr, hx⟩)
    · exact ⟨x, hx, by simp [hne]⟩
    · exact ⟨removed, hr, by simp [hx]⟩

/-- Substituting one name for another keeps the slots apart. -/
theorem substitute_singleton (removed name : String) (xs : List String) :
    substitute removed [name] xs = xs.map fun x => if x = removed then name else x := by
  rw [substitute, List.map_eq_flatMap]
  congr 1
  funext x
  split <;> rfl

theorem substitute_of_not_mem {removed : String} {names xs : List String} (h : removed ∉ xs) :
    substitute removed names xs = xs := by
  induction xs with
  | nil => rfl
  | cons x xs ih =>
    have hx : x ≠ removed := fun he => h (by simp [he])
    have hxs : removed ∉ xs := fun hm => h (List.mem_cons_of_mem _ hm)
    rw [substitute, List.flatMap_cons, if_neg hx]
    exact congrArg (x :: ·) (ih hxs)

namespace Node

/-- **What a node says of itself**: without its wiring, what it has absorbed and whether
it is still there. -/
def bare (n : Node) : Node := { n with inbound := none, absorbed := {}, deleted := false }

/-- The node with a name substituted among its operands. -/
def rewire (n : Node) (removed : String) (names : List String) : Node :=
  { n with inbound := n.inbound.map (substitute removed names) }

@[simp] theorem rewire_name (n : Node) (r : String) (names : List String) :
    (n.rewire r names).name = n.name := rfl

@[simp] theorem rewire_opType (n : Node) (r : String) (names : List String) :
    (n.rewire r names).opType = n.opType := rfl

@[simp] theorem rewire_absorbed (n : Node) (r : String) (names : List String) :
    (n.rewire r names).absorbed = n.absorbed := rfl

@[simp] theorem rewire_deleted (n : Node) (r : String) (names : List String) :
    (n.rewire r names).deleted = n.deleted := rfl

@[simp] theorem rewire_bare (n : Node) (r : String) (names : List String) :
    (n.rewire r names).bare = n.bare := rfl

@[simp] theorem rewire_inputs (n : Node) (r : String) (names : List String) :
    (n.rewire r names).inputs = substitute r names n.inputs := by
  rw [inputs, inputs, rewire]
  cases n.inbound <;> rfl

/-- A node whose operands stay the same is not rewired. -/
theorem rewire_eq_self {n : Node} {r : String} {names : List String}
    (h : n.inbound.map (substitute r names) = n.inbound) : n.rewire r names = n := by
  rw [rewire, h]
  cases n
  rfl

theorem rewire_of_not_mem {n : Node} {r : String} {names : List String} (h : r ∉ n.inputs) :
    n.rewire r names = n := by
  refine rewire_eq_self ?_
  rw [inputs] at h
  cases hin : n.inbound with
  | none => rfl
  | some xs =>
    rw [hin] at h
    exact congrArg some (substitute_of_not_mem h)

end Node

namespace Graph

variable {g : Graph} {i j id : Nat} {n m : Node}

/-- The node at a position, which is still there. -/
def LiveAt (g : Graph) (i : Nat) (n : Node) : Prop := g.node? i = some n ∧ n.deleted = false

/-- **No name is borne twice**, not even by deleted nodes. -/
def Distinct (g : Graph) : Prop := (g.nodes.map Node.name).Nodup

theorem LiveAt.unique (h : g.LiveAt i n) (h' : g.LiveAt i m) : n = m :=
  Option.some.inj (h.1.symm.trans h'.1)

/-- There is a live node at a position, or there is none. -/
theorem exists_liveAt_or (g : Graph) (i : Nat) : (∃ n, g.LiveAt i n) ∨ ∀ n, ¬ g.LiveAt i n :=
  (Classical.em _).imp_right not_exists.mp

theorem mem_live : n ∈ g.live ↔ ∃ i, g.LiveAt i n := by
  rw [live, List.mem_filter, List.mem_iff_getElem?]
  simp only [LiveAt, node?, Bool.not_eq_true', exists_and_right]

theorem mem_idsWhere {p : Node → Bool} : i ∈ g.idsWhere p ↔ ∃ n, g.node? i = some n ∧ p n := by
  simp only [idsWhere, List.mem_map, List.mem_filter, Prod.exists, List.mem_zipIdx_iff_getElem?]
  constructor
  · rintro ⟨n, j, ⟨hn, hp⟩, rfl⟩
    exact ⟨n, hn, hp⟩
  · rintro ⟨n, hn, hp⟩
    exact ⟨n, i, ⟨hn, hp⟩, rfl⟩

theorem length_idsWhere (g : Graph) (p : Node → Bool) :
    (g.idsWhere p).length = g.nodes.countP p := by
  rw [idsWhere, List.length_map, ← List.countP_eq_length_filter]
  conv_rhs => rw [← List.zipIdx_map_fst 0 g.nodes, List.countP_map]
  rfl

theorem mem_liveIds : i ∈ g.liveIds ↔ ∃ n, g.LiveAt i n := by
  simp only [liveIds, mem_idsWhere, LiveAt, Bool.not_eq_true']

theorem mem_users {name : String} :
    i ∈ g.users name ↔ ∃ n, g.LiveAt i n ∧ name ∈ n.inputs := by
  simp only [users, mem_idsWhere, LiveAt, Bool.and_eq_true, Bool.not_eq_true',
    List.contains_iff_mem, and_assoc]

/-- Positions are listed in increasing order. -/
theorem pairwise_idsWhere (p : Node → Bool) : (g.idsWhere p).Pairwise (· < ·) := by
  have hsub : (g.idsWhere p).Sublist ((g.nodes.zipIdx).map Prod.snd) :=
    List.filter_sublist.map _
  refine List.Pairwise.sublist hsub ?_
  rw [List.zipIdx_map_snd]
  exact List.pairwise_lt_range'

theorem pairwise_liveIds : g.liveIds.Pairwise (· < ·) := pairwise_idsWhere _

theorem nodup_liveIds : g.liveIds.Nodup := pairwise_liveIds.imp Nat.ne_of_lt

/-- The live nodes stand at the live positions. -/
theorem live_eq_filterMap : g.live = g.liveIds.filterMap g.node? := by
  -- this holds of any list of nodes with their own positions beside them
  have key : ∀ (l : List (Node × Nat)), (∀ p ∈ l, g.node? p.2 = some p.1) →
      (l.map Prod.fst).filter (fun n => !n.deleted) =
        ((l.filter fun p => !p.1.deleted).map Prod.snd).filterMap g.node? := by
    intro l hl
    induction l with
    | nil => rfl
    | cons p l ih =>
      obtain ⟨hp, hl⟩ := List.forall_mem_cons.mp hl
      rw [List.map_cons, List.filter_cons, List.filter_cons, ih hl]
      split <;> simp_all
  have hzip := key g.nodes.zipIdx fun p hp => List.mem_zipIdx_iff_getElem?.mp hp
  rwa [List.zipIdx_map_fst] at hzip

theorem node?_of_find? {name : String} (h : g.find? name = some i) :
    ∃ n, g.node? i = some n ∧ n.name = name := by
  have hi := getElem?_of_lastPosition? h
  rw [List.getElem?_map] at hi
  exact Option.map_eq_some_iff.mp hi

/-- Among distinct names, the node that a name belongs to is the node of that name. -/
theorem Distinct.find?_eq_some_iff (h : g.Distinct) {name : String} :
    g.find? name = some i ↔ ∃ n, g.node? i = some n ∧ n.name = name := by
  rw [find?, lastPosition?_eq_some_iff h, List.getElem?_map, Option.map_eq_some_iff, node?]

theorem Distinct.eq_of_name (h : g.Distinct) (hi : g.node? i = some n) (hj : g.node? j = some m)
    (hname : n.name = m.name) : i = j := by
  have hi' := h.find?_eq_some_iff.mpr ⟨n, hi, hname⟩
  exact Option.some.inj (hi'.symm.trans (h.find?_eq_some_iff.mpr ⟨m, hj, rfl⟩))

/-! ### What two graphs differ in -/

/-- The positions that are live in one graph and not in another. -/
def removed (g h : Graph) : List Nat := g.liveIds.filter fun i => i ∉ h.liveIds

/-- The positions at which two graphs have nodes of different operators. -/
def changedOps (g h : Graph) : List Nat :=
  (List.range g.nodes.length).filter fun i =>
    (g.node? i).map Node.opType ≠ (h.node? i).map Node.opType

theorem mem_removed {h : Graph} : i ∈ g.removed h ↔ i ∈ g.liveIds ∧ i ∉ h.liveIds := by
  simp [removed]

theorem mem_changedOps {h : Graph} : i ∈ g.changedOps h ↔
    ∃ n, g.node? i = some n ∧ (h.node? i).map Node.opType ≠ some n.opType := by
  rw [changedOps, List.mem_filter, List.mem_range, decide_eq_true_eq]
  constructor
  · rintro ⟨hi, hne⟩
    have hn : g.node? i = some g.nodes[i] := List.getElem?_eq_getElem hi
    rw [hn, Option.map_some] at hne
    exact ⟨_, hn, Ne.symm hne⟩
  · rintro ⟨n, hn, hne⟩
    obtain ⟨hi, -⟩ := List.getElem?_eq_some_iff.mp hn
    exact ⟨hi, by rw [hn]; exact Ne.symm hne⟩

theorem pairwise_removed {h : Graph} : (g.removed h).Pairwise (· < ·) :=
  pairwise_liveIds.sublist List.filter_sublist

theorem pairwise_changedOps {h : Graph} : (g.changedOps h).Pairwise (· < ·) :=
  List.pairwise_lt_range.sublist List.filter_sublist

/-! ### Touching a node -/

theorem node?_modify {f : Node → Node} :
    (g.modify id f).node? i = (g.node? i).map fun n => if i = id then f n else n := by
  rw [node?, modify, List.getElem?_modify, node?]
  cases g.nodes[i]? with
  | none => rfl
  | some n => simp [eq_comm]

/-- Touching a node in a way that keeps its mark keeps the live nodes where they are. -/
theorem liveAt_modify {f : Node → Node} (hf : ∀ n, (f n).deleted = n.deleted) :
    (g.modify id f).LiveAt i n ↔ ∃ m, g.LiveAt i m ∧ n = if i = id then f m else m := by
  have hdel : ∀ m : Node, (if i = id then f m else m).deleted = m.deleted := by
    intro m
    split
    · exact hf m
    · rfl
  simp only [LiveAt, node?_modify, Option.map_eq_some_iff]
  constructor
  · rintro ⟨⟨m, hm, rfl⟩, hd⟩
    exact ⟨m, ⟨hm, (hdel m).symm.trans hd⟩, rfl⟩
  · rintro ⟨m, ⟨hm, hd⟩, rfl⟩
    exact ⟨⟨m, hm, rfl⟩, (hdel m).trans hd⟩

theorem LiveAt.modify_of_ne {f : Node → Node} (h : g.LiveAt i n) (hne : i ≠ id) :
    (g.modify id f).LiveAt i n :=
  ⟨by rw [node?_modify, h.1, Option.map_some, if_neg hne], h.2⟩

/-- What touching a node leaves alone is the same for all nodes of the touched graph. -/
theorem map_modify {β : Type} {f : Node → Node} {p : Node → β} (hf : ∀ n, p (f n) = p n) :
    (g.modify id f).nodes.map p = g.nodes.map p := by
  refine List.ext_getElem? fun k => ?_
  have hk : (g.modify id f).node? k = (g.node? k).map fun n => if k = id then f n else n :=
    node?_modify
  simp only [node?] at hk
  rw [List.getElem?_map, hk, List.getElem?_map, Option.map_map]
  refine congrArg (Option.map · _) (funext fun n => ?_)
  by_cases h : k = id <;> simp [h, hf]

/-- What touching a node cannot break holds of all nodes of the touched graph. -/
theorem forall_mem_modify {P : Node → Prop} {f : Node → Node} (hf : ∀ n, P n → P (f n))
    (h : ∀ n ∈ g.nodes, P n) (id : Nat) : ∀ n ∈ (g.modify id f).nodes, P n := by
  intro n hn
  obtain ⟨k, hk⟩ := List.mem_iff_getElem?.mp hn
  rw [← node?, node?_modify, Option.map_eq_some_iff] at hk
  obtain ⟨m, hm, rfl⟩ := hk
  have hmem := h m (List.mem_of_getElem? hm)
  split
  · exact hf m hmem
  · exact hmem

/-! ### Retiring a node -/

/-- **Retiring a node**: its name gives way to other names, and it is marked as deleted. -/
def retire (g : Graph) (id : Nat) (name : String) (names : List String) : Graph :=
  (g.splice name names).remove id

theorem node?_splice {name : String} {names : List String} :
    (g.splice name names).node? i =
      (g.node? i).map fun n => if n.deleted then n else n.rewire name names :=
  List.getElem?_map

/-- A splice rewires the live nodes, and only these. -/
theorem liveAt_splice {name : String} {names : List String} :
    (g.splice name names).LiveAt i n ↔ ∃ m, g.LiveAt i m ∧ n = m.rewire name names := by
  simp only [LiveAt, node?_splice, Option.map_eq_some_iff]
  constructor
  · rintro ⟨⟨m, hm, rfl⟩, hd⟩
    cases hdel : m.deleted with
    | true => simp [hdel] at hd
    | false => exact ⟨m, ⟨hm, hdel⟩, by simp⟩
  · rintro ⟨m, ⟨hm, hd⟩, rfl⟩
    exact ⟨⟨m, hm, by simp [hd]⟩, hd⟩

/-- Marking a node as deleted leaves the other live nodes as they are. -/
theorem liveAt_remove : (g.remove id).LiveAt i n ↔ i ≠ id ∧ g.LiveAt i n := by
  simp only [LiveAt, remove, node?_modify, Option.map_eq_some_iff]
  constructor
  · rintro ⟨⟨m, hm, rfl⟩, hd⟩
    by_cases h : i = id
    · simp [h] at hd
    · rw [if_neg h] at hd ⊢
      exact ⟨h, hm, hd⟩
  · rintro ⟨h, hn, hd⟩
    exact ⟨⟨n, hn, if_neg h⟩, hd⟩

/-- After a retirement the same nodes are there but one, with the name substituted. -/
theorem liveAt_retire {name : String} {names : List String} :
    (g.retire id name names).LiveAt i n ↔ i ≠ id ∧ ∃ m, g.LiveAt i m ∧ n = m.rewire name names := by
  rw [retire, liveAt_remove, liveAt_splice]

/-- A retirement leaves alone whatever does not depend on wiring and marks. -/
theorem map_retire {β : Type} {p : Node → β}
    (hp : ∀ (n : Node) xs d, p { n with inbound := xs, deleted := d } = p n)
    (name : String) (names : List String) :
    (g.retire id name names).nodes.map p = g.nodes.map p := by
  rw [retire, remove, map_modify fun n => hp n n.inbound true, splice, List.map_map]
  refine List.map_congr_left fun n _ => ?_
  simp only [Function.comp]
  split
  · rfl
  · exact hp n _ n.deleted

/-- What wiring and marks cannot break holds of all nodes after a retirement. -/
theorem forall_mem_retire {P : Node → Prop}
    (hP : ∀ (n : Node) xs d, P n → P { n with inbound := xs, deleted := d })
    (h : ∀ n ∈ g.nodes, P n) (id : Nat) (name : String) (names : List String) :
    ∀ n ∈ (g.retire id name names).nodes, P n := by
  refine forall_mem_modify (fun n hn => hP n n.inbound true hn) ?_ id
  intro n hn
  obtain ⟨m, hm, rfl⟩ := List.mem_map.mp hn
  split
  · exact h m hm
  · exact hP m _ m.deleted (h m hm)

end Graph

end LayerGraph
