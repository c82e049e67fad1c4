import LayerGraph.Normal
import LayerGraph.Proofs.Flattening
import LayerGraph.Proofs.Swish

/-!
# The normal form is ordered

A node list is *well referenced* (`LayerGraph.WellReferenced`) if all names in it are distinct and
every operand that a leaf lists is settled where the leaf comes up: it is a leaf before it, or a
container that ended before it with some leaf to stand for.

From such a list normalization makes an ordered graph
(`LayerGraph.WellReferenced.exists_normalize`). Flattening redirects a settled reference to a
leaf before; a node without an operand list is fed by the node before it; and contracting swish
retires a product in favour of the sigmoid before it.

Whatever the list is, the nodes of a normal form are its leaves under other wiring
(`LayerGraph.forall_mem_normalize`), and their names are distinct
(`LayerGraph.distinct_of_normalize`).
-/

namespace LayerGraph

/-! ### Well-referenced node lists -/

/-- What a reference can be settled by, given the nodes that came up before it: a leaf, or a
container at whose end some leaf was there. -/
def Settles (before : List Node) (x : String) : Prop :=
  (∃ m ∈ before, m.isLeaf = true ∧ m.name = x) ∨
    ∃ j m, before[j]? = some m ∧ m.isLeaf = false ∧ m.name = x ∧
      ∃ l ∈ before.take j, l.isLeaf = true

/-- **A well-referenced node list**: nothing is deleted, the names of leaves and containers are
distinct, and the operands of every leaf are settled before it. -/
structure WellReferenced (nodes : List Node) : Prop where
  live : ∀ n ∈ postorder nodes, n.deleted = false
  distinct : ((postorder nodes).map Node.name).Nodup
  settled : ∀ i n, (postorder nodes)[i]? = some n → n.isLeaf = true →
    ∀ x ∈ n.inputs, Settles ((postorder nodes).take i) x

instance (before : List Node) (x : String) : Decidable (Settles before x) :=
  decidable_of_iff ((∃ m ∈ before, m.isLeaf = true ∧ m.name = x) ∨
      ∃ p ∈ before.zipIdx, p.1.isLeaf = false ∧ p.1.name = x ∧
        ∃ l ∈ before.take p.2, l.isLeaf = true) <| by
    refine or_congr Iff.rfl ?_
    simp only [Prod.exists, List.mem_zipIdx_iff_getElem?]
    exact ⟨fun ⟨m, j, h⟩ => ⟨j, m, h⟩, fun ⟨j, m, h⟩ => ⟨m, j, h⟩⟩

instance (nodes : List Node) : Decidable (WellReferenced nodes) :=
  decidable_of_iff ((∀ n ∈ postorder nodes, n.deleted = false) ∧
      ((postorder nodes).map Node.name).Nodup ∧
      ∀ p ∈ (postorder nodes).zipIdx, p.1.isLeaf = true →
        ∀ x ∈ p.1.inputs, Settles ((postorder nodes).take p.2) x) <| by
    simp only [Prod.forall, List.mem_zipIdx_iff_getElem?]
    exact ⟨fun h => ⟨h.1, h.2.1, fun i n => h.2.2 n i⟩,
      fun h => ⟨h.live, h.distinct, fun n i => h.settled i n⟩⟩

/-! ### Flattening settles references -/

namespace WellReferenced

variable {nodes : List Node} {i : Nat} {n : Node} {x : String}

/-- **A settled reference is redirected to a leaf before it.** -/
theorem exists_leaf (h : WellReferenced nodes) (hx : Settles ((postorder nodes).take i) x) :
    ∃ l ∈ ((postorder nodes).take i).filter Node.isLeaf,
      redirect (aliasesOf (postorder nodes)) x = l.name := by
  rcases hx with ⟨m, hm, hleaf, rfl⟩ | ⟨j, m, hj, hleaf, rfl, l, hl, hlleaf⟩
  · exact ⟨m, List.mem_filter.mpr ⟨hm, hleaf⟩,
      redirect_leaf h.distinct (List.mem_of_mem_take hm) hleaf⟩
  · -- the container ended at position `j`, with the leaf `l` before it
    obtain ⟨hlt, -⟩ := List.getElem?_eq_some_iff.mp hj
    have hji : j < i := Nat.lt_of_lt_of_le hlt (List.length_take_le ..)
    rw [List.getElem?_take_of_lt hji] at hj
    rw [List.take_take, Nat.min_eq_left (Nat.le_of_lt hji)] at hl
    have hmem : l ∈ ((postorder nodes).take j).filter Node.isLeaf :=
      List.mem_filter.mpr ⟨hl, hlleaf⟩
    obtain ⟨l', hl'⟩ : ∃ l', (((postorder nodes).take j).filter Node.isLeaf).getLast? = some l' :=
      ⟨_, List.getLast?_eq_some_getLast (List.ne_nil_of_mem hmem)⟩
    have hsplit := take_append_cons_drop hj
    have hredirect := redirect_container (hsplit.symm ▸ h.distinct)
      (hsplit.symm ▸ nested_postorder none nodes) hleaf hl'
    rw [hsplit] at hredirect
    refine ⟨l', ?_, hredirect⟩
    have hsub : ((postorder nodes).take j).Sublist ((postorder nodes).take i) :=
      List.take_sublist_take_left (Nat.le_of_lt hji)
    exact (hsub.filter _).subset (List.mem_of_getLast? hl')

/-- **After flattening every operand is a leaf before.** -/
theorem flatten_earlier (h : WellReferenced nodes) (hn : (flatten nodes)[i]? = some n)
    (hx : x ∈ n.inputs) : ∃ j m, j < i ∧ (flatten nodes)[j]? = some m ∧ m.name = x := by
  rw [flatten_eq, List.getElem?_map] at hn
  obtain ⟨n₀, hn₀, rfl⟩ := Option.map_eq_some_iff.mp hn
  obtain ⟨p, hp, hleaf, htake⟩ := exists_getElem?_of_filter hn₀
  rw [Node.redirected_inputs] at hx
  obtain ⟨y, hy, rfl⟩ := List.mem_map.mp hx
  obtain ⟨l, hl, hname⟩ := h.exists_leaf (h.settled p n₀ hp hleaf y hy)
  -- the leaves before position `p` are the first `i` of all leaves
  rw [htake] at hl
  obtain ⟨j, hji, hj⟩ := mem_take_iff.mp hl
  exact ⟨j, l.redirected _, hji, by rw [flatten_eq, List.getElem?_map, hj, Option.map_some],
    hname.symm⟩

theorem flatten_live (h : WellReferenced nodes) (hn : n ∈ flatten nodes) : n.deleted = false := by
  rw [flatten_eq] at hn
  obtain ⟨m, hm, rfl⟩ := List.mem_map.mp hn
  exact h.live m (List.mem_of_mem_filter hm)

theorem flatten_distinct (h : WellReferenced nodes) : ((flatten nodes).map Node.name).Nodup :=
  nodup_names_flatten h.distinct

end WellReferenced

/-! ### Feeding in order -/

/-- The node with its operand list, or else with the node before as its only operand. -/
def Node.feed (n : Node) (previous : Option String) : Node :=
  { n with inbound := some (n.inbound.getD previous.toList) }

/-- The name before a position, where `p` is the name before the first one. -/
def nameBefore (p : Option String) (ns : List Node) : Nat → Option String
  | 0 => p
  | i + 1 => ns[i]?.map Node.name

theorem getElem?_feedInOrder (p : Option String) (ns : List Node) (i : Nat) :
    (feedInOrder p ns)[i]? = ns[i]?.map fun n => n.feed (nameBefore p ns i) := by
  induction ns generalizing p i with
  | nil => rfl
  | cons n ns ih =>
    cases i with
    | zero => rfl
    | succ i =>
      rw [feedInOrder, List.getElem?_cons_succ, List.getElem?_cons_succ, ih]
      cases i <;> rfl

theorem names_feedInOrder (p : Option String) (ns : List Node) :
    (feedInOrder p ns).map Node.name = ns.map Node.name := by
  induction ns generalizing p with
  | nil => rfl
  | cons n ns ih => exact congrArg (n.name :: ·) (ih _)

/-- An operand of a fed node is one that it listed, or the node before it. -/
theorem Node.mem_inputs_feed {n : Node} {previous : Option String} {x : String}
    (hx : x ∈ (n.feed previous).inputs) : x ∈ n.inputs ∨ previous = some x := by
  rw [inputs, feed] at hx
  rw [inputs]
  cases h : n.inbound with
  | none => exact Or.inr (by simpa [h] using hx)
  | some xs => exact Or.inl (by simpa [h] using hx)

/-- No name is repeated exactly if no repeated name is found. -/
theorem firstRepeated?_eq_none_iff {seen names : List String} :
    firstRepeated? seen names = none ↔ names.Nodup ∧ ∀ x ∈ names, x ∉ seen := by
  induction names generalizing seen with
  | nil => simp [firstRepeated?]
  | cons name names ih =>
    rw [firstRepeated?]
    by_cases h : name ∈ seen
    · simp [h]
    · rw [List.forall_mem_cons, List.nodup_cons]
      simp only [List.contains_iff_mem, h, if_false, ih, List.mem_cons, not_or]
      constructor
      · rintro ⟨hd, hall⟩
        exact ⟨⟨fun hmem => (hall name hmem).1 rfl, hd⟩, not_false, fun x hx => (hall x hx).2⟩
      · rintro ⟨⟨hn, hd⟩, -, hall⟩
        exact ⟨hd, fun x hx => ⟨fun he => hn (he ▸ hx), hall x hx⟩⟩

/-- **The repeated name that is found is the first one**: it was seen before, and up to it no name
was. -/
theorem firstRepeated?_eq_some_iff {seen names : List String} {name : String} :
    firstRepeated? seen names = some name ↔ ∃ before after, names = before ++ name :: after ∧
      before.Nodup ∧ (∀ x ∈ before, x ∉ seen) ∧ (name ∈ before ∨ name ∈ seen) := by
  induction names generalizing seen with
  | nil => simp [firstRepeated?]
  | cons x names ih =>
    rw [firstRepeated?]
    by_cases hx : x ∈ seen
    · rw [if_pos (List.contains_iff_mem.mpr hx), Option.some.injEq]
      constructor
      · rintro rfl
        exact ⟨[], names, rfl, List.nodup_nil, fun _ h => absurd h List.not_mem_nil, .inr hx⟩
      · rintro ⟨before, after, hsplit, -, hnew, -⟩
        cases before with
        | nil => exact (List.cons.inj hsplit).1
        | cons y before =>
          obtain ⟨rfl, -⟩ := List.cons.inj hsplit
          exact absurd hx (hnew x List.mem_cons_self)
    · rw [if_neg (mt List.contains_iff_mem.mp hx), ih]
      constructor
      · rintro ⟨before, after, rfl, hnd, hnew, hname⟩
        refine ⟨x :: before, after, rfl, List.nodup_cons.mpr ⟨fun h => ?_, hnd⟩, fun y hy => ?_, ?_⟩
        · exact hnew x h List.mem_cons_self
        · rcases List.mem_cons.mp hy with rfl | hy
          · exact hx
          · exact fun h => hnew y hy (List.mem_cons_of_mem _ h)
        · rcases hname with h | h
          · exact .inl (List.mem_cons_of_mem _ h)
          · rcases List.mem_cons.mp h with rfl | h
            · exact .inl List.mem_cons_self
            · exact .inr h
      · rintro ⟨before, after, hsplit, hnd, hnew, hname⟩
        cases before with
        | nil =>
          obtain ⟨rfl, -⟩ := List.cons.inj hsplit
          exact absurd (hname.resolve_left List.not_mem_nil) hx
        | cons y before =>
          obtain ⟨rfl, rfl⟩ := List.cons.inj hsplit
          obtain ⟨hnot, hnd⟩ := List.nodup_cons.mp hnd
          refine ⟨before, after, rfl, hnd, fun z hz hmem => ?_, ?_⟩
          · rcases List.mem_cons.mp hmem with rfl | hmem
            · exact hnot hz
            · exact hnew z (List.mem_cons_of_mem _ hz) hmem
          · rcases hname with h | h
            · rcases List.mem_cons.mp h with rfl | h
              · exact .inr List.mem_cons_self
              · exact .inl h
            · exact .inr (List.mem_cons_of_mem _ h)

/-- **The graph of a well-referenced list is ordered** before swish is contracted. -/
theorem WellReferenced.ordered {nodes : List Node} (h : WellReferenced nodes) :
    (Graph.mk (feedInOrder none (flatten nodes))).Ordered where
  distinct := by
    rw [Graph.Distinct, names_feedInOrder]
    exact h.flatten_distinct
  earlier := by
    -- an operand before position `i` is a node of the fed list before it
    have key : ∀ {i j : Nat} {m : Node}, j < i → (flatten nodes)[j]? = some m →
        (Graph.mk (feedInOrder none (flatten nodes))).Feeds i m.name := by
      intro i j m hji hm
      refine ⟨j, m.feed (nameBefore none (flatten nodes) j), hji, ⟨?_, ?_⟩, rfl⟩
      · rw [Graph.node?, getElem?_feedInOrder, hm, Option.map_some]
      · exact h.flatten_live (n := m) (List.mem_of_getElem? hm)
    intro i n hn x hx
    have hi := hn.1
    rw [Graph.node?, getElem?_feedInOrder] at hi
    obtain ⟨n₀, hn₀, rfl⟩ := Option.map_eq_some_iff.mp hi
    rcases Node.mem_inputs_feed hx with hx | hx
    · obtain ⟨j, m, hji, hm, rfl⟩ := h.flatten_earlier hn₀ hx
      exact key hji hm
    · cases i with
      | zero => cases hx
      | succ i =>
        obtain ⟨m, hm, rfl⟩ := Option.map_eq_some_iff.mp hx
        exact key (Nat.lt_succ_self i) hm

/-! ### Normal forms -/

section Normal

variable {format : ModelFormat} {nodes : List Node} {g : Graph}

/-- What normalization makes of a flat list whose names are distinct. -/
def normalForm (format : ModelFormat) (g : Graph) : Graph :=
  match format with
  | .keras => g
  | .onnx => g.contractSwish.1

/-- **Normalization** succeeds exactly if no name is left twice. -/
theorem normalize_eq_ok_iff : normalize format nodes = .ok g ↔
    ((flatten nodes).map Node.name).Nodup ∧
      g = normalForm format ⟨feedInOrder none (flatten nodes)⟩ := by
  have hnd : firstRepeated? [] ((feedInOrder none (flatten nodes)).map Node.name) = none ↔
      ((flatten nodes).map Node.name).Nodup := by
    rw [firstRepeated?_eq_none_iff, names_feedInOrder]
    exact and_iff_left fun _ _ => List.not_mem_nil
  rw [← hnd]
  simp only [normalize]
  split
  · next name h => simp [h]
  · next h => cases format <;> simp [h, normalForm, eq_comm]

/-- **What normalization reports** is the first name that comes up a second time. -/
theorem normalize_eq_error_iff {e : ConvertError} : normalize format nodes = .error e ↔
    ∃ before name after, (flatten nodes).map Node.name = before ++ name :: after ∧ before.Nodup ∧
      name ∈ before ∧ e = .invalidGraph (.duplicateName name) := by
  have hfirst : ∀ {name : String},
      firstRepeated? [] ((feedInOrder none (flatten nodes)).map Node.name) = some name ↔
        ∃ before after, (flatten nodes).map Node.name = before ++ name :: after ∧ before.Nodup ∧
          name ∈ before := by
    intro name
    rw [firstRepeated?_eq_some_iff, names_feedInOrder]
    simp
  simp only [normalize]
  split
  · next name h =>
    obtain ⟨before, after, hsplit, hnd, hmem⟩ := hfirst.mp h
    constructor
    · intro he
      exact ⟨before, name, after, hsplit, hnd, hmem, (Except.error.inj he).symm⟩
    · rintro ⟨before', name', after', hsplit', hnd', hmem', rfl⟩
      obtain rfl : name = name' :=
        Option.some.inj (h.symm.trans (hfirst.mpr ⟨before', after', hsplit', hnd', hmem'⟩))
      rfl
  · next h =>
    constructor
    · intro he
      split at he <;> cases he
    · rintro ⟨before, name, after, hsplit, hnd, hmem, -⟩
      exact absurd (h.symm.trans (hfirst.mpr ⟨before, after, hsplit, hnd, hmem⟩)) nofun

/-- **A well-referenced list has an ordered normal form.** -/
theorem WellReferenced.exists_normalize (h : WellReferenced nodes) (format : ModelFormat) :
    ∃ g, normalize format nodes = .ok g ∧ g.Ordered := by
  refine ⟨_, normalize_eq_ok_iff.mpr ⟨h.flatten_distinct, rfl⟩, ?_⟩
  cases format with
  | keras => exact h.ordered
  | onnx => exact h.ordered.contractSwish

/-- The names of a normal form are distinct. -/
theorem distinct_of_normalize (h : normalize format nodes = .ok g) : g.Distinct := by
  obtain ⟨hnd, rfl⟩ := normalize_eq_ok_iff.mp h
  have hfed : (Graph.mk (feedInOrder none (flatten nodes))).Distinct := by
    rw [Graph.Distinct, names_feedInOrder]
    exact hnd
  cases format with
  | keras => exact hfed
  | onnx => exact hfed.congr (Graph.map_contractSwish fun _ _ _ _ => rfl)

/-- **The nodes of a normal form are the leaves of the list**: what holds of these whatever the
wiring, and of a swish, holds of them. -/
theorem forall_mem_normalize {P : Node → Prop} (hs : ∀ n, P n → P n.toSwish)
    (hP : ∀ (n : Node) xs d, P n → P { n with inbound := xs, deleted := d })
    (h : ∀ n ∈ postorder nodes, n.isLeaf = true → P n)
    (hg : normalize format nodes = .ok g) : ∀ n ∈ g.nodes, P n := by
  obtain ⟨-, rfl⟩ := normalize_eq_ok_iff.mp hg
  have hfed : ∀ n ∈ feedInOrder none (flatten nodes), P n := by
    intro n hn
    obtain ⟨i, hi⟩ := List.mem_iff_getElem?.mp hn
    rw [getElem?_feedInOrder] at hi
    obtain ⟨m, hm, rfl⟩ := Option.map_eq_some_iff.mp hi
    have hmem := List.mem_of_getElem? hm
    rw [flatten_eq] at hmem
    obtain ⟨l, hl, rfl⟩ := List.mem_map.mp hmem
    obtain ⟨hl, hleaf⟩ := List.mem_filter.mp hl
    exact hP l _ l.deleted (h l hl hleaf)
  cases format with
  | keras => exact hfed
  | onnx => exact Graph.forall_mem_contractSwish hs hP hfed

end Normal

end LayerGraph
