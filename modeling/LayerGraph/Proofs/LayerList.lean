import LayerGraph.Model.Configuration
import LayerGraph.Proofs.RuleTable
import Mathlib.Data.List.Permutation

/-!
# Which configurations are read, and as what

A configuration is read if it keeps to a grammar. The grammar is written down here as it would be
for somebody who writes configurations: `LayerGraph.Configuration.Wraps` says where the model is,
`LayerGraph.Configuration.Lists` where its layers are, and `LayerGraph.Configuration.IsLayer` what
each of them has to say. A container is a layer that says of itself what a model says, so the
grammar goes down to any depth, and so does `LayerGraph.Configuration.Mirrors`, which compares an
entry with the node that is read from it.

Reading accepts what keeps to the grammar and nothing else, and what it returns mirrors the entries
one by one (`LayerGraph.Configuration.load_exact`). The weights are left out: where they end up is a
matter of their table, and no configuration fails for them.
-/

namespace LayerGraph

namespace Configuration

/-! ### The grammar -/

/-- **The model of a configuration** is found under up to two wrappings, and the outer one may keep
it as text. -/
inductive Wraps (config : Json) : Json → Prop
  | value {root : Json} (outer : (config.member? "model_config").getD config = root)
      (noText : ∀ s, root ≠ .str s) : Wraps config ((root.member? "config").getD root)
  | text {s : String} {root : Json} (outer : (config.member? "model_config").getD config = .str s)
      (read : Json.read? s = some root) : Wraps config ((root.member? "config").getD root)

/-- A configuration that is kept as a text that is not JSON. -/
def Unreadable (config : Json) : Prop :=
  ∃ s, (config.member? "model_config").getD config = .str s ∧ Json.read? s = none

/-- **The layers of a model**: the model is their list, or has one among its members. -/
inductive Lists : Json → List Json → Prop
  | array (layers : List Json) : Lists (.arr layers) layers
  | member {members : Entries Json} {layers : List Json}
      (found : members.value? "layers" = some (.arr layers)) : Lists (.obj members) layers

/-- **What names a layer** in a call: a string, or an array that starts with one. -/
inductive Names : Json → String → Prop
  | string (s : String) : Names (.str s) s
  | array (s : String) (rest : List Json) : Names (.arr (.str s :: rest)) s

/-- **The operands of a layer** are those of its calls, one call after the other. An entry that does
not speak of calls leaves the operands open, which is not the same as having none. -/
inductive Operands : Option Json → Option (List String) → Prop
  | absent : Operands none none
  | calls {calls : List (List Json)} {names : List (List String)}
      (named : List.Forall₂ (List.Forall₂ Names) calls names) :
      Operands (some (.arr (calls.map .arr))) (some names.flatten)

/-- **What an entry says of its layer**: its class, its name, which may stand in the configuration
of the layer as long as it does not stand in the entry, and its operands. -/
structure Says (entry : Json) (className name : String) (operands : Option (List String)) :
    Prop where
  className : entry.member? "class_name" = some (.str className)
  name : (entry.member? "name").or ((configOf entry).member? "name") = some (.str name)
  operands : Operands (entry.member? "inbound_nodes") operands

/-- **The grammar of layers.** A container is configured as a model is. -/
inductive IsLayer : Json → Prop
  | plain {entry : Json} {className name : String} {operands : Option (List String)}
      (said : Says entry className name operands) (plain : isContainerOp className = false) :
      IsLayer entry
  | container {entry : Json} {className name : String} {operands : Option (List String)}
      {layers : List Json} (said : Says entry className name operands)
      (container : isContainerOp className = true) (lists : Lists (configOf entry) layers)
      (inner : ∀ l ∈ layers, IsLayer l) : IsLayer entry

/-- **The attributes of a layer** are its configuration, in order, without its name and without what
is inside it. -/
structure Configures (config : Json) (attrs : Attributes) : Prop where
  members : ∀ members : Entries Json, config = .obj members → (members.map Prod.fst).Nodup →
    attrs = (members.filter fun e => e.1 ≠ "name" && e.1 ≠ "layers").map
      fun e => (e.1, AttrValue.ofJson e.2)
  otherwise : (∀ members, config ≠ .obj members) → attrs = []

/-- **What a node takes over from its entry**, apart from what is inside it and from its weights. -/
structure Describes (entry : Json) (n : Node) : Prop where
  said : Says entry n.opType n.name n.inbound
  configures : Configures (configOf entry) n.attrs
  absorbed : n.absorbed = {}
  deleted : n.deleted = false

/-- **A node that mirrors an entry**, with everything inside it. -/
inductive Mirrors : Json → Node → Prop
  | plain {entry : Json} {n : Node} (describes : Describes entry n)
      (plain : isContainerOp n.opType = false) (empty : n.children = []) : Mirrors entry n
  | container {entry : Json} {n : Node} {layers : List Json} (describes : Describes entry n)
      (container : isContainerOp n.opType = true) (lists : Lists (configOf entry) layers)
      (inner : List.Forall₂ Mirrors layers n.children) : Mirrors entry n

section Steps

variable {entry j : Json} {entries layers : List Json} {n : Node} {w w' : WeightTable}

/-! ### What an entry says of its layer -/

theorem layerList_eq_ok_iff : layerList j = .ok layers ↔ Lists j layers := by
  constructor
  · intro h
    cases j with
    | arr items =>
      obtain rfl := Except.ok.inj h
      exact .array items
    | obj members =>
      rw [layerList] at h
      split at h
      · next hv =>
        obtain rfl := Except.ok.inj h
        exact .member hv
      · cases h
    | _ => cases h
  · rintro (_ | hv)
    · rfl
    · rw [layerList, hv]

theorem reference_eq_ok_iff {x : String} : reference j = .ok x ↔ Names j x := by
  constructor
  · intro h
    rw [reference.eq_def] at h
    split at h
    · obtain rfl := Except.ok.inj h
      exact .string _
    · obtain rfl := Except.ok.inj h
      exact .array _ _
    · cases h
  · rintro (_ | _) <;> rfl

/-- A walk over a list succeeds if every step does. -/
theorem mapM_eq_ok_iff {α β ε : Type} {f : α → Except ε β} {xs : List α} {ys : List β} :
    xs.mapM f = .ok ys ↔ List.Forall₂ (fun x y => f x = .ok y) xs ys := by
  induction xs generalizing ys with
  | nil =>
    rw [List.mapM_nil, List.forall₂_nil_left_iff]
    exact ⟨fun h => (Except.ok.inj h).symm, fun h => h ▸ rfl⟩
  | cons x xs ih =>
    rw [List.mapM_cons, bind_eq_ok_iff, List.forall₂_cons_left_iff]
    constructor
    · rintro ⟨y, hy, h⟩
      obtain ⟨zs, hzs, h⟩ := bind_eq_ok_iff.mp h
      exact ⟨y, zs, hy, ih.mp hzs, (Except.ok.inj h).symm⟩
    · rintro ⟨y, zs, hy, hzs, rfl⟩
      exact ⟨y, hy, bind_eq_ok_iff.mpr ⟨zs, ih.mpr hzs, rfl⟩⟩

theorem references_eq_ok_iff {calls : List Json} {xs : List String} :
    references calls = .ok xs ↔ ∃ (args : List (List Json)) (names : List (List String)),
      calls = args.map .arr ∧ List.Forall₂ (List.Forall₂ Names) args names ∧
        xs = names.flatten := by
  have hmap : ∀ {args : List Json} {names : List String},
      args.mapM reference = .ok names ↔ List.Forall₂ Names args names := by
    intro args names
    simp only [mapM_eq_ok_iff, reference_eq_ok_iff]
  induction calls generalizing xs with
  | nil =>
    constructor
    · intro h
      obtain rfl := Except.ok.inj h
      exact ⟨[], [], rfl, .nil, rfl⟩
    · rintro ⟨args, names, hargs, hnames, rfl⟩
      obtain rfl := List.map_eq_nil_iff.mp hargs.symm
      obtain rfl := List.forall₂_nil_left_iff.mp hnames
      rfl
  | cons call calls ih =>
    constructor
    · intro h
      cases call with
      | arr items =>
        obtain ⟨names, hnames, h⟩ := bind_eq_ok_iff.mp h
        obtain ⟨rest, hrest, h⟩ := bind_eq_ok_iff.mp h
        obtain rfl := Except.ok.inj h
        obtain ⟨args, nss, rfl, hnss, rfl⟩ := ih.mp hrest
        exact ⟨items :: args, names :: nss, rfl, .cons (hmap.mp hnames) hnss, rfl⟩
      | _ => cases h
    · rintro ⟨args, names, hargs, hnames, rfl⟩
      obtain ⟨items, args, rfl, rfl, rfl⟩ := List.map_eq_cons_iff.mp hargs.symm
      obtain ⟨ns, nss, hns, hnss, rfl⟩ := List.forall₂_cons_left_iff.mp hnames
      exact bind_eq_ok_iff.mpr ⟨ns, hmap.mpr hns,
        bind_eq_ok_iff.mpr ⟨_, ih.mpr ⟨args, nss, rfl, hnss, rfl⟩, rfl⟩⟩

theorem inboundOf_eq_ok_iff {name : String} {operands : Option (List String)} :
    inboundOf name entry = .ok operands ↔ Operands (entry.member? "inbound_nodes") operands := by
  rw [inboundOf]
  constructor
  · intro h
    split at h
    · next hv =>
      obtain rfl := Except.ok.inj h
      rw [hv]
      exact .absent
    · next hv =>
      obtain ⟨xs, hxs, h⟩ := bind_eq_ok_iff.mp h
      obtain rfl := Except.ok.inj h
      obtain ⟨args, names, rfl, hnames, rfl⟩ := references_eq_ok_iff.mp hxs
      rw [hv]
      exact .calls hnames
    · cases h
  · intro h
    generalize entry.member? "inbound_nodes" = v at h
    cases h with
    | absent => rfl
    | calls named =>
      exact bind_eq_ok_iff.mpr ⟨_, references_eq_ok_iff.mpr ⟨_, _, rfl, named, rfl⟩, rfl⟩

theorem bind_str?_eq_some_iff {o : Option Json} {s : String} :
    o.bind Json.str? = some s ↔ o = some (.str s) := by
  rcases o with _ | (_ | _ | _ | _ | _ | _ | _) <;> simp [Json.str?]

/-- **A layer is read without what is inside it** if its entry says what it has to say. -/
theorem shallowLayer_eq_ok_iff : shallowLayer entry = .ok n ↔
    ∃ className name operands, Says entry className name operands ∧
      n = { name, opType := className, attrs := attributesOf (configOf entry),
            inbound := operands } := by
  constructor
  · intro h
    rw [shallowLayer] at h
    split at h
    · cases h
    next className hclass =>
    split at h
    · cases h
    next name hname =>
    obtain ⟨operands, hoperands, h⟩ := bind_eq_ok_iff.mp h
    obtain rfl := Except.ok.inj h
    exact ⟨className, name, operands, ⟨bind_str?_eq_some_iff.mp hclass,
      bind_str?_eq_some_iff.mp hname, inboundOf_eq_ok_iff.mp hoperands⟩, rfl⟩
  · rintro ⟨className, name, operands, said, rfl⟩
    have hname : nameOf? entry = some name := bind_str?_eq_some_iff.mpr said.name
    rw [shallowLayer, bind_str?_eq_some_iff.mpr said.className]
    simp only [hname, inboundOf_eq_ok_iff.mpr said.operands]
    rfl

theorem Says.exists_shallowLayer {className name : String} {operands : Option (List String)}
    (said : Says entry className name operands) :
    ∃ m, shallowLayer entry = .ok m ∧ m.opType = className :=
  ⟨_, shallowLayer_eq_ok_iff.mpr ⟨_, _, _, said, rfl⟩, rfl⟩

theorem configures_attributesOf (config : Json) : Configures config (attributesOf config) where
  members members hconfig hd := by
    subst hconfig
    refine Entries.ofList_of_nodup ?_
    rw [List.map_map]
    exact hd.sublist (List.filter_sublist.map _)
  otherwise hconfig := by
    cases config with
    | obj members => exact absurd rfl (hconfig members)
    | _ => rfl

/-! ### What is inside a layer -/

/-- Only containers have entries inside them. -/
theorem innerEntries_eq_ok_iff {inner : List Json} : innerEntries n entry = .ok inner ↔
    (isContainerOp n.opType = true ∧ Lists (configOf entry) inner) ∨
      (isContainerOp n.opType = false ∧ inner = []) := by
  rw [innerEntries]
  cases isContainerOp n.opType with
  | true => simp [layerList_eq_ok_iff]
  | false => simp [eq_comm]

/-- **A layer is read** if its entry says what it has to say and everything inside it is read. The
weights of the layer are what the inner layers leave of them. -/
theorem readLayer_eq_ok_iff : readLayer w entry = .ok (n, w') ↔
    ∃ m inner children w₁, shallowLayer entry = .ok m ∧ innerEntries m entry = .ok inner ∧
      readLayers w inner = .ok (children, w₁) ∧
      n = { m with children, weights := (w₁.value? m.name).getD [] } ∧ w' = w₁.erase m.name := by
  rw [readLayer]
  constructor
  · intro h
    split at h
    · cases h
    next m hm =>
    split at h
    · cases h
    next inner hinner =>
    split at h
    · cases h
    next children w₁ hchildren =>
    obtain ⟨rfl, rfl⟩ := Prod.mk.inj (Except.ok.inj h)
    exact ⟨m, inner, children, w₁, hm, hinner, hchildren, rfl, rfl⟩
  · rintro ⟨m, inner, children, w₁, hm, hinner, hchildren, rfl, rfl⟩
    rw [hm]
    dsimp only
    split
    · next hinner' => cases hinner'.symm.trans hinner
    · next hinner' =>
      obtain rfl := Except.ok.inj (hinner'.symm.trans hinner)
      rw [hchildren]

theorem readLayers_nil (w : WeightTable) : readLayers w [] = .ok ([], w) := by
  rw [readLayers]

/-- **Layers are read one after the other.** -/
theorem readLayers_cons_eq_ok_iff {ns : List Node} :
    readLayers w (entry :: entries) = .ok (ns, w') ↔
      ∃ m w₁ ms, readLayer w entry = .ok (m, w₁) ∧ readLayers w₁ entries = .ok (ms, w') ∧
        ns = m :: ms := by
  rw [readLayers]
  constructor
  · intro h
    split at h
    · cases h
    next m w₁ hm =>
    split at h
    · cases h
    next ms w₂ hms =>
    obtain ⟨rfl, rfl⟩ := Prod.mk.inj (Except.ok.inj h)
    exact ⟨m, w₁, ms, hm, hms, rfl⟩
  · rintro ⟨m, w₁, ms, hm, hms, rfl⟩
    simp [hm, hms]

/-- **Induction over entries**: what holds of an entry as soon as it holds of those inside it holds
of all entries. -/
theorem entry_induction {P : Json → Prop}
    (h : ∀ entry, (∀ n inner, innerEntries n entry = .ok inner → ∀ e ∈ inner, P e) → P entry)
    (entry : Json) : P entry := by
  -- the entries inside an entry are parts of it
  refine h entry fun n inner hinner e he => ?_
  have hlt : sizeOf e < sizeOf entry := by
    have hmem := List.sizeOf_lt_of_mem he
    have hsize := sizeOf_innerEntries_lt hinner
    omega
  exact entry_induction h e
termination_by sizeOf entry

/-! ### What is read -/

theorem exists_readLayers (h : ∀ e ∈ entries, ∀ w, ∃ n w', readLayer w e = .ok (n, w'))
    (w : WeightTable) : ∃ ns w', readLayers w entries = .ok (ns, w') := by
  induction entries generalizing w with
  | nil => exact ⟨[], w, readLayers_nil w⟩
  | cons e entries ih =>
    obtain ⟨he, hentries⟩ := List.forall_mem_cons.mp h
    obtain ⟨n, w₁, hn⟩ := he w
    obtain ⟨ns, w', hns⟩ := ih hentries w₁
    exact ⟨n :: ns, w', readLayers_cons_eq_ok_iff.mpr ⟨n, w₁, ns, hn, hns, rfl⟩⟩

/-- **What keeps to the grammar is read**, whatever weights there are. -/
theorem IsLayer.exists_readLayer (h : IsLayer entry) (w : WeightTable) :
    ∃ n w', readLayer w entry = .ok (n, w') := by
  induction h generalizing w with
  | @plain entry _ _ _ said plain =>
    obtain ⟨m, hm, rfl⟩ := said.exists_shallowLayer
    have hinner : innerEntries m entry = .ok [] := innerEntries_eq_ok_iff.mpr (.inr ⟨plain, rfl⟩)
    exact ⟨_, _, readLayer_eq_ok_iff.mpr ⟨m, [], [], w, hm, hinner, readLayers_nil w, rfl, rfl⟩⟩
  | container said container lists inner ih =>
    obtain ⟨m, hm, rfl⟩ := said.exists_shallowLayer
    have hinner := innerEntries_eq_ok_iff.mpr (.inl ⟨container, lists⟩)
    obtain ⟨children, w₁, hchildren⟩ := exists_readLayers ih w
    exact ⟨_, _, readLayer_eq_ok_iff.mpr ⟨m, _, children, w₁, hm, hinner, hchildren, rfl, rfl⟩⟩

/-- What is made of every entry is true of all nodes, one by one. -/
theorem forall₂_of_readLayers {R : Json → Node → Prop} {ns : List Node}
    (hR : ∀ e ∈ entries, ∀ w n w', readLayer w e = .ok (n, w') → R e n)
    (h : readLayers w entries = .ok (ns, w')) : List.Forall₂ R entries ns := by
  induction entries generalizing w ns with
  | nil =>
    obtain ⟨rfl, rfl⟩ := Prod.mk.inj (Except.ok.inj ((readLayers_nil w).symm.trans h))
    exact .nil
  | cons e entries ih =>
    obtain ⟨he, hentries⟩ := List.forall_mem_cons.mp hR
    obtain ⟨m, w₁, ms, hm, hms, rfl⟩ := readLayers_cons_eq_ok_iff.mp h
    exact .cons (he _ _ _ hm) (ih hentries hms)

/-- **What is read keeps to the grammar, and the node mirrors its entry.** -/
theorem mirrors_of_readLayer (h : readLayer w entry = .ok (n, w')) :
    IsLayer entry ∧ Mirrors entry n := by
  induction entry using entry_induction generalizing w n w' with
  | h entry ih =>
  obtain ⟨m, inner, children, w₁, hm, hinner, hchildren, rfl, -⟩ := readLayer_eq_ok_iff.mp h
  obtain ⟨className, name, operands, said, rfl⟩ := shallowLayer_eq_ok_iff.mp hm
  have hdescribes : Describes entry
      { name, opType := className, attrs := attributesOf (configOf entry), inbound := operands,
        children, weights := (w₁.value? name).getD [] } :=
    ⟨said, configures_attributesOf _, rfl, rfl⟩
  have hall : List.Forall₂ (fun e c => IsLayer e ∧ Mirrors e c) inner children :=
    forall₂_of_readLayers (fun e he w c w' hc => ih _ inner hinner e he hc) hchildren
  obtain ⟨hlayers, hmirrors⟩ := (List.forall₂_and_left _ _).mp hall
  rcases innerEntries_eq_ok_iff.mp hinner with ⟨container, lists⟩ | ⟨plain, rfl⟩
  · exact ⟨.container said container lists hlayers,
      .container hdescribes container lists hmirrors⟩
  · obtain rfl := List.forall₂_nil_left_iff.mp hmirrors
    exact ⟨.plain said plain, .plain hdescribes plain rfl⟩

/-! ### Reading a configuration -/

theorem model_eq_ok_iff {config model : Json} :
    Configuration.model config = .ok model ↔ Wraps config model := by
  rw [Configuration.model]
  constructor
  · intro h
    split at h
    · next s hs =>
      split at h
      · next root hroot =>
        obtain rfl := Except.ok.inj h
        exact .text hs hroot
      · cases h
    · next hroot =>
      obtain rfl := Except.ok.inj h
      exact .value rfl hroot
  · intro h
    cases h with
    | value outer noText =>
      subst outer
      split
      · next s hs => exact absurd hs (noText s)
      · rfl
    | text outer read =>
      rw [outer]
      simp only [read]

/-- The model is missed only where it is kept as a text that is not JSON. -/
theorem model_eq_error_iff {config : Json} {e : ConvertError} :
    Configuration.model config = .error e ↔ e = .table .malformed ∧ Unreadable config := by
  rw [Configuration.model]
  constructor
  · intro h
    split at h
    · next s hs =>
      split at h
      · cases h
      · next hroot => exact ⟨(Except.error.inj h).symm, s, hs, hroot⟩
    · cases h
  · rintro ⟨rfl, s, hs, hread⟩
    rw [hs]
    simp only [hread]

end Steps

section Loading

variable {c : Configuration} {net : Network} {model : Json} {layers : List Json} {e : ConvertError}

/-- A configuration wraps one model. -/
theorem Wraps.unique {config model' : Json} (h : Wraps config model) (h' : Wraps config model') :
    model = model' :=
  Except.ok.inj ((model_eq_ok_iff.mpr h).symm.trans (model_eq_ok_iff.mpr h'))

/-- A model lists one list of layers. -/
theorem Lists.unique {layers' : List Json} (h : Lists model layers) (h' : Lists model layers') :
    layers = layers' :=
  Except.ok.inj ((layerList_eq_ok_iff.mpr h).symm.trans (layerList_eq_ok_iff.mpr h'))

/-- **A configuration is loaded** if the layers of its model are read. -/
theorem load_eq_ok_iff : c.load = .ok net ↔ ∃ model layers nodes w, Wraps c.config model ∧
    Lists model layers ∧ readLayers c.weights layers = .ok (nodes, w) ∧
      net = ⟨nodes, c.shapes⟩ := by
  rw [load, bind_eq_ok_iff]
  constructor
  · rintro ⟨model, hmodel, h⟩
    split at h
    · cases h
    next layers hlayers =>
    split at h
    · cases h
    next nodes w hnodes =>
    exact ⟨model, layers, nodes, w, model_eq_ok_iff.mp hmodel, layerList_eq_ok_iff.mp hlayers,
      hnodes, (Except.ok.inj h).symm⟩
  · rintro ⟨model, layers, nodes, w, hmodel, hlayers, hnodes, rfl⟩
    refine ⟨model, model_eq_ok_iff.mpr hmodel, ?_⟩
    simp only [layerList_eq_ok_iff.mpr hlayers, hnodes]
    rfl

/-- **A configuration that is not loaded** is kept as a text that is not JSON, or is malformed. -/
theorem cases_of_load_error (h : c.load = .error e) :
    (e = .table .malformed ∧ Unreadable c.config) ∨
      ((∃ fault, e = .load (.invalidConfig fault)) ∧ ¬ Unreadable c.config) := by
  rw [load] at h
  cases hmodel : Configuration.model c.config with
  | error e' =>
    rw [hmodel] at h
    obtain rfl := Except.error.inj h
    exact .inl (model_eq_error_iff.mp hmodel)
  | ok model =>
    have hread : ¬ Unreadable c.config := fun hun =>
      nomatch hmodel.symm.trans (model_eq_error_iff.mpr ⟨rfl, hun⟩)
    refine .inr ⟨?_, hread⟩
    rw [hmodel] at h
    simp only [bind, Except.bind] at h
    split at h
    · exact ⟨_, (Except.error.inj h).symm⟩
    · split at h
      · exact ⟨_, (Except.error.inj h).symm⟩
      · cases h

/-- **Loading accepts the grammar and mirrors it.** A configuration is loaded exactly if its model
lists layers, each of which keeps to the grammar, at every depth. What fails to is malformed, unless
it is a text that is not even JSON. What is loaded are nodes that mirror the entries one by one, and
the shapes that were given. -/
theorem load_exact (c : Configuration) :
    ((∃ net, c.load = .ok net) ↔
      ∃ model layers, Wraps c.config model ∧ Lists model layers ∧ ∀ l ∈ layers, IsLayer l) ∧
    (∀ e, c.load = .error e → (e = .table .malformed ∧ Unreadable c.config) ∨
      ((∃ fault, e = .load (.invalidConfig fault)) ∧ ¬ Unreadable c.config)) ∧
    ∀ net, c.load = .ok net → net.shapes = c.shapes ∧
      ∀ model layers, Wraps c.config model → Lists model layers →
        List.Forall₂ Mirrors layers net.nodes := by
  refine ⟨⟨?_, ?_⟩, fun e => cases_of_load_error, fun net h => ?_⟩
  · rintro ⟨net, h⟩
    obtain ⟨model, layers, nodes, w, hmodel, hlayers, hnodes, -⟩ := load_eq_ok_iff.mp h
    refine ⟨model, layers, hmodel, hlayers, ?_⟩
    have hall : List.Forall₂ (fun l n => IsLayer l ∧ Mirrors l n) layers nodes :=
      forall₂_of_readLayers (fun l _ w n w' hn => mirrors_of_readLayer hn) hnodes
    exact ((List.forall₂_and_left _ _).mp hall).1
  · rintro ⟨model, layers, hmodel, hlayers, hall⟩
    obtain ⟨nodes, w, hnodes⟩ :=
      exists_readLayers (fun l hl w => (hall l hl).exists_readLayer w) c.weights
    exact ⟨_, load_eq_ok_iff.mpr ⟨model, layers, nodes, w, hmodel, hlayers, hnodes, rfl⟩⟩
  · obtain ⟨model, layers, nodes, w, hmodel, hlayers, hnodes, rfl⟩ := load_eq_ok_iff.mp h
    refine ⟨rfl, fun model' layers' hmodel' hlayers' => ?_⟩
    obtain rfl := hmodel.unique hmodel'
    obtain rfl := hlayers.unique hlayers'
    exact forall₂_of_readLayers (fun l _ w n w' hn => (mirrors_of_readLayer hn).2) hnodes

/-- A rectifier whose name stands in its own configuration, and which is called once with two
references, of either kind. -/
def rectifierEntry : Json := .obj [
  ("class_name", .str "ReLU"),
  ("config", .obj [("name", .str "relu")]),
  ("inbound_nodes", .arr [.arr [.str "in", .arr [.str "in"]]])]

/-- A container with the rectifier inside it. It says nothing of calls. -/
def blockEntry : Json := .obj [
  ("class_name", .str "Model"),
  ("name", .str "block"),
  ("config", .obj [("layers", .arr [rectifierEntry])])]

/-- A model with this container as its only layer, kept as text. -/
def keptText : Json := .obj [("model_config", .str (
  "\x7b\"config\":[\x7b\"class_name\":\"Model\",\"name\":\"block\",\"config\":\x7b\"layers\":[" ++
  "\x7b\"class_name\":\"ReLU\",\"config\":\x7b\"name\":\"relu\"\x7d," ++
  "\"inbound_nodes\":[[\"in\",[\"in\"]]]\x7d]\x7d\x7d]\x7d"))]

theorem isLayer_blockEntry : IsLayer blockEntry := by
  have hcall : List.Forall₂ Names [.str "in", .arr [.str "in"]] ["in", "in"] :=
    .cons (.string "in") (.cons (.array "in" []) .nil)
  have hrectifier : IsLayer rectifierEntry :=
    .plain ⟨rfl, rfl, @Operands.calls [_] [_] (.cons hcall .nil)⟩ rfl
  refine .container ⟨rfl, rfl, .absent⟩ rfl (.member rfl) fun l hl => ?_
  obtain rfl := List.mem_singleton.mp hl
  exact hrectifier

/-- The text is read, and a text that breaks off is not. -/
theorem load_keptText :
    (∃ net, load { config := keptText } = .ok net ∧ List.Forall₂ Mirrors [blockEntry] net.nodes) ∧
      ∀ e, load { config := .obj [("model_config", .str "\x7b")] } = .error e →
        e = .table .malformed := by
  have hread : Json.read? "\x7b" = none := by cbv
  have hwraps : Wraps keptText (.arr [blockEntry]) := by
    refine @Wraps.text keptText _ (.obj [("config", .arr [blockEntry])]) rfl ?_
    cbv
  obtain ⟨hok, -, hmirrors⟩ := load_exact { config := keptText }
  obtain ⟨net, hnet⟩ := hok.mpr ⟨_, _, hwraps, .array _, fun l hl => by
    obtain rfl := List.mem_singleton.mp hl
    exact isLayer_blockEntry⟩
  refine ⟨⟨net, hnet, (hmirrors net hnet).2 _ _ hwraps (.array _)⟩, fun e he => ?_⟩
  rcases (load_exact _).2.1 e he with ⟨h, -⟩ | ⟨-, h⟩
  · exact h
  · exact absurd ⟨_, rfl, hread⟩ h

end Loading

end Configuration

end LayerGraph
