import LayerGraph.Proofs.Contribution
import LayerGraph.Proofs.Conversion
import LayerGraph.Proofs.Policy

/-!
# Nothing that fusion removes is lost

A node of a graph is told of in a document in one of two ways: it has a record of its own, or it
was absorbed and the record of another node names it and has its data. For the standard policy
and without custom objects this is an exact account (`LayerGraph.convert_accounted`). Two things
are behind it. The ledger of the fusion is balanced (`LayerGraph.Graph.Ledger`), so whatever is
gone is held by one node that is left; and whatever the policy lets absorb has the fields to
tell of it (`LayerGraph.Family.tells`).

What a record has to say of an absorbed node is said without looking at what was handed over: its
canonical activation (`LayerGraph.Node.CanonicalActivation`), or the parameters that are its own
weights (`LayerGraph.Node.CanonicalNorm`).
-/

namespace LayerGraph

/-! ### Accounts -/

section Told

variable (records : List Record) (key : String) (n : Node)

/-- The node has a record of its own, and only one. -/
def OwnRecord : Prop := ∃ r, records.filter (fun r => r.name = n.name) = [r]

/-- The node has no record of its own. -/
def Unrecorded : Prop := ∀ r ∈ records, r.name ≠ n.name

/-- One record names the node in a field, and only one, and this record says `P`. -/
def NamedOnce (P : Record → Prop) : Prop :=
  ∃ r, records.filter (fun r => r.text? key = some n.name) = [r] ∧ P r

/-- No record names the node in a field. -/
def Unnamed : Prop := ∀ r ∈ records, r.text? key ≠ some n.name

/-- **The node is told of once**: by a record of its own, or else by one that names it. -/
def ToldOnce (P : Record → Prop) : Prop :=
  (OwnRecord records n ∧ Unnamed records key n) ∨ (Unrecorded records n ∧ NamedOnce records key n P)

end Told

/-- The record has the activation that a node stands for. -/
def Record.TellsActivation (r : Record) (format : ModelFormat) (n : Node) : Prop :=
  ∃ act alpha, n.CanonicalActivation format act alpha ∧
    r.field? "activation" = some (.str act) ∧
      ∀ x, alpha = some x → r.field? "alpha" = some (Json.ofSingle x)

/-- The record has the batch normalization that a node stands for. -/
def Record.TellsNorm (r : Record) (format : ModelFormat) (n : Node) : Prop :=
  ∃ p, r.norm = some p ∧ n.CanonicalNorm format p

/-- **The records account for the nodes**: for those that may be absorbed, for all others, and for
nothing else. -/
structure Accounted (format : ModelFormat) (nodes : List Node) (records : List Record) : Prop where
  dropout : ∀ n ∈ nodes, Family.ofOp? format n.opType = some .dropout → Unrecorded records n
  other : ∀ n ∈ nodes,
    Family.ofOp? format n.opType ∉ [some .activation, some .batchNorm, some .dropout] →
      OwnRecord records n
  activation : ∀ n ∈ nodes, Family.ofOp? format n.opType = some .activation →
    ToldOnce records "act_name" n fun r => r.TellsActivation format n
  batchNorm : ∀ n ∈ nodes, Family.ofOp? format n.opType = some .batchNorm →
    ToldOnce records "bn_name" n fun r => r.TellsNorm format n
  /-- What is named as an absorbed activation is one that has no record. -/
  actNames : ∀ r ∈ records, ∀ v, r.field? "act_name" = some v → ∃ n ∈ nodes,
    Family.ofOp? format n.opType = some .activation ∧ Unrecorded records n ∧ v = .str n.name
  /-- What is named as an absorbed batch normalization is one that has no record. -/
  normNames : ∀ r ∈ records, ∀ v, r.field? "bn_name" = some v → ∃ n ∈ nodes,
    Family.ofOp? format n.opType = some .batchNorm ∧ Unrecorded records n ∧ v = .str n.name
  /-- The scaling of a matrix product is its own. -/
  gemm : ∀ r ∈ records, r.type = "Gemm" → ∃ n ∈ nodes, n.name = r.name ∧ n.opType = "Gemm" ∧
    r.field? "alpha" = (n.attrs.float? "alpha").map Json.ofSingle

/-! ### What is offered and what is held -/

/-- The field that names the source of a contribution. -/
def Contribution.key : Contribution → String
  | .activation _ => "act_name"
  | .norm _ => "bn_name"

theorem Contribution.exists_of_act_name {c : Contribution} (h : c.key = "act_name") :
    ∃ a, c = .activation a := by
  cases c with
  | activation a => exact ⟨a, rfl⟩
  | norm p => simp [key] at h

theorem Contribution.exists_of_bn_name {c : Contribution} (h : c.key = "bn_name") :
    ∃ p, c = .norm p := by
  cases c with
  | activation a => simp [key] at h
  | norm p => exact ⟨p, rfl⟩

section Offers

variable {format : ModelFormat} {n : Node} {c : Contribution}

theorem Node.Offers.of_activation {a : ActivationPart}
    (h : n.Offers ⟨format, .standard, {}⟩ (.activation a)) :
    Family.ofOp? format n.opType = some .activation ∧
      n.CanonicalActivation format a.name a.alpha := by
  rcases h.cases with ⟨hf, heq⟩ | ⟨-, heq⟩
  · obtain rfl := Contribution.activation.inj heq
    exact ⟨Family.resolve_eq_ok_iff.mp hf, n.canonicalActivation_activationPart format⟩
  · cases heq

theorem Node.Offers.of_norm {p : NormPart} (h : n.Offers ⟨format, .standard, {}⟩ (.norm p)) :
    Family.ofOp? format n.opType = some .batchNorm ∧ n.CanonicalNorm format p.params := by
  rcases h.cases with ⟨-, heq⟩ | ⟨hf, heq⟩
  · cases heq
  · obtain rfl := Contribution.norm.inj heq
    exact ⟨Family.resolve_eq_ok_iff.mp hf, n.canonicalNorm_normParams format⟩

/-- An activation hands over an activation. -/
theorem Node.Offers.exists_activation (h : n.Offers ⟨format, .standard, {}⟩ c)
    (hf : Family.ofOp? format n.opType = some .activation) : ∃ a, c = .activation a := by
  cases c with
  | activation a => exact ⟨a, rfl⟩
  | norm p => simp [h.of_norm.1] at hf

/-- A batch normalization hands over a batch normalization. -/
theorem Node.Offers.exists_norm (h : n.Offers ⟨format, .standard, {}⟩ c)
    (hf : Family.ofOp? format n.opType = some .batchNorm) : ∃ p, c = .norm p := by
  cases c with
  | activation a => simp [h.of_activation.1] at hf
  | norm p => exact ⟨p, rfl⟩

end Offers

/-! ### The document of a fused graph -/

/-- Whatever is on one side of a list of pairs has something beside it. -/
theorem exists_mem_of_forall₂ {α β : Type} {R : α → β → Prop} {xs : List α} {ys : List β} {a : α}
    (h : List.Forall₂ R xs ys) (ha : a ∈ xs) : ∃ b ∈ ys, R a b := by
  induction h with
  | nil => cases ha
  | cons hab _ ih =>
    rcases List.mem_cons.mp ha with rfl | ha
    · exact ⟨_, List.mem_cons_self, hab⟩
    · obtain ⟨b, hb, hr⟩ := ih ha
      exact ⟨b, List.mem_cons_of_mem _ hb, hr⟩

/-- In a list without repetitions what is singled out stands alone. -/
theorem filter_eq_singleton {α : Type} {q : α → Bool} {a : α} :
    ∀ {l : List α}, l.Nodup → a ∈ l → q a = true → (∀ b ∈ l, q b = true → b = a) →
      l.filter q = [a]
  | b :: l, hnd, ha, hq, huniq => by
    obtain ⟨hb, hnd⟩ := List.nodup_cons.mp hnd
    have hl : ∀ c ∈ l, q c = true → c = a := fun c hc => huniq c (List.mem_cons_of_mem _ hc)
    rcases List.mem_cons.mp ha with rfl | ha
    · have hnone : l.filter q = [] :=
        List.filter_eq_nil_iff.mpr fun c hc hqc => hb (hl c hc hqc ▸ hc)
      rw [List.filter_cons_of_pos hq, hnone]
    · have hqb : ¬ q b = true := fun hqb => hb (huniq b List.mem_cons_self hqb ▸ ha)
      rw [List.filter_cons_of_neg hqb, filter_eq_singleton hnd ha hq hl]

theorem Written.name_eq {cx : ConvertContext} {shapes : Entries (List Int)} {n : Node} {r : Record}
    (h : Written cx shapes n r) : r.name = n.name := by
  obtain ⟨_, _, layer, -, -, -, rfl⟩ := h
  exact layer.record_name n

/-- **The document of a fused graph**: its records are those of the graph that a fusion with a
balanced ledger has left. -/
structure Documented (format : ModelFormat) (shapes : Entries (List Int)) (g₀ g : Graph)
    (records : List Record) : Prop where
  before : g₀.Distinct
  distinct : g.Distinct
  ledger : Graph.Ledger ⟨format, .standard, {}⟩ g₀ g
  written : List.Forall₂ (fun n r => Written { format } shapes n r.unlinked) g.live records

namespace Documented

variable {format : ModelFormat} {shapes : Entries (List Int)} {g₀ g : Graph} {records : List Record}
  {i t : Nat} {n m : Node} {r s : Record} {c : Contribution} {key x : String} {v : Json}

section Records

variable (h : Documented format shapes g₀ g records)

include h

theorem exists_node (hr : r ∈ records) :
    ∃ t m, g.LiveAt t m ∧ Written { format } shapes m r.unlinked := by
  obtain ⟨m, hm, hw⟩ := exists_mem_of_forall₂ h.written.flip hr
  obtain ⟨t, ht⟩ := Graph.mem_live.mp hm
  exact ⟨t, m, ht, hw⟩

theorem exists_record (hm : g.LiveAt t m) :
    ∃ r ∈ records, Written { format } shapes m r.unlinked :=
  exists_mem_of_forall₂ h.written (Graph.mem_live.mpr ⟨t, hm⟩)

theorem names_nodup : (records.map Record.name).Nodup := by
  have hnames : g.live.map Node.name = records.map Record.name := by
    rw [← List.forall₂_eq_eq_eq, List.forall₂_map_left_iff, List.forall₂_map_right_iff]
    exact h.written.imp fun n r hw => hw.name_eq.symm
  rw [← hnames]
  exact h.distinct.names_live

theorem eq_of_name (hr : r ∈ records) (hs : s ∈ records) (hname : r.name = s.name) : r = s :=
  List.inj_on_of_nodup_map h.names_nodup hr hs hname

/-- **A node that is left has a record of its own.** -/
theorem ownRecord (hn : g₀.LiveAt i n) (hi : i ∈ g.liveIds) : OwnRecord records n := by
  obtain ⟨m, hm⟩ := Graph.mem_liveIds.mp hi
  obtain ⟨n', hn', hb⟩ := h.ledger.kept i m hm
  obtain rfl := hn.unique hn'
  obtain ⟨r, hr, hw⟩ := h.exists_record hm
  have hname : r.name = n.name := hw.name_eq.trans (Node.name_of_bare hb)
  refine ⟨r, filter_eq_singleton h.names_nodup.of_map hr (by simpa using hname) fun s hs hq => ?_⟩
  exact h.eq_of_name hs hr ((by simpa using hq : s.name = n.name).trans hname.symm)

/-- **A node that is gone has no record.** -/
theorem unrecorded (hn : g₀.LiveAt i n) (hi : i ∉ g.liveIds) : Unrecorded records n := by
  intro r hr hname
  obtain ⟨t, m, hm, hw⟩ := h.exists_node hr
  obtain ⟨n', hn', hb⟩ := h.ledger.kept t m hm
  have heq : n.name = n'.name := by
    rw [← hname, ← Node.name_of_bare hb]
    exact hw.name_eq
  -- names tell the nodes apart, so the record's node would be this one
  obtain rfl := h.before.eq_of_name hn.1 hn'.1 heq
  exact hi (Graph.mem_liveIds.mpr ⟨m, hm⟩)

/-- **What is held comes from a node without a record**, by leave of the policy. -/
theorem exists_source (hm : g.LiveAt t m) (hc : m.Holds c) :
    ∃ i n, g₀.LiveAt i n ∧ i ∉ g.liveIds ∧ n.Offers ⟨format, .standard, {}⟩ c ∧
      FusionPolicy.standard.allows format n.opType m.opType = true :=
  h.ledger.sources t m c hm hc

/-- A node that holds something was read as a layer that tells of it. -/
theorem exists_layer (hm : g.LiveAt t m) (hw : Written { format } shapes m r.unlinked) :
    ∃ family n layer, n.bare = m.bare ∧ Family.ofOp? format m.opType = some family ∧
      Layer.read (({ format } : ConvertContext).layer shapes) family n = .ok layer ∧
      r.unlinked = (layer.record m).unlinked ∧ layer.isCustom = false ∧
      (layer.carriesActivation = true ∨ m.absorbed.activation = none) ∧
      (layer.carriesNorm = true ∨ m.absorbed.norm = none) := by
  obtain ⟨family, n, layer, hb, hf, hread, hr⟩ := hw
  have hop : Family.ofOp? format m.opType = some family := Family.resolve_eq_ok_iff.mp hf
  obtain ⟨hact, hnorm, hcustom⟩ := Layer.carries_of_read hread
  have hbuilt : layer.isCustom = false := hcustom.trans (Family.isCustom_of_ofOp? hop)
  refine ⟨family, n, layer, hb, hop, hread, hr, hbuilt, ?_, ?_⟩
  · cases ha : m.absorbed.activation with
    | none => exact Or.inr rfl
    | some a =>
      obtain ⟨i, l, -, -, -, hallow⟩ := h.exists_source (c := .activation a) hm ha
      exact Or.inl (hact.trans (FusionPolicy.carries_of_allows_standard hallow hop).1)
  · cases ha : m.absorbed.norm with
    | none => exact Or.inr rfl
    | some p =>
      obtain ⟨i, l, -, -, hoff, hallow⟩ := h.exists_source (c := .norm p) hm ha
      have hcarries := (FusionPolicy.carries_of_allows_standard hallow hop).2.1 hoff.of_norm.1
      exact Or.inl (hnorm.trans hcarries)

/-- **A record names what its node holds**, and nothing else. -/
theorem field?_eq_some_iff (hm : g.LiveAt t m) (hw : Written { format } shapes m r.unlinked)
    (hkey : key = "act_name" ∨ key = "bn_name") :
    r.field? key = some v ↔ ∃ c : Contribution, c.key = key ∧ m.Holds c ∧ v = .str c.source := by
  obtain ⟨_, _, layer, -, -, -, hr, hcustom, hact, hnorm⟩ := h.exists_layer hm hw
  have hfield : ∀ key, r.field? key = (layer.record m).field? key := by
    intro key
    have hunlinked : r.unlinked.field? key = (layer.record m).unlinked.field? key := by rw [hr]
    exact hunlinked
  rcases hkey with rfl | rfl
  · rw [hfield, Layer.field?_act_name hcustom hact, Option.map_eq_some_iff]
    constructor
    · rintro ⟨a, ha, rfl⟩
      exact ⟨.activation a, rfl, ha, rfl⟩
    · rintro ⟨c, hc, hh, rfl⟩
      obtain ⟨a, rfl⟩ := Contribution.exists_of_act_name hc
      exact ⟨a, hh, rfl⟩
  · rw [hfield, Layer.field?_bn_name hcustom hnorm, Option.map_eq_some_iff]
    constructor
    · rintro ⟨p, hp, rfl⟩
      exact ⟨.norm p, rfl, hp, rfl⟩
    · rintro ⟨c, hc, hh, rfl⟩
      obtain ⟨p, rfl⟩ := Contribution.exists_of_bn_name hc
      exact ⟨p, hh, rfl⟩

/-- A record that names something as its node holds it. -/
theorem exists_holder (hr : r ∈ records) (hkey : key = "act_name" ∨ key = "bn_name")
    (hv : r.field? key = some v) :
    ∃ t m c, g.LiveAt t m ∧ r.name = m.name ∧ c.key = key ∧ m.Holds c ∧ v = .str c.source := by
  obtain ⟨t, m, hm, hw⟩ := h.exists_node hr
  obtain ⟨c, hc, hh, hs⟩ := (h.field?_eq_some_iff hm hw hkey).mp hv
  exact ⟨t, m, c, hm, hw.name_eq, hc, hh, hs⟩

/-- **What a record names is a node that has no record.** -/
theorem exists_named (hr : r ∈ records) (hkey : key = "act_name" ∨ key = "bn_name")
    (hv : r.field? key = some v) :
    ∃ n ∈ g₀.live, ∃ c : Contribution, c.key = key ∧ n.Offers ⟨format, .standard, {}⟩ c ∧
      Unrecorded records n ∧ v = .str n.name := by
  obtain ⟨t, m, c, hm, -, hc, hh, rfl⟩ := h.exists_holder hr hkey hv
  obtain ⟨i, n, hn, hi, hoff, -⟩ := h.exists_source hm hh
  exact ⟨n, Graph.mem_live.mpr ⟨i, hn⟩, c, hc, hoff, h.unrecorded hn hi, by rw [hoff.source_eq]⟩

/-- The contribution of a node is held by one node only, and one record tells of it. -/
theorem eq_of_text? (hn : g₀.LiveAt i n) (hc : n.Offers ⟨format, .standard, {}⟩ c)
    (hm : g.LiveAt t m) (hh : m.Holds c) (hs : s ∈ records)
    (hkey : key = "act_name" ∨ key = "bn_name") (htext : s.text? key = some n.name) :
    s.name = m.name := by
  obtain ⟨v, hv, hstr⟩ := Option.bind_eq_some_iff.mp htext
  obtain ⟨t', m', c', hm', hname, -, hh', rfl⟩ := h.exists_holder hs hkey hv
  obtain ⟨i', l, hl, -, hoff, -⟩ := h.exists_source hm' hh'
  -- both contributions come from the node of that name
  have hsource : l.name = n.name := hoff.source_eq.symm.trans (Option.some.inj hstr)
  obtain rfl := h.before.eq_of_name hl.1 hn.1 hsource
  obtain rfl := hl.unique hn
  obtain rfl := hoff.unique hc
  obtain rfl := h.ledger.unique t' t m' m c' hm' hm hh' hh
  obtain rfl := hm'.unique hm
  exact hname

/-- **A node that is left is named by no other record.** -/
theorem unnamed (hn : g₀.LiveAt i n) (hi : i ∈ g.liveIds)
    (hkey : key = "act_name" ∨ key = "bn_name") : Unnamed records key n := by
  intro r hr htext
  obtain ⟨v, hv, hstr⟩ := Option.bind_eq_some_iff.mp htext
  obtain ⟨l, -, c, -, -, hun, rfl⟩ := h.exists_named hr hkey hv
  have hname : l.name = n.name := Option.some.inj hstr
  -- what is named has no record, but this node has one
  obtain ⟨own, hown⟩ := h.ownRecord hn hi
  obtain ⟨hmem, heq⟩ := List.mem_filter.mp (hown ▸ List.mem_singleton_self own)
  exact hun own hmem ((of_decide_eq_true heq).trans hname.symm)

/-- **What a node offered and another one holds** is named by the record of that one. -/
theorem namedOnce {P : Record → Prop} (hn : g₀.LiveAt i n)
    (hc : n.Offers ⟨format, .standard, {}⟩ c) (hm : g.LiveAt t m) (hh : m.Holds c)
    (hkey : c.key = "act_name" ∨ c.key = "bn_name")
    (hP : ∀ r, Written { format } shapes m r.unlinked → P r) :
    NamedOnce records c.key n P := by
  obtain ⟨r, hr, hw⟩ := h.exists_record hm
  have hfield : r.field? c.key = some (.str c.source) :=
    (h.field?_eq_some_iff hm hw hkey).mpr ⟨c, rfl, hh, rfl⟩
  have htext : r.text? c.key = some n.name := by
    rw [Record.text?, hfield, ← hc.source_eq]
    rfl
  refine ⟨r, filter_eq_singleton h.names_nodup.of_map hr (by simpa using htext) fun s hs hq => ?_,
    hP r hw⟩
  have hs' : s.name = m.name := h.eq_of_text? hn hc hm hh hs hkey (by simpa using hq)
  exact h.eq_of_name hs hr (hs'.trans hw.name_eq.symm)

/-- **A node that may be absorbed is told of once**: if it is left, by its own record alone, and if
it is gone, by that of the node that holds what it offered. -/
theorem toldOnce {P : Record → Prop} (hn : g₀.LiveAt i n)
    (hdrop : Family.ofOp? format n.opType ≠ some .dropout)
    (hkey : key = "act_name" ∨ key = "bn_name")
    (hoff : ∀ c, n.Offers ⟨format, .standard, {}⟩ c → c.key = key)
    (hP : ∀ c t m r, n.Offers ⟨format, .standard, {}⟩ c → g.LiveAt t m → m.Holds c →
      Written { format } shapes m r.unlinked → P r) :
    ToldOnce records key n P := by
  by_cases hi : i ∈ g.liveIds
  · exact Or.inl ⟨h.ownRecord hn hi, h.unnamed hn hi hkey⟩
  · refine Or.inr ⟨h.unrecorded hn hi, ?_⟩
    rcases h.ledger.removed i n hn hi with hf | ⟨c, hc, t, m, hm, hh⟩
    · exact absurd (Family.resolve_eq_ok_iff.mp hf) hdrop
    · obtain rfl := hoff c hc
      exact h.namedOnce hn hc hm hh hkey fun r hw => hP c t m r hc hm hh hw

/-- The record of a node that holds an activation tells its name and its parameter. -/
theorem field?_of_activation {a : ActivationPart} (hm : g.LiveAt t m)
    (hw : Written { format } shapes m r.unlinked) (ha : m.Holds (.activation a)) :
    r.field? "activation" = some (.str a.name) ∧
      ∀ x, a.alpha = some x → r.field? "alpha" = some (Json.ofSingle x) := by
  obtain ⟨_, _, layer, -, -, -, hr, -, hact, -⟩ := h.exists_layer hm hw
  have hcarries : layer.carriesActivation = true := hact.resolve_right fun hnone => by
    rw [Node.Holds, hnone] at ha
    cases ha
  have hfield : ∀ key, r.unlinked.field? key = (layer.record m).unlinked.field? key := fun key => by
    rw [hr]
  exact ⟨(hfield _).trans (Layer.field?_activation hcarries ha),
    fun x hx => (hfield _).trans (Layer.field?_alpha hcarries ha hx)⟩

/-- The record of a node that holds a batch normalization has its data. -/
theorem norm_of_norm {p : NormPart} (hm : g.LiveAt t m)
    (hw : Written { format } shapes m r.unlinked) (hp : m.Holds (.norm p)) :
    r.norm = some p.params := by
  obtain ⟨_, _, layer, -, -, -, hr, -, -, hnorm⟩ := h.exists_layer hm hw
  have hcarries : layer.carriesNorm = true := hnorm.resolve_right fun hnone => by
    rw [Node.Holds, hnone] at hp
    cases hp
  have hrecord : r.unlinked.norm = (layer.record m).unlinked.norm := by rw [hr]
  refine hrecord.trans ((Layer.norm_record hcarries).trans ?_)
  rw [show m.absorbed.norm = some p from hp]
  rfl

/-- **A matrix product keeps its scaling**: it absorbs no activation with a parameter. -/
theorem field?_gemm (hr : r ∈ records) (htype : r.type = "Gemm") :
    ∃ n ∈ g₀.live, n.name = r.name ∧ n.opType = "Gemm" ∧
      r.field? "alpha" = (n.attrs.float? "alpha").map Json.ofSingle := by
  obtain ⟨t, m, hm, hw⟩ := h.exists_node hr
  obtain ⟨family, n', layer, hb', hop, hread, hrec, hcustom, -, -⟩ := h.exists_layer hm hw
  have htype' : r.unlinked.type = (layer.record m).unlinked.type := by rw [hrec]
  obtain ⟨d, rfl, hd⟩ := Layer.exists_dense_of_type hcustom (htype'.symm.trans htype)
  obtain ⟨hfamily, hread⟩ := Layer.of_read_dense hread
  obtain ⟨hformat, halpha⟩ := DenseLayer.of_read hread hd
  obtain rfl : format = .onnx := hformat
  obtain ⟨rfl, hgemm⟩ := Family.eq_gemm_of_onnx hop hfamily
  obtain ⟨n, hn, hb⟩ := h.ledger.kept t m hm
  have hattrs : n'.attrs = n.attrs := Node.attrs_of_bare (hb'.trans hb)
  -- an activation with a parameter would have been refused by the policy
  have hnone : (m.absorbed.activation.bind fun a => a.alpha.map Json.ofSingle) = none := by
    cases ha : m.absorbed.activation with
    | none => rfl
    | some a =>
      obtain ⟨_, l, -, -, hoff, hallow⟩ := h.exists_source (c := .activation a) hm ha
      have hleaky := ((FusionPolicy.carries_of_allows_standard hallow hop).2.2 rfl).2
      simp [hoff.of_activation.2.alpha_eq_none hleaky]
  have hfield : r.unlinked.field? "alpha" = ((Layer.dense d).record m).unlinked.field? "alpha" := by
    rw [hrec]
  refine ⟨n, Graph.mem_live.mpr ⟨t, hn⟩, ?_, Node.opType_of_bare hb ▸ hgemm, ?_⟩
  · rw [← Node.name_of_bare hb]
    exact hw.name_eq.symm
  · refine hfield.trans ((Layer.field?_dense_alpha d m).trans ?_)
    rw [hnone, Option.none_or, if_pos hd, halpha, hattrs]

/-- **A dropout has no record**, since no layer is read from one. -/
theorem unrecorded_of_dropout (hn : g₀.LiveAt i n)
    (hf : Family.ofOp? format n.opType = some .dropout) : Unrecorded records n := by
  refine h.unrecorded hn fun hlive => ?_
  obtain ⟨m, hm⟩ := Graph.mem_liveIds.mp hlive
  obtain ⟨r, -, hw⟩ := h.exists_record hm
  obtain ⟨n', hn', hb⟩ := h.ledger.kept i m hm
  obtain rfl := hn.unique hn'
  obtain ⟨family, _, layer, -, hop, hread, -⟩ := h.exists_layer hm hw
  rw [Node.opType_of_bare hb, hf] at hop
  obtain rfl := Option.some.inj hop
  cases hread

/-- **A node that cannot be absorbed has a record of its own.** -/
theorem ownRecord_of_not_mem (hn : g₀.LiveAt i n)
    (hf : Family.ofOp? format n.opType ∉ [some .activation, some .batchNorm, some .dropout]) :
    OwnRecord records n := by
  refine h.ownRecord hn (by_contra fun hgone => hf ?_)
  rcases h.ledger.removed i n hn hgone with hdrop | ⟨c, hc, -⟩
  · simp [Family.resolve_eq_ok_iff.mp hdrop]
  · cases c with
    | activation a => simp [hc.of_activation.1]
    | norm p => simp [hc.of_norm.1]

/-- **The records of a fused graph account for the nodes that there were.** -/
theorem accounted : Accounted format g₀.live records where
  dropout := by
    intro n hn hf
    obtain ⟨i, hi⟩ := Graph.mem_live.mp hn
    exact h.unrecorded_of_dropout hi hf
  other := by
    intro n hn hf
    obtain ⟨i, hi⟩ := Graph.mem_live.mp hn
    exact h.ownRecord_of_not_mem hi hf
  activation := by
    intro n hn hf
    obtain ⟨i, hi⟩ := Graph.mem_live.mp hn
    refine h.toldOnce hi (by simp [hf]) (Or.inl rfl) (fun c hc => ?_) fun c t m r hc hm hh hw => ?_
    · obtain ⟨a, rfl⟩ := hc.exists_activation hf
      rfl
    · obtain ⟨a, rfl⟩ := hc.exists_activation hf
      exact ⟨a.name, a.alpha, hc.of_activation.2, h.field?_of_activation hm hw hh⟩
  batchNorm := by
    intro n hn hf
    obtain ⟨i, hi⟩ := Graph.mem_live.mp hn
    refine h.toldOnce hi (by simp [hf]) (Or.inr rfl) (fun c hc => ?_) fun c t m r hc hm hh hw => ?_
    · obtain ⟨p, rfl⟩ := hc.exists_norm hf
      rfl
    · obtain ⟨p, rfl⟩ := hc.exists_norm hf
      exact ⟨p.params, h.norm_of_norm hm hw hh, hc.of_norm.2⟩
  actNames := by
    intro r hr v hv
    obtain ⟨n, hn, c, hc, hoff, hun, rfl⟩ := h.exists_named hr (Or.inl rfl) hv
    obtain ⟨a, rfl⟩ := Contribution.exists_of_act_name hc
    exact ⟨n, hn, hoff.of_activation.1, hun, rfl⟩
  normNames := by
    intro r hr v hv
    obtain ⟨n, hn, c, hc, hoff, hun, rfl⟩ := h.exists_named hr (Or.inr rfl) hv
    obtain ⟨p, rfl⟩ := Contribution.exists_of_bn_name hc
    exact ⟨n, hn, hoff.of_norm.1, hun, rfl⟩
  gemm := fun r hr htype => h.field?_gemm hr htype

end Records

end Documented

/-- **A conversion documents a fused graph**, by the standard policy and without custom objects,
if nothing was absorbed before. -/
theorem documented_of_convert {format : ModelFormat} {nodes : List Node}
    {shapes : Entries (List Int)} {doc : Document} (hfresh : ∀ n ∈ postorder nodes, n.absorbed = {})
    (h : convert { format } nodes shapes = .ok doc) :
    ∃ g, normalize format nodes = .ok g ∧ (∀ n ∈ (g.reclassify format).nodes, n.absorbed = {}) ∧
      Documented format shapes (g.reclassify format)
        ((g.reclassify format).fuse ⟨format, .standard, {}⟩).1 doc.records := by
  obtain ⟨g, g', k, hg, hfuse, hw⟩ := forall₂_written_of_convert h
  have hempty := absorbed_of_mem_reclassify hfresh hg
  have hd : (g.reclassify format).Distinct :=
    (distinct_of_normalize hg).reclassify
  have hg' : ((g.reclassify format).fuse ⟨format, .standard, {}⟩).1 = g' := congrArg Prod.fst hfuse
  refine ⟨g, hg, hempty, hd, hd.fuseFrom _, ?_, ?_⟩
  · exact Graph.Ledger.of_fuseFrom (fun n hn => hempty n (List.mem_of_mem_filter hn)) hd
      (FusionContext.terminal_standard format) _
  · rw [hg']
    exact hw

/-- **Nothing that fusion removes is lost**: in a conversion by the standard policy and without
custom objects, from a list of nodes that have absorbed nothing yet, the records account for all
nodes of the reclassified normal form. -/
theorem convert_accounted {format : ModelFormat} {nodes : List Node} {shapes : Entries (List Int)}
    {doc : Document} (hfresh : ∀ n ∈ postorder nodes, n.absorbed = {})
    (h : convert { format } nodes shapes = .ok doc) :
    ∃ g, normalize format nodes = .ok g ∧
      Accounted format (g.reclassify format).live doc.records := by
  obtain ⟨g, hg, -, hdoc⟩ := documented_of_convert hfresh h
  exact ⟨g, hg, hdoc.accounted⟩

/-- A convolution with a batch normalization and a leaky rectifier, a dropout in between. -/
def leakyChain : List Node := [
  { name := "in", opType := "InputLayer", inbound := some [] },
  { name := "conv", opType := "Conv2D", weights := [("kernel", ⟨[1, 1, 1, 1], [.zero]⟩)] },
  { name := "norm", opType := "BatchNormalization",
    weights := [("gamma", ⟨[1], [.ofInt 2]⟩), ("beta", ⟨[1], [.ofInt 3]⟩),
      ("moving_mean", ⟨[1], [.ofInt 5]⟩), ("moving_variance", ⟨[1], [.ofInt 7]⟩)] },
  { name := "drop", opType := "Dropout" },
  { name := "leaky", opType := "LeakyReLU" },
  { name := "flat", opType := "Flatten" }]

/-- The records of the chain account for all of its nodes: that of the convolution has the parameters
of the batch normalization, and the leaky rectifier with the slope 0.3. -/
theorem convert_leakyChain_accounted :
    (∀ n ∈ postorder leakyChain, n.absorbed = {}) ∧
      ∃ doc, convert { format := .keras } leakyChain [] = .ok doc ∧
        (∃ g, normalize .keras leakyChain = .ok g ∧
          Accounted .keras (g.reclassify .keras).live doc.records) ∧
        doc.records.map (fun r => (r.name, r.text? "bn_name", r.text? "act_name")) =
          [("in", none, none), ("conv", some "norm", some "leaky"), ("flat", none, none)] ∧
        ∃ r ∈ doc.records, r.name = "conv" ∧
          r.norm = some ⟨some [.ofInt 2], some [.ofInt 3], some [.ofInt 5], some [.ofInt 7]⟩ ∧
          r.text? "activation" = some "leakyRelu" ∧
          (r.field? "alpha").bind Json.double? = some (.ofRatio false 3 10) := by
  have hfresh : ∀ n ∈ postorder leakyChain, n.absorbed = {} := by decide
  have hnames : ((convert { format := .keras } leakyChain []).toOption.map fun doc =>
      doc.records.map fun r => (r.name, r.text? "bn_name", r.text? "act_name")) =
      some [("in", none, none), ("conv", some "norm", some "leaky"), ("flat", none, none)] := by
    decide
  have hconv : ((convert { format := .keras } leakyChain []).toOption.bind fun doc =>
      doc.records[1]?.map fun r => (r.name, r.norm, r.text? "activation",
        (r.field? "alpha").bind Json.double?)) =
      some ("conv", some ⟨some [.ofInt 2], some [.ofInt 3], some [.ofInt 5], some [.ofInt 7]⟩,
        some "leakyRelu", some (.ofRatio false 3 10)) := by decide
  obtain ⟨doc, hdoc, hrecords⟩ := exists_ok_of_toOption_map hnames
  rw [hdoc] at hconv
  obtain ⟨r, hr, heq⟩ := Option.map_eq_some_iff.mp (hconv : doc.records[1]?.map _ = _)
  simp only [Prod.mk.injEq] at heq
  obtain ⟨hname, hnorm, hact, halpha⟩ := heq
  exact ⟨hfresh, doc, hdoc, convert_accounted hfresh hdoc, hrecords, r, List.mem_of_getElem? hr,
    hname, hnorm, hact, halpha⟩

end LayerGraph
