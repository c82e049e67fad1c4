import LayerGraph.Proofs.CustomObjects
import LayerGraph.Proofs.Layout

/-!
# When a record is written without repeating a key

A document is written as a stream, so nothing keeps a record from having a key twice. Six keys stand
in every record and say what it is and how it is wired (`LayerGraph.Record.frame`); between them are
the fields of its type. The fields of built-in layers have names of their own. A custom layer hands
on whatever its description lists, though, and nothing keeps the description from listing the key of
the type or of the operands (`LayerGraph.Node.ShadowsFrame`).

This is the only way in which a key comes up twice (`LayerGraph.convert_distinctKeys`), and where it
does not, whoever reads the record finds under the six keys what the record is.
-/

namespace LayerGraph

namespace Record

/-- **What every record says of itself**, whatever its type. -/
def frame (r : Record) : List (String × Sheet) :=
  ("name", .json (.str r.name)) :: ("type", .json (.str r.type)) :: r.wiring

def frameKeys : List String :=
  ["name", "type", "numInputs", "inputId", "inputPlanes", "outputPlanes"]

def arrayKeys : List String := ["weights", "batchNormalization"]

variable {r : Record} {n : Node} {type key : String} {ps : List (String × Option Json)}

theorem keys_frame (r : Record) : r.frame.map Prod.fst = frameKeys := rfl

/-- The frame is written around the fields and the arrays. -/
theorem members_perm (r : Record) (embed : Bool) : (r.members embed).Perm
    (r.frame ++ (r.fieldSheets ++ if embed then r.arraySheets else [])) := by
  cases embed with
  | false =>
    rw [members_false, frame, if_neg Bool.false_ne_true, List.append_nil]
    exact ((List.perm_append_comm).cons _).cons _
  | true =>
    rw [members_true, frame, if_pos rfl, ← List.append_assoc]
    exact ((List.perm_append_comm).cons _).cons _

theorem keys_fieldSheets (r : Record) : r.fieldSheets.map Prod.fst = r.fields.map Prod.fst := by
  rw [fieldSheets, List.map_map]
  rfl

theorem keys_arraySheets (r : Record) : (r.arraySheets.map Prod.fst).Sublist arrayKeys := by
  cases hw : r.weights <;> cases hn : r.norm <;> simp [arraySheets, arrayKeys, hw, hn]

theorem frameKeys_disjoint : ∀ key ∈ frameKeys, key ∉ arrayKeys := by decide

theorem not_mem_keys_iff : key ∉ r.fields.map Prod.fst ↔ r.field? key = none :=
  Entries.value?_eq_none_iff.symm

/-- **No key comes up twice** exactly if no field has a key of the frame, as long as the fields are
distinct from each other and from the arrays. -/
theorem nodup_keys_iff (hfields : (r.fields.map Prod.fst).Nodup)
    (harrays : ∀ key ∈ r.arraySheets.map Prod.fst, r.field? key = none) (embed : Bool) :
    ((r.members embed).map Prod.fst).Nodup ↔ ∀ key ∈ frameKeys, r.field? key = none := by
  have hsub : ((if embed then r.arraySheets else []).map Prod.fst).Sublist
      (r.arraySheets.map Prod.fst) := by
    cases embed with
    | false => exact List.nil_sublist _
    | true => exact List.Sublist.refl _
  have hsub' := hsub.trans (keys_arraySheets r)
  rw [((members_perm r embed).map Prod.fst).nodup_iff, List.map_append, List.map_append, keys_frame,
    keys_fieldSheets, List.nodup_append, List.nodup_append]
  constructor
  · rintro ⟨-, -, hne⟩ key hkey
    rw [← not_mem_keys_iff]
    exact fun hmem => hne key hkey key (List.mem_append_left _ hmem) rfl
  · intro h
    refine ⟨by decide, ⟨hfields, hsub'.nodup (by decide), ?_⟩, ?_⟩
    · rintro key hkey _ harray rfl
      exact not_mem_keys_iff.mpr (harrays key (hsub.subset harray)) hkey
    · rintro key hkey _ hmem rfl
      rcases List.mem_append.mp hmem with hmem | hmem
      · exact not_mem_keys_iff.mpr (h key hkey) hmem
      · exact frameKeys_disjoint key hkey (hsub'.subset hmem)

/-- **A reader finds the frame**, if no key comes up twice. -/
theorem mem_members_iff_of_nodup {embed : Bool} (h : ((r.members embed).map Prod.fst).Nodup)
    {e : String × Sheet} (he : e ∈ r.frame) (s : Sheet) :
    (e.1, s) ∈ r.members embed ↔ s = e.2 := by
  have hmem : e ∈ r.members embed := (members_perm r embed).mem_iff.mpr (List.mem_append_left _ he)
  constructor
  · intro hs
    exact congrArg Prod.snd (List.inj_on_of_nodup_map h hs hmem rfl)
  · rintro rfl
    exact hmem

/-- Filling a record keeps its fields distinct. -/
theorem nodup_keys_fill (h : (r.fields.map Prod.fst).Nodup) (ps : List (String × Option Json)) :
    ((r.fill ps).fields.map Prod.fst).Nodup := by
  rw [fill]
  -- the fields that are there before vary in the induction
  generalize r.fields = es at h
  induction ps generalizing es with
  | nil => exact h
  | cons p ps ih =>
    refine ih (Entries.set? es p.1 p.2) ?_
    cases p.2 with
    | none => exact h
    | some v => exact Entries.nodup_keys_set h p.1 v

theorem nodup_keys_record_fill (n : Node) (type : String) (ps : List (String × Option Json)) :
    (((n.record type).fill ps).fields.map Prod.fst).Nodup :=
  nodup_keys_fill (r := n.record type) List.nodup_nil ps

theorem keys_record_fill_subset {keys : List String} (h : ps.map Prod.fst ⊆ keys) :
    ((n.record type).fill ps).fields.map Prod.fst ⊆ keys := by
  intro key hkey
  by_contra hps
  refine not_mem_keys_iff.mpr ?_ hkey
  rw [field?_record_fill, lastField?_of_not_mem fun hmem => hps (h hmem)]

end Record

/-! ### The fields of layers -/

namespace Layer

variable {l : Layer} {n : Node} {key : String}

/-- **The fields of a layer that is not custom are distinct.** -/
theorem nodup_fields (hl : l.isCustom = false) : ((l.record n).fields.map Prod.fst).Nodup := by
  cases l with
  | custom d fields => cases hl
  | flatten => exact List.nodup_nil
  | calculate => exact List.nodup_nil
  | _ => exact Record.nodup_keys_record_fill n _ _

/-- The keys of the fields that built-in layers have. -/
def fieldKeys : List String := [
  "shape", "units", "kernel_size", "strides", "padding", "group", "depth_multiplier", "useBias",
  "useBatchNormalization", "bn_name", "act_name", "activation", "alpha", "beta", "transB",
  "pool_size", "epsilon", "axis", "target_shape", "mode", "pads", "constant_value",
  "interpolation", "scaleFactor"]

theorem keys_absorbedFields_subset (n : Node) (own : Option String) :
    (n.absorbedFields own).map Prod.fst ⊆ fieldKeys := by
  cases h : n.absorbed.activation <;> simp [Node.absorbedFields, h, fieldKeys]

/-- **The fields of a layer that is not custom have keys of their own.** -/
theorem keys_fields_subset (hl : l.isCustom = false) :
    (l.record n).fields.map Prod.fst ⊆ fieldKeys := by
  cases l with
  | custom d fields => cases hl
  | conv l =>
    refine Record.keys_record_fill_subset ?_
    rw [List.map_append]
    exact List.append_subset.mpr
      ⟨by simp [ConvLayer.fields, fieldKeys], keys_absorbedFields_subset n l.activation⟩
  | dense l =>
    refine Record.keys_record_fill_subset ?_
    rw [List.map_append]
    refine List.append_subset.mpr ⟨?_, keys_absorbedFields_subset n l.activation⟩
    cases h : l.gemm <;> simp [DenseLayer.fields, DenseLayer.scalings, h, fieldKeys]
  | flatten => exact List.nil_subset _
  | calculate => exact List.nil_subset _
  | _ => exact Record.keys_record_fill_subset (by simp [fieldKeys])

theorem fieldKeys_disjoint : ∀ key ∈ fieldKeys, key ∉ Record.frameKeys ++ Record.arrayKeys := by
  decide

end Layer

namespace CustomLayer

variable {d : CustomLayer} {custom : CustomObjects} {n : Node} {key : String}

theorem nodup_keys_fields (d : CustomLayer) (custom : CustomObjects) (n : Node) :
    ((d.fields custom n).map Prod.fst).Nodup := by
  have hnil : (([] : Entries Json).map Prod.fst).Nodup := List.nodup_nil
  exact Entries.nodup_keys_setAll hnil _

/-- **The fields of a custom layer** are the attributes that its description lists, as far as the
node has them. -/
theorem mem_keys_fields_iff :
    key ∈ (d.fields custom n).map Prod.fst ↔ key ∈ d.attributes ∧ key ∈ n.attrs.map Prod.fst := by
  have hvalue : (d.fields custom n).value? key =
      if key ∈ d.attributes then (Entries.value? n.attrs key).map custom.resolve else none := by
    have h := Entries.value?_setAll_filterMap []
      (fun k => (Entries.value? n.attrs k).map custom.resolve) d.attributes key
    simpa [fields, Entries.ofList, Option.map_map, Function.comp_def, Entries.value?] using h
  rw [← not_iff_not, ← Entries.value?_eq_none_iff, hvalue, not_and, ← Entries.value?_eq_none_iff]
  simp

end CustomLayer

/-! ### The records of a document -/

/-- **A node whose record repeats a key of the frame**: it is of a custom family, and has an
attribute of such a name, which the description hands on. -/
def Node.ShadowsFrame (cx : ConvertContext) (n : Node) : Prop :=
  ∃ d, Family.resolve cx.format cx.custom n.opType = .ok (.custom d) ∧
    ∃ key ∈ Record.frameKeys, key ∈ d.attributes ∧ key ∈ n.attrs.map Prod.fst

section Written

variable {cx : ConvertContext} {shapes : Entries (List Int)} {nodes : List Node} {doc : Document}
  {n m : Node} {r : Record}

theorem Node.ShadowsFrame.of_bare (h : n.ShadowsFrame cx) (hb : n.bare = m.bare) :
    m.ShadowsFrame cx := by
  rw [ShadowsFrame, ← Node.opType_of_bare hb, ← Node.attrs_of_bare hb]
  exact h

theorem Family.eq_custom_of_isCustom {family : Family} (h : family.isCustom = true) :
    ∃ d, family = .custom d := by
  cases family with
  | custom d => exact ⟨d, rfl⟩
  | _ => cases h

/-- **What is written for a node repeats a key** only if the node shadows the frame. -/
theorem Written.nodup_keys_iff (hw : Written cx shapes n r.unlinked) (embed : Bool) :
    ((r.members embed).map Prod.fst).Nodup ↔ ¬ n.ShadowsFrame cx := by
  obtain ⟨family, m, layer, hb, hf, hread, hrec⟩ := hw
  have hfields : r.fields = (layer.record n).fields := (congrArg Record.fields hrec :)
  have hweights : r.weights = (layer.record n).weights := (congrArg Record.weights hrec :)
  have hnorm : r.norm = (layer.record n).norm := (congrArg Record.norm hrec :)
  cases hcustom : family.isCustom with
  | false =>
    have hlayer : layer.isCustom = false := (Layer.carries_of_read hread).2.2.trans hcustom
    have hnone : ∀ key ∈ Record.frameKeys ++ Record.arrayKeys, r.field? key = none := by
      intro key hkey
      rw [← Record.not_mem_keys_iff, hfields]
      exact fun hmem => Layer.fieldKeys_disjoint key (Layer.keys_fields_subset hlayer hmem) hkey
    rw [Record.nodup_keys_iff (hfields ▸ Layer.nodup_fields hlayer) fun key hkey =>
      hnone key (List.mem_append_right _ ((Record.keys_arraySheets r).subset hkey))]
    refine iff_of_true (fun key hkey => hnone key (List.mem_append_left _ hkey)) ?_
    rintro ⟨d, hd, -⟩
    obtain rfl := Except.ok.inj (hf.symm.trans hd)
    cases hcustom
  | true =>
    obtain ⟨d, rfl⟩ := Family.eq_custom_of_isCustom hcustom
    obtain rfl := Except.ok.inj hread
    have hfields' : r.fields = d.fields cx.custom m := hfields
    have harrays : r.arraySheets = [] := by
      rw [Record.arraySheets, hweights, hnorm]
      rfl
    have hdistinct : (r.fields.map Prod.fst).Nodup :=
      hfields' ▸ CustomLayer.nodup_keys_fields d cx.custom m
    rw [Record.nodup_keys_iff hdistinct fun key hkey =>
      absurd hkey (by rw [harrays]; exact List.not_mem_nil)]
    simp only [← Record.not_mem_keys_iff, hfields', CustomLayer.mem_keys_fields_iff,
      Node.attrs_of_bare hb]
    constructor
    · rintro h ⟨d', hd', key, hkey, hattr⟩
      obtain rfl := Family.custom.inj (Except.ok.inj (hf.symm.trans hd'))
      exact h key hkey hattr
    · exact fun h key hkey hattr => h ⟨d, hf, key, hkey, hattr⟩

/-- **Each record comes from one node** of the reclassified normal form, which is known by its
name. -/
theorem exists_written_of_convert (h : convert cx nodes shapes = .ok doc) :
    ∃ g, normalize cx.format nodes = .ok g ∧ ∀ r ∈ doc.records,
      (∃ n ∈ (g.reclassify cx.format).live, n.name = r.name) ∧
      ∀ n ∈ (g.reclassify cx.format).live, n.name = r.name →
        ∃ m, m.bare = n.bare ∧ Written cx shapes m r.unlinked := by
  obtain ⟨g, g', k, hg, hfuse, hwritten⟩ := forall₂_written_of_convert h
  obtain rfl : ((g.reclassify cx.format).fuse cx.fusion).1 = g' := congrArg Prod.fst hfuse
  refine ⟨g, hg, fun r hr => ?_⟩
  obtain ⟨m, hm, hw⟩ : ∃ m ∈ _, Written cx shapes m r.unlinked :=
    exists_mem_of_forall₂ hwritten.flip hr
  obtain ⟨i, hi⟩ := Graph.mem_live.mp hm
  obtain ⟨n₀, hn₀, hb⟩ := Graph.exists_liveAt_of_fuseFrom hi
  have hname : n₀.name = r.name := (Node.name_of_bare hb).symm.trans hw.name_eq.symm
  refine ⟨⟨n₀, Graph.mem_live.mpr ⟨i, hn₀⟩, hname⟩, fun n hn hnr => ?_⟩
  -- names tell the nodes apart
  obtain ⟨j, hj⟩ := Graph.mem_live.mp hn
  obtain rfl := (distinct_of_normalize hg).reclassify.eq_of_name hj.1 hn₀.1 (hnr.trans hname.symm)
  obtain rfl := hj.unique hn₀
  exact ⟨m, hb, hw⟩

/-- **A record has no key twice, unless a custom layer hands on what is named like a key of the
frame.** Each record comes from one node of the reclassified normal form; with or without its
arrays, it repeats a key exactly if this node shadows the frame. If it does not, what stands under a
key of the frame is what the record says there, and nothing else. -/
theorem convert_distinctKeys (h : convert cx nodes shapes = .ok doc) :
    ∃ g, normalize cx.format nodes = .ok g ∧ ∀ r ∈ doc.records,
      (∃ n ∈ (g.reclassify cx.format).live, n.name = r.name) ∧
      ∀ n ∈ (g.reclassify cx.format).live, n.name = r.name → ∀ embed,
        (((r.members embed).map Prod.fst).Nodup ↔ ¬ n.ShadowsFrame cx) ∧
        (¬ n.ShadowsFrame cx → ∀ e ∈ r.frame, ∀ s, (e.1, s) ∈ r.members embed ↔ s = e.2) := by
  obtain ⟨g, hg, hrecords⟩ := exists_written_of_convert h
  refine ⟨g, hg, fun r hr => ⟨(hrecords r hr).1, fun n hn hname embed => ?_⟩⟩
  obtain ⟨m, hb, hw⟩ := (hrecords r hr).2 n hn hname
  have hshadows : m.ShadowsFrame cx ↔ n.ShadowsFrame cx :=
    ⟨fun h => h.of_bare hb, fun h => h.of_bare hb.symm⟩
  have hiff := (hw.nodup_keys_iff embed).trans (not_congr hshadows)
  exact ⟨hiff, fun hn e he s => Record.mem_members_iff_of_nodup (hiff.mpr hn) he s⟩

/-- The sum and the scaled layer of a document keep their keys apart. -/
theorem convert_upscaledSum_distinctKeys : ∃ doc,
    convert ⟨.keras, .standard, plainObjects⟩ upscaledSum [] = .ok doc ∧ doc.records.length = 3 ∧
      ∀ r ∈ doc.records, ∀ embed, ((r.members embed).map Prod.fst).Nodup ∧
        ∀ s, ("type", s) ∈ r.members embed ↔ s = .json (.str r.type) := by
  have hnorm : normalize .keras upscaledSum = .ok ⟨feedInOrder none (flatten upscaledSum)⟩ := rfl
  have hok : (convert ⟨.keras, .standard, plainObjects⟩ upscaledSum []).toOption.map
      (fun doc => doc.records.length) = some 3 := by decide
  -- the only attribute of a described layer is no key of the frame
  have hattrs : ∀ n ∈ (Graph.reclassify ⟨feedInOrder none (flatten upscaledSum)⟩ .keras).live,
      ∀ key ∈ Record.frameKeys, key ∉ n.attrs.map Prod.fst := by decide
  obtain ⟨doc, hdoc, hlength⟩ := exists_ok_of_toOption_map hok
  refine ⟨doc, hdoc, hlength, fun r hr embed => ?_⟩
  obtain ⟨g, hg, hrecords⟩ := convert_distinctKeys hdoc
  obtain rfl := Except.ok.inj (hnorm.symm.trans hg)
  obtain ⟨⟨n, hn, hname⟩, hkeys⟩ := hrecords r hr
  have hshadows : ¬ n.ShadowsFrame ⟨.keras, .standard, plainObjects⟩ := by
    rintro ⟨d, -, key, hkey, -, hattr⟩
    exact hattrs n hn key hkey hattr
  obtain ⟨hiff, hframe⟩ := hkeys n hn hname embed
  exact ⟨hiff.mpr hshadows, hframe hshadows ("type", .json (.str r.type)) (by simp [Record.frame])⟩

end Written

/-- A description that hands on an attribute with the name of a key of the frame. -/
def mask : CustomLayer := { layerType := "Mask", attributes := ["type"] }

def maskedLayer : List Node := [
  { name := "in", opType := "InputLayer", inbound := some [] },
  { name := "layer", opType := "Mask", attrs := [("type", .str "Dense")] }]

/-- The record of the layer, as it is written. -/
def maskedRecord : Record where
  name := "layer"
  type := "Mask"
  inbounds := ["in"]
  inputIds := [0]
  numInputs := 1
  outputPlanes := some 0
  fields := [("type", .str "Dense")]

/-- **A custom layer can pass for another**: its record has two types, and most readers take the
second. -/
theorem convert_maskedLayer :
    (∃ doc, convert { format := .keras, custom := { layers := [("Mask", mask)] } } maskedLayer [] =
      .ok doc ∧ maskedRecord ∈ doc.records) ∧
    ∀ embed, ¬ ((maskedRecord.members embed).map Prod.fst).Nodup ∧
      ("type", .json (.str "Mask")) ∈ maskedRecord.members embed ∧
      ("type", .json (.str "Dense")) ∈ maskedRecord.members embed := by
  refine ⟨⟨⟨[{ name := "in", type := "InputLayer", outputPlanes := some 0 }, maskedRecord], none⟩,
    rfl, by simp⟩, fun embed => ?_⟩
  cases embed <;> exact ⟨by decide, by simp [Record.members, maskedRecord],
    by simp [Record.members, maskedRecord]⟩

end LayerGraph
