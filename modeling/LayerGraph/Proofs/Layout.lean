import LayerGraph.Proofs.Account
import LayerGraph.Proofs.Unambiguous

/-!
# What a record tells of its arrays

A record without its arrays still tells which of them it has. Only layers with a kernel and batch
normalizations on their own have any, and they are known by the type; the fields `useBias` and
`useBatchNormalization` tell whether there are a bias and an absorbed batch normalization
(`LayerGraph.Record.TellsArrays`). This holds of every record of a document
(`LayerGraph.tellsArrays_of_convert`), if no custom layer is written under a type that is not its
own. Records that are written the same without arrays therefore have arrays of the same kinds
(`LayerGraph.Record.TellsArrays.sameKinds`).

Not told is how long the arrays are, and which of its parameters a batch normalization has.
-/

namespace LayerGraph

/-- The types of layers with a kernel. -/
def kernelTypes : List String := ["Conv2D", "DepthwiseConv2D", "Conv2DTranspose", "Dense", "Gemm"]

/-- The types of records with arrays. -/
def arrayTypes : List String := "BatchNormalization" :: kernelTypes

namespace Record

variable {r s : Record}

/-- **A record that tells which arrays it has**, by its type and its fields. -/
structure TellsArrays (r : Record) : Prop where
  kernel : r.weights.isSome = decide (r.type ∈ kernelTypes)
  bias : ∀ w, r.weights = some w → r.field? "useBias" = some (.str (engineBool w.bias.isSome))
  absorbed : r.type ∈ kernelTypes →
    r.field? "useBatchNormalization" = some (.str (engineBool r.norm.isSome))
  norm : r.type ∉ kernelTypes → r.norm.isSome = decide (r.type = "BatchNormalization")

theorem tellsArrays_of_kernel {w : KernelWeights} (ht : r.type ∈ kernelTypes)
    (hw : r.weights = some w)
    (hbias : r.field? "useBias" = some (.str (engineBool w.bias.isSome)))
    (hnorm : r.field? "useBatchNormalization" = some (.str (engineBool r.norm.isSome))) :
    r.TellsArrays where
  kernel := by simp [hw, ht]
  bias w' hw' := by
    obtain rfl := Option.some.inj (hw.symm.trans hw')
    exact hbias
  absorbed _ := hnorm
  norm hnot := absurd ht hnot

/-- A record without arrays tells so by its type. -/
theorem tellsArrays_of_type_not_mem (ht : r.type ∉ arrayTypes) (hw : r.weights = none)
    (hn : r.norm = none) : r.TellsArrays := by
  rw [arrayTypes, List.mem_cons, not_or] at ht
  exact {
    kernel := by simp [hw, ht.2]
    bias := fun w hw' => nomatch hw.symm.trans hw'
    absorbed := fun hmem => absurd hmem ht.2
    norm := fun _ => by simp [hn, ht.1] }

/-- What a record tells does not depend on its links. -/
theorem TellsArrays.of_unlinked (h : s.TellsArrays) (hr : r.unlinked = s.unlinked) :
    r.TellsArrays := by
  have hs : s.unlinked.TellsArrays := ⟨h.kernel, h.bias, h.absorbed, h.norm⟩
  rw [← hr] at hs
  exact ⟨hs.kernel, hs.bias, hs.absorbed, hs.norm⟩

end Record

/-! ### The records of layers -/

section Absorbed

variable (n : Node) (own : Option String)

theorem lastField?_absorbedFields_useBatchNormalization :
    lastField? "useBatchNormalization" (n.absorbedFields own) =
      some (.str (engineBool n.absorbedParams.isSome)) := by
  cases h : n.absorbed.activation <;>
    simp [Node.absorbedFields, Node.absorbedParams, h, lastField?]

theorem lastField?_absorbedFields_useBias : lastField? "useBias" (n.absorbedFields own) = none := by
  cases h : n.absorbed.activation <;> simp [Node.absorbedFields, h, lastField?]

end Absorbed

namespace Layer

variable {cx : LayerContext} {family : Family} {n : Node} {l : Layer}

/-- A layer that has the arrays of its family and, if it is a custom one, is not written as if it
had any. -/
def Furnished : Layer → Prop
  | .conv l => l.weights.isSome
  | .dense l => l.weights.isSome
  | .norm p => p.isSome
  | .custom d _ => d.recordType ∉ arrayTypes
  | _ => True

/-- **A layer that was read is furnished.** -/
theorem furnished_of_read (hcustom : ∀ d, family = .custom d → d.recordType ∉ arrayTypes)
    (h : read cx family n = .ok l) : l.Furnished := by
  have hconv : ∀ kind, (ConvLayer.read cx kind n).map conv = .ok l → l.Furnished := by
    intro kind h
    obtain ⟨k, hk, rfl⟩ := exists_ok_of_map h
    exact ConvLayer.isSome_weights_of_read hk
  have hdense : (DenseLayer.read cx n).map dense = .ok l → l.Furnished := by
    intro h
    obtain ⟨k, hk, rfl⟩ := exists_ok_of_map h
    exact DenseLayer.isSome_weights_of_read hk
  cases family with
  | conv => exact hconv .standard h
  | depthwiseConv => exact hconv .depthwise h
  | transposedConv => exact hconv .transposed h
  | dense => exact hdense h
  | gemm => exact hdense h
  | batchNorm =>
    obtain ⟨p, -, rfl⟩ := exists_ok_of_map h
    rfl
  | custom d =>
    obtain rfl := Except.ok.inj h
    exact hcustom d rfl
  | sequential => cases h
  | dropout => cases h
  | _ =>
    obtain rfl := Except.ok.inj h
    trivial

/-- **The record of a furnished layer tells which arrays it has.** -/
theorem Furnished.tellsArrays (h : l.Furnished) (n : Node) : (l.record n).TellsArrays := by
  cases l with
  | conv l =>
    obtain ⟨w, hw⟩ := Option.isSome_iff_exists.mp h
    have htype : l.kind.recordType ∈ kernelTypes := by cases l.kind <;> decide
    refine Record.tellsArrays_of_kernel htype hw ?_ ?_
    · rw [record, ConvLayer.field?_record, lastField?_append, lastField?_absorbedFields_useBias]
      simp [ConvLayer.fields, lastField?, hw]
    · rw [record, ConvLayer.field?_record, lastField?_append,
        lastField?_absorbedFields_useBatchNormalization]
      rfl
  | dense l =>
    obtain ⟨w, hw⟩ := Option.isSome_iff_exists.mp h
    have htype : (if l.gemm then "Gemm" else "Dense") ∈ kernelTypes := by
      cases l.gemm <;> decide
    refine Record.tellsArrays_of_kernel htype hw ?_ ?_
    · rw [record, DenseLayer.field?_record, lastField?_append, lastField?_absorbedFields_useBias]
      cases hg : l.gemm <;> simp [DenseLayer.fields, DenseLayer.scalings, lastField?, hw, hg]
    · rw [record, DenseLayer.field?_record, lastField?_append,
        lastField?_absorbedFields_useBatchNormalization]
      rfl
  | norm p =>
    obtain ⟨p, rfl⟩ := Option.isSome_iff_exists.mp h
    exact {
      kernel := rfl
      bias := fun w hw => absurd hw.symm (Option.some_ne_none w)
      absorbed := fun hmem => absurd hmem (by simp [recordType, kernelTypes])
      norm := fun _ => rfl }
  | pool l =>
    have htype : l.kind.recordType ∉ arrayTypes := by cases l.kind <;> decide
    exact Record.tellsArrays_of_type_not_mem htype rfl rfl
  | custom d fields => exact Record.tellsArrays_of_type_not_mem h rfl rfl
  | _ =>
    refine Record.tellsArrays_of_type_not_mem ?_ rfl rfl
    simp [recordType, arrayTypes, kernelTypes]

end Layer

/-! ### The records of a document -/

/-- The custom layer of an operator is one of the list. -/
theorem CustomObjects.exists_mem_of_resolve {format : ModelFormat} {custom : CustomObjects}
    {op : String} {d : CustomLayer} (h : Family.resolve format custom op = .ok (.custom d)) :
    ∃ e ∈ custom.layers, e.2 = d := by
  rw [Family.resolve] at h
  split at h
  · next family hf =>
    obtain rfl := Except.ok.inj h
    have hbuilt := Family.isCustom_of_ofOp? hf
    cases hbuilt
  · split at h
    · next d' hd =>
      obtain rfl := Family.custom.inj (Except.ok.inj h)
      exact ⟨_, Entries.mem_of_value? hd, rfl⟩
    · cases h

/-- **The records of a document tell which arrays they have**, if no custom layer is written under
the type of a layer with arrays. -/
theorem tellsArrays_of_convert {cx : ConvertContext} {nodes : List Node}
    {shapes : Entries (List Int)} {doc : Document}
    (hcustom : ∀ e ∈ cx.custom.layers, e.2.recordType ∉ arrayTypes)
    (h : convert cx nodes shapes = .ok doc) : ∀ r ∈ doc.records, r.TellsArrays := by
  obtain ⟨g, g', k, -, -, hwritten⟩ := forall₂_written_of_convert h
  intro r hr
  obtain ⟨n, -, family, m, layer, -, hf, hread, hrec⟩ :=
    exists_mem_of_forall₂ hwritten.flip hr
  have hfurnished : layer.Furnished := by
    refine Layer.furnished_of_read (fun d hd => ?_) hread
    obtain ⟨e, he, rfl⟩ := CustomObjects.exists_mem_of_resolve (hd ▸ hf)
    exact hcustom e he
  exact (hfurnished.tellsArrays n).of_unlinked hrec

/-! ### Records of the same text -/

namespace Record

variable {r s : Record}

/-- What is written of the wiring of a record. -/
def wiring (r : Record) : List (String × Sheet) :=
  [("numInputs", nat r.numInputs), ("inputId", .json (Json.ints (r.inputIds.map Int.ofNat))),
    ("inputPlanes", nat r.inputPlanes), ("outputPlanes", nat r.planes)]

/-- What is written of the fields of a record. -/
def fieldSheets (r : Record) : List (String × Sheet) := r.fields.map fun (k, v) => (k, .json v)

/-- What is written of the arrays of a record. -/
def arraySheets (r : Record) : List (String × Sheet) :=
  (r.weights.map fun w => ("weights", w.sheet)).toList ++
    (r.norm.map fun p => ("batchNormalization", p.sheet)).toList

theorem members_false (r : Record) : r.members false =
    ("name", .json (.str r.name)) :: ("type", .json (.str r.type)) ::
      (r.fieldSheets ++ r.wiring) := by
  simp [members, fieldSheets, wiring]

theorem members_true (r : Record) : r.members true =
    ("name", .json (.str r.name)) :: ("type", .json (.str r.type)) ::
      (r.fieldSheets ++ (r.arraySheets ++ r.wiring)) := by
  simp [members, fieldSheets, arraySheets, wiring]

/-- **Records that are written the same**, when their arrays are left out. -/
structure Alike (r s : Record) : Prop where
  name : r.name = s.name
  type : r.type = s.type
  fields : Sheet.texts 2 r.fieldSheets = Sheet.texts 2 s.fieldSheets
  wiring : Sheet.texts 2 r.wiring = Sheet.texts 2 s.wiring

/-- The two members that come first are told apart from the others, and the last four. -/
theorem alike_of_chars
    (h : (Sheet.obj (r.members false)).chars 1 = (Sheet.obj (s.members false)).chars 1) :
    r.Alike s := by
  rw [Sheet.chars_obj_eq_iff, members_false, members_false, Sheet.texts_cons, Sheet.texts_cons,
    Sheet.texts_cons, Sheet.texts_cons, Sheet.texts_append, Sheet.texts_append] at h
  obtain ⟨hname, h⟩ := List.cons.inj h
  obtain ⟨htype, h⟩ := List.cons.inj h
  obtain ⟨hfields, hwiring⟩ := List.append_inj' h rfl
  exact ⟨Json.quoted_injective (Prod.mk.inj hname).2, Json.quoted_injective (Prod.mk.inj htype).2,
    hfields, hwiring⟩

/-- With their arrays too, records are written the same if these are the same. -/
theorem Alike.chars_eq (h : r.Alike s) (hw : r.weights = s.weights) (hn : r.norm = s.norm) :
    (Sheet.obj (r.members true)).chars 1 = (Sheet.obj (s.members true)).chars 1 := by
  have harrays : r.arraySheets = s.arraySheets := by rw [arraySheets, arraySheets, hw, hn]
  rw [Sheet.chars_obj_eq_iff, members_true, members_true]
  simp only [Sheet.texts_cons, Sheet.texts_append, h.name, h.type, h.fields, harrays, h.wiring]

/-- Records that are written the same have fields that are written the same. -/
theorem Alike.field?_map (h : r.Alike s) (key : String) :
    (r.field? key).map (Json.indentedChars 2) = (s.field? key).map (Json.indentedChars 2) := by
  have htexts : ∀ r : Record, Entries.value? (Sheet.texts 2 r.fieldSheets) key =
      (r.field? key).map (Json.indentedChars 2) := by
    intro r
    rw [Sheet.texts, fieldSheets, List.map_map, field?, ← Entries.value?_map]
    rfl
  rw [← htexts, ← htexts, h.fields]

/-- A truth value can be told from a field. -/
theorem Alike.engineBool_eq (h : r.Alike s) {key : String} {b c : Bool}
    (hr : r.field? key = some (.str (engineBool b)))
    (hs : s.field? key = some (.str (engineBool c))) : b = c := by
  have htext := h.field?_map key
  rw [hr, hs] at htext
  have hbool : engineBool b = engineBool c := Json.quoted_injective (Option.some.inj htext)
  revert hbool
  cases b <;> cases c <;> decide

/-- **Records with arrays of the same kinds**: a kernel, a bias and a batch normalization are in
both or in none. -/
structure SameKinds (r s : Record) : Prop where
  weights : r.weights.isSome = s.weights.isSome
  bias : ∀ w v, r.weights = some w → s.weights = some v → w.bias.isSome = v.bias.isSome
  norm : r.norm.isSome = s.norm.isSome

/-- **Records that are written the same have arrays of the same kinds**, if they tell. -/
theorem TellsArrays.sameKinds (hr : r.TellsArrays) (hs : s.TellsArrays) (h : r.Alike s) :
    r.SameKinds s where
  weights := by rw [hr.kernel, hs.kernel, h.type]
  bias w v hw hv := h.engineBool_eq (hr.bias w hw) (hs.bias v hv)
  norm := by
    by_cases ht : r.type ∈ kernelTypes
    · exact h.engineBool_eq (hr.absorbed ht) (hs.absorbed (h.type ▸ ht))
    · rw [hr.norm ht, hs.norm (h.type ▸ ht), h.type]

end Record

end LayerGraph
