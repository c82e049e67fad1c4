import LayerGraph.Proofs.Bytes
import LayerGraph.Proofs.Layout

/-!
# Documents without their arrays

A document may leave its arrays to a stream of bytes, which has neither lengths nor delimiters. The
bytes determine the sequence of all values (`LayerGraph.Bytes.ofSingles_injective`), and the text
which arrays there are (`LayerGraph.Record.TellsArrays.sameKinds`). What neither of them tells is
the *outline*: where in the stream a kernel ends and its bias begins, and which parameters of a
batch normalization are present, of what length. Documents of the same outline are determined by
text and stream (`LayerGraph.convert_decoupled`); documents of different outlines can be mistaken
for each other (`LayerGraph.decoupled_confused`).
-/

namespace LayerGraph

/-! ### Optional values -/

section Optional

variable {α β : Type} {f : α → β} {x y : Option α}

/-- Two optional values of which none is alone. -/
theorem map_eq_of_isSome (hsome : x.isSome = y.isSome)
    (h : ∀ a b, x = some a → y = some b → f a = f b) : x.map f = y.map f := by
  cases x with
  | none =>
    cases y with
    | none => rfl
    | some b => cases hsome
  | some a =>
    cases y with
    | none => cases hsome
    | some b => exact congrArg some (h a b rfl rfl)

theorem eq_of_map_eq (hmap : x.map f = y.map f)
    (h : ∀ a b, x = some a → y = some b → f a = f b → a = b) : x = y := by
  cases x with
  | none =>
    cases y with
    | none => rfl
    | some b => cases hmap
  | some a =>
    cases y with
    | none => cases hmap
    | some b => exact congrArg some (h a b rfl rfl (Option.some.inj hmap))

end Optional

/-! ### Arrays -/

/-- The arrays of a layer with a kernel, in the order of the stream. -/
def KernelWeights.arrays (w : KernelWeights) : List (List Single) := w.kernel :: w.bias.toList

/-- The lengths of a kernel and its bias. -/
def KernelWeights.outline (w : KernelWeights) : Nat × Option Nat :=
  (w.kernel.length, w.bias.map List.length)

/-- The present parameters of a batch normalization with their lengths. -/
def NormParams.outline (p : NormParams) : List (String × Nat) :=
  p.parts.map fun part => (part.1, part.2.length)

theorem KernelWeights.length_arrays (w : KernelWeights) :
    w.arrays.map List.length = w.outline.1 :: w.outline.2.toList := by
  cases h : w.bias <;> simp [arrays, outline, h]

theorem NormParams.length_parts (p : NormParams) :
    (p.parts.map Prod.snd).map List.length = p.outline.map Prod.snd := by
  rw [outline, List.map_map, List.map_map]
  rfl

theorem KernelWeights.arrays_injective {w v : KernelWeights} (h : w.arrays = v.arrays) : w = v := by
  obtain ⟨hkernel, htail⟩ := List.cons.inj h
  have hbias : w.bias = v.bias := by simpa using congrArg List.head? htail
  obtain ⟨kernel, bias⟩ := w
  obtain ⟨kernel', bias'⟩ := v
  cases hkernel
  cases hbias
  rfl

/-- The batch normalization with some parameters. -/
def NormParams.ofParts (parts : Entries (List Single)) : NormParams :=
  ⟨parts.value? "gamma", parts.value? "beta", parts.value? "moving_mean",
    parts.value? "moving_variance"⟩

/-- The parameters are the values of their names. -/
theorem NormParams.ofParts_parts (p : NormParams) : ofParts p.parts = p := by
  obtain ⟨_ | _, _ | _, _ | _, _ | _⟩ := p <;> rfl

theorem NormParams.parts_injective {p q : NormParams} (h : p.parts = q.parts) : p = q := by
  rw [← ofParts_parts p, h, ofParts_parts]

/-- **A batch normalization is determined by its outline and its values**, in order. -/
theorem NormParams.eq_of_outline {p q : NormParams} (h : p.outline = q.outline)
    (hparts : p.parts.map Prod.snd = q.parts.map Prod.snd) : p = q := by
  have hnames : p.parts.map Prod.fst = q.parts.map Prod.fst := by
    have hfst := congrArg (List.map Prod.fst) h
    rwa [outline, outline, List.map_map, List.map_map] at hfst
  refine parts_injective ?_
  rw [List.zip_of_prod hnames hparts, ← List.zip_of_prod rfl rfl]

namespace Record

variable {r s : Record} {rs ss : List Record}

theorem arrays_eq (r : Record) : r.arrays = (r.weights.map KernelWeights.arrays).getD [] ++
    (r.norm.map fun p => p.parts.map Prod.snd).getD [] := by
  cases hw : r.weights <;> cases hn : r.norm <;> simp [arrays, hw, hn, KernelWeights.arrays]

/-- The lengths of all arrays of a record, each in its place. -/
def outline (r : Record) : Option (Nat × Option Nat) × Option (List (String × Nat)) :=
  (r.weights.map KernelWeights.outline, r.norm.map NormParams.outline)

/-- The outline tells the lengths of the arrays. -/
theorem length_arrays_eq (h : r.outline = s.outline) :
    r.arrays.map List.length = s.arrays.map List.length := by
  have hlengths : ∀ r : Record, r.arrays.map List.length =
      (r.outline.1.map fun o => o.1 :: o.2.toList).getD [] ++
        (r.outline.2.map fun o => o.map Prod.snd).getD [] := by
    intro r
    rw [arrays_eq, List.map_append, outline]
    cases r.weights <;> cases r.norm <;>
      simp [KernelWeights.length_arrays, ← NormParams.length_parts]
  rw [hlengths, hlengths, h]

/-- **A record's weights are determined by its outline and its arrays**, in order. -/
theorem eq_of_arrays (h : r.outline = s.outline) (harrays : r.arrays = s.arrays) :
    r.weights = s.weights ∧ r.norm = s.norm := by
  obtain ⟨hweights, hnorm⟩ := Prod.mk.inj h
  have hlength : ∀ r : Record, ((r.weights.map KernelWeights.arrays).getD []).length =
      ((r.weights.map KernelWeights.outline).map fun o => o.2.toList.length + 1).getD 0 := by
    intro r
    cases r.weights with
    | none => rfl
    | some w => cases hb : w.bias <;> simp [KernelWeights.arrays, KernelWeights.outline, hb]
  rw [arrays_eq, arrays_eq] at harrays
  obtain ⟨hkernels, hparts⟩ := List.append_inj harrays (by rw [hlength, hlength, hweights])
  constructor
  · refine eq_of_map_eq hweights fun w v hw hv _ => KernelWeights.arrays_injective ?_
    rw [hw, hv] at hkernels
    exact hkernels
  · refine eq_of_map_eq hnorm fun p q hp hq houtline => NormParams.eq_of_outline houtline ?_
    rw [hp, hq] at hparts
    exact hparts

/-- **Records of compatible outlines**: where both have a kernel, a bias or a batch normalization,
these are of the same lengths, with the same parameters present. -/
structure SameOutline (r s : Record) : Prop where
  kernel : ∀ w v, r.weights = some w → s.weights = some v → w.kernel.length = v.kernel.length
  bias : ∀ w v b c, r.weights = some w → s.weights = some v → w.bias = some b → v.bias = some c →
    b.length = c.length
  norm : ∀ p q, r.norm = some p → s.norm = some q → p.outline = q.outline

/-- **Arrays of the same kinds and compatible outlines** have one outline. -/
theorem SameOutline.outline_eq (h : r.SameOutline s) (hkinds : r.SameKinds s) :
    r.outline = s.outline := by
  refine Prod.ext (map_eq_of_isSome hkinds.weights fun w v hw hv => ?_)
    (map_eq_of_isSome hkinds.norm h.norm)
  have hbias := map_eq_of_isSome (hkinds.bias w v hw hv) fun b c hb hc => h.bias w v b c hw hv hb hc
  exact Prod.ext (h.kernel w v hw hv) hbias

theorem SameOutline.of_outline_eq (h : r.outline = s.outline) : r.SameOutline s := by
  obtain ⟨hweights, hnorm⟩ := Prod.mk.inj h
  refine ⟨fun w v hw hv => ?_, fun w v b c hw hv hb hc => ?_, fun p q hp hq => ?_⟩
  · rw [hw, hv] at hweights
    exact congrArg Prod.fst (Option.some.inj hweights)
  · rw [hw, hv] at hweights
    have hbias := congrArg Prod.snd (Option.some.inj hweights)
    rw [KernelWeights.outline, KernelWeights.outline, hb, hc] at hbias
    exact Option.some.inj hbias
  · rw [hp, hq] at hnorm
    exact Option.some.inj hnorm

end Record

/-! ### Streams -/

/-- A stream is that of all values in a row. -/
theorem weightStream_eq (rs : List Record) :
    weightStream rs = Bytes.ofSingles (rs.map Record.arrays).flatten.flatten := by
  rw [← Bytes.flatMap_ofSingles, ← List.flatMap_def, List.flatMap_assoc]
  rfl

/-- **A stream determines the arrays**, if their lengths are known. -/
theorem map_arrays_of_weightStream {rs ss : List Record}
    (hlengths : rs.map (fun r => r.arrays.map List.length) =
      ss.map fun r => r.arrays.map List.length)
    (h : weightStream rs = weightStream ss) : rs.map Record.arrays = ss.map Record.arrays := by
  rw [weightStream_eq, weightStream_eq] at h
  have hmaps : (rs.map Record.arrays).map (List.map List.length) =
      (ss.map Record.arrays).map (List.map List.length) := by
    rw [List.map_map, List.map_map]
    exact hlengths
  -- the lengths cut the values into arrays, and their numbers cut the arrays into records
  have harrays : (rs.map Record.arrays).flatten = (ss.map Record.arrays).flatten := by
    refine List.eq_iff_flatten_eq.mpr ⟨Bytes.ofSingles_injective h, ?_⟩
    rw [List.map_flatten, List.map_flatten, hmaps]
  refine List.eq_iff_flatten_eq.mpr ⟨harrays, ?_⟩
  have hnumbers := congrArg (List.map List.length) hmaps
  simpa only [List.map_map, Function.comp_def, List.length_map] using hnumbers

/-! ### Documents -/

theorem map_eq_map_iff_forall₂ {α β γ : Type} {f : α → γ} {g : β → γ} {xs : List α} {ys : List β} :
    xs.map f = ys.map g ↔ List.Forall₂ (fun x y => f x = g y) xs ys := by
  rw [← List.forall₂_eq_eq_eq, List.forall₂_map_left_iff, List.forall₂_map_right_iff]

namespace Document

variable {d e : Document} {embed : Bool}

/-- A document whose arrays go into a file. -/
def decoupled (d : Document) (file : String) : Document := { d with weightFile := some file }

/-- What is written of it: its text, and the stream in the file. -/
def files (d : Document) (file : String) : String × Bytes :=
  ((d.decoupled file).text, weightStream d.records)

/-- The arrays of a document, record by record. -/
def contents (d : Document) : List (Option KernelWeights × Option NormParams) :=
  d.records.map fun r => (r.weights, r.norm)

/-- What is written of some records, numbered from a position on. -/
def recordSheets (embed : Bool) (rs : List Record) (k : Nat) : List (String × Sheet) :=
  (rs.zipIdx k).map fun (r, i) => ("Layer_" ++ toString i, .obj (r.members embed))

/-- **Each record is written for itself**, whatever its number. -/
theorem texts_recordSheets_eq_iff (rs ss : List Record) (k : Nat) :
    Sheet.texts 1 (recordSheets embed rs k) = Sheet.texts 1 (recordSheets embed ss k) ↔
      List.Forall₂ (fun r s => (Sheet.obj (r.members embed)).chars 1 =
        (Sheet.obj (s.members embed)).chars 1) rs ss := by
  have hcons : ∀ (r : Record) rs k, Sheet.texts 1 (recordSheets embed (r :: rs) k) =
      ("Layer_" ++ toString k, (Sheet.obj (r.members embed)).chars 1) ::
        Sheet.texts 1 (recordSheets embed rs (k + 1)) := fun _ _ _ => rfl
  induction rs generalizing ss k with
  | nil =>
    cases ss with
    | nil => exact iff_of_true rfl .nil
    | cons s ss => exact iff_of_false nofun nofun
  | cons r rs ih =>
    cases ss with
    | nil => exact iff_of_false nofun nofun
    | cons s ss =>
      simp only [hcons, List.cons.injEq, Prod.mk.injEq, true_and, ih, List.forall₂_cons]

/-- Decoupled documents of the same text have records that are written the same. -/
theorem forall₂_alike_of_text {file : String}
    (h : (d.decoupled file).text = (e.decoupled file).text) :
    List.Forall₂ Record.Alike d.records e.records := by
  have hchars := String.ofList_injective h
  obtain ⟨-, hrecords⟩ := List.cons.inj (Sheet.chars_obj_eq_iff.mp hchars)
  exact ((texts_recordSheets_eq_iff _ _ 0).mp hrecords).imp fun _ _ hrs => Record.alike_of_chars hrs

/-- **Documents with their arrays** have the same text, if these are the same and all else is
written the same. -/
theorem text_eq_of_forall₂ (hd : d.weightFile = none) (he : e.weightFile = none)
    (h : List.Forall₂ Record.Alike d.records e.records)
    (harrays : List.Forall₂ (fun r s => (r.weights, r.norm) = (s.weights, s.norm))
      d.records e.records) : d.text = e.text := by
  have hchars : List.Forall₂ (fun r s : Record => (Sheet.obj (r.members true)).chars 1 =
      (Sheet.obj (s.members true)).chars 1) d.records e.records := by
    refine h.mp (fun r s hrs heq => ?_) harrays
    exact hrs.chars_eq (Prod.mk.inj heq).1 (Prod.mk.inj heq).2
  have hheader : d.header = e.header := by rw [header, header, h.length_eq, hd, he]
  have hsheet : ∀ d : Document, d.weightFile = none →
      d.sheet = .obj (("numLayers", d.header) :: recordSheets true d.records 0) := by
    intro d hd
    rw [sheet, hd]
    rfl
  rw [text, text, hsheet d hd, hsheet e he]
  refine congrArg String.ofList (Sheet.chars_obj_eq_iff.mpr ?_)
  rw [Sheet.texts_cons, Sheet.texts_cons, hheader, (texts_recordSheets_eq_iff _ _ 0).mpr hchars]

end Document

theorem weightFile_of_convert {cx : ConvertContext} {nodes : List Node}
    {shapes : Entries (List Int)} {doc : Document} (h : convert cx nodes shapes = .ok doc) :
    doc.weightFile = none := by
  rw [convert] at h
  cases hrecords : unlinkedRecords cx shapes nodes with
  | error e => simp [hrecords, bind, Except.bind] at h
  | ok records =>
    simp only [hrecords, bind, Except.bind, pure, Except.pure] at h
    split at h
    · obtain rfl := Except.ok.inj h
      rfl
    · cases h

/-- **Text and stream determine a document of a known outline**: its arrays, and so its text with
them. -/
theorem convert_decoupled {cx₁ cx₂ : ConvertContext} {nodes₁ nodes₂ : List Node}
    {shapes₁ shapes₂ : Entries (List Int)} {d₁ d₂ : Document} {file : String}
    (hcustom₁ : ∀ e ∈ cx₁.custom.layers, e.2.recordType ∉ arrayTypes)
    (hcustom₂ : ∀ e ∈ cx₂.custom.layers, e.2.recordType ∉ arrayTypes)
    (h₁ : convert cx₁ nodes₁ shapes₁ = .ok d₁) (h₂ : convert cx₂ nodes₂ shapes₂ = .ok d₂)
    (houtline : List.Forall₂ Record.SameOutline d₁.records d₂.records)
    (hfiles : d₁.files file = d₂.files file) : d₁.contents = d₂.contents ∧ d₁.text = d₂.text := by
  obtain ⟨htext, hstream⟩ := Prod.mk.inj hfiles
  have halike := Document.forall₂_alike_of_text htext
  -- the texts tell the kinds of all arrays, so the outlines are the same
  have hkinds : List.Forall₂ Record.SameKinds d₁.records d₂.records := by
    refine List.forall₂_iff_zip.mpr ⟨halike.length_eq, fun {r s} hmem => ?_⟩
    obtain ⟨hr, hs⟩ := List.of_mem_zip hmem
    exact (tellsArrays_of_convert hcustom₁ h₁ r hr).sameKinds
      (tellsArrays_of_convert hcustom₂ h₂ s hs) (List.forall₂_zip halike hmem)
  have houtlines := houtline.mp (fun _ _ ho hk => ho.outline_eq hk) hkinds
  have hlengths : d₁.records.map (fun r => r.arrays.map List.length) =
      d₂.records.map fun r => r.arrays.map List.length :=
    map_eq_map_iff_forall₂.mpr (houtlines.imp fun _ _ ho => Record.length_arrays_eq ho)
  -- and the stream is cut at the same places
  have harrays := map_eq_map_iff_forall₂.mp (map_arrays_of_weightStream hlengths hstream)
  have hsame : List.Forall₂ (fun r s : Record => (r.weights, r.norm) = (s.weights, s.norm))
      d₁.records d₂.records := by
    refine houtlines.mp (fun r s ho ha => ?_) harrays
    obtain ⟨hweights, hnorm⟩ := Record.eq_of_arrays ho ha
    rw [hweights, hnorm]
  exact ⟨map_eq_map_iff_forall₂.mpr hsame, Document.text_eq_of_forall₂ (weightFile_of_convert h₁)
    (weightFile_of_convert h₂) halike hsame⟩

/-- What two results agree on they say of two documents. -/
theorem exists_documents {α : Type} {f : Document → α} {a b : Except ConvertError Document}
    (hok : a.toOption.isSome) (h : a.toOption.map f = b.toOption.map f) :
    ∃ d e, a = .ok d ∧ b = .ok e ∧ f d = f e := by
  obtain ⟨d, rfl⟩ := exists_ok_of_isSome hok
  obtain ⟨e, he, hagree⟩ := exists_ok_of_toOption_map h.symm
  exact ⟨d, e, rfl, he, hagree.symm⟩

/-- A product, and a batch normalization that it cannot absorb, with some nodes between. -/
def normedProduct (between : List Node) : List Node := [
  { name := "in", opType := "InputLayer", inbound := some [] },
  { name := "product", opType := "Dense",
    weights := [("kernel", ⟨[2, 1], [.zero, .ofInt 1]⟩), ("bias", ⟨[1], [.ofInt 2]⟩)] },
  { name := "flat", opType := "Flatten" }] ++ between ++ [
  { name := "norm", opType := "BatchNormalization",
    weights := [("moving_mean", ⟨[1], [.zero]⟩), ("moving_variance", ⟨[1], [.ofInt 1]⟩)] }]

/-- With a dropout between them or without, the files are the same, and so is the document. -/
theorem convert_normedProduct_decoupled :
    (∀ e ∈ ({ format := .keras } : ConvertContext).custom.layers, e.2.recordType ∉ arrayTypes) ∧
      ∃ d₁ d₂, convert { format := .keras } (normedProduct []) [] = .ok d₁ ∧
        convert { format := .keras } (normedProduct [{ name := "drop", opType := "Dropout" }]) [] =
          .ok d₂ ∧
        List.Forall₂ Record.SameOutline d₁.records d₂.records ∧
        d₁.files "net.bin" = d₂.files "net.bin" ∧
        d₁.contents = d₂.contents ∧ d₁.text = d₂.text := by
  have hcustom : ∀ e ∈ ({ format := .keras } : ConvertContext).custom.layers,
      e.2.recordType ∉ arrayTypes := nofun
  obtain ⟨d₁, d₂, h₁, h₂, hagree⟩ : ∃ d₁ d₂,
      convert { format := .keras } (normedProduct []) [] = .ok d₁ ∧
        convert { format := .keras } (normedProduct [{ name := "drop", opType := "Dropout" }]) [] =
          .ok d₂ ∧
        (d₁.files "net.bin", d₁.records.map Record.outline) =
          (d₂.files "net.bin", d₂.records.map Record.outline) := exists_documents rfl rfl
  obtain ⟨hfiles, houtlines⟩ := Prod.mk.inj hagree
  have houtline : List.Forall₂ Record.SameOutline d₁.records d₂.records :=
    (map_eq_map_iff_forall₂.mp houtlines).imp fun _ _ h => Record.SameOutline.of_outline_eq h
  exact ⟨hcustom, d₁, d₂, h₁, h₂, houtline, hfiles,
    convert_decoupled hcustom hcustom h₁ h₂ houtline hfiles⟩

/-! ### Documents that are mistaken for each other -/

/-- **Two lists that are mistaken for each other**: the files that are written of them are the same,
but not the arrays. -/
def Confused (cx₁ : ConvertContext) (nodes₁ : List Node) (cx₂ : ConvertContext)
    (nodes₂ : List Node) : Prop :=
  ∃ d₁ d₂, convert cx₁ nodes₁ [] = .ok d₁ ∧ convert cx₂ nodes₂ [] = .ok d₂ ∧
    d₁.files "net.bin" = d₂.files "net.bin" ∧ d₁.contents ≠ d₂.contents

theorem confused_of_files {cx₁ cx₂ : ConvertContext} {nodes₁ nodes₂ : List Node}
    (hok : (convert cx₁ nodes₁ []).toOption.isSome)
    (hfiles : (convert cx₁ nodes₁ []).toOption.map (·.files "net.bin") =
      (convert cx₂ nodes₂ []).toOption.map (·.files "net.bin"))
    (hne : (convert cx₁ nodes₁ []).toOption.map Document.contents ≠
      (convert cx₂ nodes₂ []).toOption.map Document.contents) :
    Confused cx₁ nodes₁ cx₂ nodes₂ := by
  obtain ⟨d₁, d₂, h₁, h₂, hagree⟩ := exists_documents hok hfiles
  refine ⟨d₁, d₂, h₁, h₂, hagree, fun heq => hne ?_⟩
  rw [h₁, h₂]
  exact congrArg some heq

/-- A batch normalization with parameters of some lengths. -/
def normOf (parts : List (String × Nat)) : List Node := [
  { name := "in", opType := "InputLayer", inbound := some [] },
  { name := "norm", opType := "BatchNormalization",
    weights := parts.map fun (name, k) => (name, ⟨[k], List.replicate k .zero⟩) }]

/-- A product with a kernel of some length, and a bias of some length if it has one. -/
def productOf (k : Nat) (b : Option Nat) : List Node := [
  { name := "in", opType := "InputLayer", inbound := some [] },
  { name := "product", opType := "Dense",
    weights := ("kernel", ⟨[k, 1], List.replicate k .zero⟩) ::
      (b.map fun b => ("bias", ⟨[b], List.replicate b .zero⟩)).toList }]

/-- A custom layer that is written under the type and with the fields of a product. -/
def guise : CustomLayer :=
  { layerType := "Guise", recordType? := some "Dense", planes? := some 1,
    attributes := ["units", "useBias", "useBatchNormalization"] }

def guisedLayer : List Node := [
  { name := "in", opType := "InputLayer", inbound := some [] },
  { name := "product", opType := "Guise",
    attrs := [("units", .int 1), ("useBias", .str "False"),
      ("useBatchNormalization", .str "False")] }]

/-- **Without the outline documents are mistaken for each other**: a scale for an offset, a
parameter for the end of the one before it, the end of a kernel for the begin of its bias, and a
layer without arrays for one with an empty kernel. -/
theorem decoupled_confused :
    Confused
        { format := .keras } (normOf [("gamma", 1), ("moving_mean", 1), ("moving_variance", 1)])
        { format := .keras } (normOf [("beta", 1), ("moving_mean", 1), ("moving_variance", 1)]) ∧
      Confused
        { format := .keras } (normOf [("moving_mean", 1), ("moving_variance", 2)])
        { format := .keras } (normOf [("moving_mean", 2), ("moving_variance", 1)]) ∧
      Confused
        { format := .keras } (productOf 1 (some 2))
        { format := .keras } (productOf 2 (some 1)) ∧
      Confused
        { format := .keras, custom := { layers := [("Guise", guise)] } } guisedLayer
        { format := .keras } (productOf 0 none) :=
  ⟨confused_of_files rfl rfl (by decide), confused_of_files rfl rfl (by decide),
    confused_of_files rfl rfl (by decide), confused_of_files rfl rfl (by decide)⟩

end LayerGraph
