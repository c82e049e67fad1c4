import LayerGraph.Proofs.Declared
import LayerGraph.Proofs.Decoupling

/-!
# What the flags of a record promise

An engine that reads the weight stream learns from two fields of a record what is in it for the
record: `useBias` says whether a bias follows the kernel, `useBatchNormalization` whether the
parameters of a batch normalization follow. The stream has no delimiters, so one flag that does not
agree with the arrays would shift all that comes behind.

The flag of the bias and the bias are read from the node at the same time. The other flag is written
when fusion is over, and what it speaks of was handed over by another node in between, which cannot
be done without mean and variance (`LayerGraph.Node.Offers.hasStatistics`). Nothing else is ever
held, whatever the policy (`LayerGraph.Graph.exists_offers_of_holds`), so a flag that is set is
followed by at least two arrays. Records of custom layers are left out: their fields are whatever
their description says.
-/

namespace LayerGraph

/-! ### Mean and variance -/

/-- The parameters without which a batch normalization cannot be computed. -/
def NormParams.HasStatistics (p : NormParams) : Prop := p.mean.isSome ∧ p.variance.isSome

/-- With mean and variance there is something in the stream. -/
theorem NormParams.HasStatistics.parts_ne_nil {p : NormParams} (h : p.HasStatistics) :
    p.parts ≠ [] := by
  obtain ⟨mean, hmean⟩ := Option.isSome_iff_exists.mp h.1
  have hmem : ("moving_mean", mean) ∈ p.parts := by simp [parts, hmean]
  exact List.ne_nil_of_mem hmem

namespace Node

variable {cx : FusionContext} {n : Node} {format : ModelFormat} {p : NormPart}

theorem hasStatistics_of_normPart (h : n.normPart format = .ok p) : p.params.HasStatistics := by
  rw [normPart] at h
  split at h
  · cases h
  · next hsome =>
    obtain rfl := Except.ok.inj h
    simpa [NormParams.HasStatistics, Option.isSome_iff_ne_none] using hsome

/-- **A batch normalization is handed over with its statistics.** -/
theorem Offers.hasStatistics (h : n.Offers cx (.norm p)) : p.params.HasStatistics := by
  obtain ⟨family, -, hc⟩ := h
  cases family with
  | batchNorm =>
    simp only [contribution?] at hc
    split at hc
    · next part hpart =>
      obtain rfl := Contribution.norm.inj (Option.some.inj (Except.ok.inj hc))
      exact hasStatistics_of_normPart hpart
    · cases hc
  | _ => cases hc

end Node

namespace Graph

variable {cx : FusionContext} {g g' : Graph} {id i : Nat} {ids : List Nat} {n : Node}
  {c : Contribution} {o : Outcome}

/-- Whatever a node holds, some node has offered. -/
def HoldsOffers (cx : FusionContext) (g : Graph) : Prop :=
  ∀ i n c, g.LiveAt i n → n.Holds c → ∃ m : Node, m.Offers cx c

theorem HoldsOffers.visited (h : g.HoldsOffers cx) (hv : Visited cx g id g' o) :
    g'.HoldsOffers cx := by
  cases hv with
  | kept => exact h
  | elided live dropout =>
    intro i n' c hn' hc
    rw [elide_eq] at hn'
    obtain ⟨-, m, hm, rfl⟩ := liveAt_retire.mp hn'
    exact h i m c hm (Node.holds_rewire.mp hc)
  | absorbed live offers target found operand allowed accepts =>
    intro i n' c hn' hc
    rcases holds_of_merge target hn' hc with ⟨-, rfl⟩ | ⟨m, hm, hc⟩
    · exact ⟨_, offers⟩
    · exact h i m c hm hc

/-- **Nothing is held but what was offered**, whatever the policy allows. -/
theorem exists_offers_of_holds (hfresh : ∀ n ∈ g.nodes, n.absorbed = {})
    (hn : (g.fuseFrom cx ids).1.LiveAt i n) (hc : n.Holds c) : ∃ m : Node, m.Offers cx c := by
  have hinit : g.HoldsOffers cx := fun i n c hn hc =>
    absurd hc (Node.not_holds_of_absorbed (hfresh n (List.mem_of_getElem? hn.1)))
  exact fuseFrom_invariant (P := HoldsOffers cx) ids (fun _ _ _ _ _ h hv => h.visited hv) hinit
    i n c hn hc

end Graph

/-! ### Flags that agree with the arrays -/

/-- The flag for something that may be absent. -/
theorem engineBool_isSome {α : Type} (o : Option α) :
    engineBool o.isSome = if o = none then "False" else "True" := by
  cases o <;> rfl

namespace Record

variable {r s : Record}

/-- The parameters of the batch normalization of a record, as far as they are present. -/
def normArrays (r : Record) : List (List Single) :=
  (r.norm.map fun p => p.parts.map Prod.snd).getD []

/-- **A record whose flags agree with its arrays.** Behind a kernel there are a bias and the
parameters of a batch normalization, each exactly if its flag is `True`; else the flag is `False`.
Without a kernel there are at most such parameters, and no flag for a bias. -/
structure Flagged (r : Record) : Prop where
  kernel : ∀ w, r.weights = some w →
    r.arrays = w.kernel :: (w.bias.toList ++ r.normArrays) ∧
      r.field? "useBias" = some (.str (if w.bias = none then "False" else "True")) ∧
      r.field? "useBatchNormalization" =
        some (.str (if r.normArrays = [] then "False" else "True"))
  withoutKernel : r.weights = none → r.arrays = r.normArrays ∧ r.field? "useBias" = none
  statistics : ∀ p, r.norm = some p → p.HasStatistics

theorem arrays_of_weights {w : KernelWeights} (hw : r.weights = some w) :
    r.arrays = w.kernel :: (w.bias.toList ++ r.normArrays) := by
  rw [arrays_eq, hw]
  rfl

theorem arrays_of_weights_eq_none (hw : r.weights = none) : r.arrays = r.normArrays := by
  rw [arrays_eq, hw]
  rfl

/-- Parameters with their statistics are in the stream if there are any. -/
theorem normArrays_eq_nil_iff (h : ∀ p, r.norm = some p → p.HasStatistics) :
    r.normArrays = [] ↔ r.norm = none := by
  cases hn : r.norm with
  | none => simp [normArrays, hn]
  | some p => simp [normArrays, hn, (h p hn).parts_ne_nil]

/-- What the flags of a record say does not depend on its links. -/
theorem Flagged.of_unlinked (h : s.Flagged) (hr : r.unlinked = s.unlinked) : r.Flagged := by
  have hs : s.unlinked.Flagged := ⟨h.kernel, h.withoutKernel, h.statistics⟩
  rw [← hr] at hs
  exact ⟨hs.kernel, hs.withoutKernel, hs.statistics⟩

end Record

/-! ### The records of layers -/

namespace Layer

variable {cx : LayerContext} {family : Family} {l : Layer} {n m : Node}

/-- A layer without a kernel has no flag for a bias. -/
theorem field?_useBias_eq_none (hcustom : l.isCustom = false) (hl : l.carriesNorm = false) :
    (l.record n).field? "useBias" = none := by
  cases l with
  | conv l => cases hl
  | dense l => cases hl
  | custom d fields => cases hcustom
  | add => exact (n.field?_elementwiseRecord _ _).trans (lastField?_of_not_mem (by simp))
  | multiply => exact (n.field?_elementwiseRecord _ _).trans (lastField?_of_not_mem (by simp))
  | flatten => rfl
  | calculate => rfl
  | _ => exact (Record.field?_record_fill n _ _ _).trans (lastField?_of_not_mem (by simp))

theorem exists_of_weights_record (h : l.Furnished) (hl : l.carriesNorm = true) :
    ∃ w, (l.record n).weights = some w := by
  cases l with
  | conv l => exact Option.isSome_iff_exists.mp h
  | dense l => exact Option.isSome_iff_exists.mp h
  | _ => cases hl

/-- A batch normalization stands in a record because it was absorbed, or for itself. -/
theorem cases_of_norm_record {p : NormParams} (h : (l.record n).norm = some p) :
    (l.carriesNorm = true ∧ ∃ q, n.Holds (.norm q) ∧ q.params = p) ∨
      ∃ q, l = .norm (some q) ∧ q.params = p := by
  cases l with
  | conv l => exact .inl ⟨rfl, Option.map_eq_some_iff.mp h⟩
  | dense l => exact .inl ⟨rfl, Option.map_eq_some_iff.mp h⟩
  | norm q =>
    obtain ⟨q, rfl, hq⟩ := Option.map_eq_some_iff.mp h
    exact .inr ⟨q, rfl, hq⟩
  | _ => cases h

/-- Only a batch normalization is read as one, with its statistics. -/
theorem of_read_norm {q : NormPart} (h : read cx family m = .ok (.norm (some q))) :
    family = .batchNorm ∧ q.params.HasStatistics := by
  cases family with
  | batchNorm =>
    obtain ⟨p, hp, heq⟩ := exists_ok_of_map h
    obtain rfl := Option.some.inj (Layer.norm.inj heq)
    exact ⟨rfl, Node.hasStatistics_of_normPart hp⟩
  | conv | depthwiseConv | transposedConv | dense | gemm =>
    obtain ⟨_, -, heq⟩ := exists_ok_of_map h
    cases heq
  | _ => cases h

theorem furnished_of_isCustom (hcustom : l.isCustom = false) (hread : read cx family m = .ok l) :
    l.Furnished := by
  refine furnished_of_read (fun d hd => ?_) hread
  rw [(carries_of_read hread).2.2, hd] at hcustom
  cases hcustom

/-- **The flags of a layer that is not custom agree with its arrays**, if what its node holds has
its statistics. -/
theorem flagged_of_read (hcustom : l.isCustom = false) (hread : read cx family m = .ok l)
    (hholds : ∀ q, n.Holds (.norm q) → q.params.HasStatistics) : (l.record n).Flagged := by
  have hfurnished := furnished_of_isCustom hcustom hread
  have htells := hfurnished.tellsArrays n
  have hstatistics : ∀ p, (l.record n).norm = some p → p.HasStatistics := by
    intro p hp
    rcases cases_of_norm_record hp with ⟨-, q, hq, rfl⟩ | ⟨q, rfl, rfl⟩
    · exact hholds q hq
    · exact (of_read_norm hread).2
  refine ⟨fun w hw => ⟨Record.arrays_of_weights hw, ?_, ?_⟩, fun hw =>
    ⟨Record.arrays_of_weights_eq_none hw, ?_⟩, hstatistics⟩
  · rw [← engineBool_isSome]
    exact htells.bias w hw
  · have hkernel := htells.kernel
    rw [hw, Option.isSome_some, eq_comm, decide_eq_true_iff] at hkernel
    rw [if_congr (Record.normArrays_eq_nil_iff hstatistics) rfl rfl, ← engineBool_isSome]
    exact htells.absorbed hkernel
  · refine field?_useBias_eq_none hcustom (Bool.eq_false_iff.mpr fun hl => ?_)
    obtain ⟨w, hw'⟩ := exists_of_weights_record (n := n) hfurnished hl
    rw [hw] at hw'
    cases hw'

end Layer

/-! ### The records of a document -/

/-- Only one operator is that of batch normalizations. -/
theorem Family.opType_of_batchNorm {format : ModelFormat} {op : String}
    (h : ofOp? format op = some .batchNorm) : op = "BatchNormalization" := by
  cases format with
  | keras =>
    replace h : ofKerasOp? op = some .batchNorm := h
    unfold ofKerasOp? at h
    split at h <;> simp_all
  | onnx =>
    replace h : ofOnnxOp? op = some .batchNorm := h
    unfold ofOnnxOp? at h
    split at h <;> simp_all

/-- A stream is cut at a record. -/
theorem weightStream_append_cons (before : List Record) (r : Record) (after : List Record) :
    weightStream (before ++ r :: after) =
      weightStream before ++ (r.arrays.flatMap Bytes.ofSingles ++ weightStream after) := by
  rw [weightStream, List.flatMap_append, List.flatMap_cons]
  rfl

/-- **What is written for a node of a built-in family** is flagged, and has a batch normalization
only if the node is one or a flag says so. -/
theorem flagged_of_written {cx : ConvertContext} {shapes : Entries (List Int)} {n : Node}
    {r : Record} (hw : Written cx shapes n r.unlinked)
    (hfamily : (Family.ofOp? cx.format n.opType).isSome)
    (hholds : ∀ q, n.Holds (.norm q) → q.params.HasStatistics) :
    r.Flagged ∧ (r.norm.isSome → n.opType = "BatchNormalization" ∨
      r.field? "useBatchNormalization" = some (.str "True")) := by
  obtain ⟨family, m, layer, -, hf, hread, hrec⟩ := hw
  obtain ⟨family', hf'⟩ := Option.isSome_iff_exists.mp hfamily
  obtain rfl : family' = family := by
    rw [Family.resolve, hf'] at hf
    exact Except.ok.inj hf
  have hcustom : layer.isCustom = false :=
    (Layer.carries_of_read hread).2.2.trans (Family.isCustom_of_ofOp? hf')
  have hflagged : r.Flagged := (Layer.flagged_of_read hcustom hread hholds).of_unlinked hrec
  have hweights : r.weights = (layer.record n).weights := (congrArg Record.weights hrec :)
  have hnorm : r.norm = (layer.record n).norm := (congrArg Record.norm hrec :)
  refine ⟨hflagged, fun hsome => ?_⟩
  obtain ⟨p, hp⟩ := Option.isSome_iff_exists.mp hsome
  have hne : r.norm ≠ none := Option.isSome_iff_ne_none.mp hsome
  rcases Layer.cases_of_norm_record (hnorm.symm.trans hp) with ⟨hl, -⟩ | ⟨q, rfl, -⟩
  · obtain ⟨w, hw⟩ :=
      Layer.exists_of_weights_record (n := n) (Layer.furnished_of_isCustom hcustom hread) hl
    have hflag := (hflagged.kernel w (hweights.trans hw)).2.2
    rw [if_neg (mt (Record.normArrays_eq_nil_iff hflagged.statistics).mp hne)] at hflag
    exact .inr hflag
  · rw [(Layer.of_read_norm hread).1] at hf'
    exact .inl (Family.opType_of_batchNorm hf')

/-- **The flags of a document agree with its stream.** What is in the stream for a record stands
between what is there for the records before and after; each record comes from a node of the
reclassified normal form, and if this one is of a built-in family, the record is flagged, and has a
batch normalization only if the node is one or a flag says so. -/
theorem convert_flagged {cx : ConvertContext} {nodes : List Node} {shapes : Entries (List Int)}
    {doc : Document} (hfresh : ∀ n ∈ postorder nodes, n.absorbed = {})
    (h : convert cx nodes shapes = .ok doc) :
    ∃ g, normalize cx.format nodes = .ok g ∧
      ∀ before r after, doc.records = before ++ r :: after →
        weightStream doc.records =
          weightStream before ++ (r.arrays.flatMap Bytes.ofSingles ++ weightStream after) ∧
        (∃ n ∈ (g.reclassify cx.format).live, n.name = r.name) ∧
        ∀ n ∈ (g.reclassify cx.format).live, n.name = r.name →
          (Family.ofOp? cx.format n.opType).isSome → r.Flagged ∧
            (r.norm.isSome → n.opType = "BatchNormalization" ∨
              r.field? "useBatchNormalization" = some (.str "True")) := by
  obtain ⟨g, g', k, hg, hfuse, hwritten⟩ := forall₂_written_of_convert h
  obtain rfl : ((g.reclassify cx.format).fuse cx.fusion).1 = g' := congrArg Prod.fst hfuse
  refine ⟨g, hg, fun before r after hrecords => ?_⟩
  have hr : r ∈ doc.records := by simp [hrecords]
  obtain ⟨m, hm, hw⟩ : ∃ m ∈ _, Written cx shapes m r.unlinked :=
    exists_mem_of_forall₂ hwritten.flip hr
  obtain ⟨i, hi⟩ := Graph.mem_live.mp hm
  -- what the node holds in the end was offered on the way
  have hholds : ∀ q, m.Holds (.norm q) → q.params.HasStatistics := by
    intro q hq
    obtain ⟨l, hl⟩ := Graph.exists_offers_of_holds (absorbed_of_mem_reclassify hfresh hg) hi hq
    exact hl.hasStatistics
  obtain ⟨n₀, hn₀, hb⟩ := Graph.exists_liveAt_of_fuseFrom hi
  have hname : n₀.name = r.name := (Node.name_of_bare hb).symm.trans hw.name_eq.symm
  refine ⟨?_, ⟨n₀, Graph.mem_live.mpr ⟨i, hn₀⟩, hname⟩, fun n hn hnr hfamily => ?_⟩
  · rw [hrecords, weightStream_append_cons]
  · -- names tell the nodes apart
    obtain ⟨j, hj⟩ := Graph.mem_live.mp hn
    obtain rfl := (distinct_of_normalize hg).reclassify.eq_of_name hj.1 hn₀.1 (hnr.trans hname.symm)
    obtain rfl := hj.unique hn₀
    rw [← Node.opType_of_bare hb] at hfamily ⊢
    exact flagged_of_written hw hfamily hholds

/-- A convolution with a bias that absorbs a batch normalization, a custom layer with a field of the
name of a flag, a batch normalization that stands alone, and a dense layer with neither. -/
def disguisedBias : List Node := [
  { name := "in", opType := "InputLayer", inbound := some [] },
  { name := "conv", opType := "Conv2D",
    weights := [("kernel", ⟨[1, 1, 1, 1], [.ofInt 1]⟩), ("bias", ⟨[1], [.ofInt 2]⟩)] },
  { name := "norm", opType := "BatchNormalization",
    weights := [("moving_mean", ⟨[1], [.zero]⟩), ("moving_variance", ⟨[1], [.ofInt 1]⟩)] },
  { name := "mask", opType := "Guise", attrs := [("useBias", .str "True")] },
  { name := "last", opType := "BatchNormalization",
    weights := [("moving_mean", ⟨[1], [.zero]⟩), ("moving_variance", ⟨[1], [.ofInt 1]⟩)] },
  { name := "dense", opType := "Dense", weights := [("kernel", ⟨[1, 1], [.ofInt 1]⟩)] }]

/-- Both flags of the convolution are set and both of the dense layer are not, whatever the custom
layer says. -/
theorem convert_disguisedBias_flagged :
    (∀ n ∈ postorder disguisedBias, n.absorbed = {}) ∧
      ∃ doc, convert { format := .keras, custom := { layers := [("Guise", guise)] } }
          disguisedBias [] = .ok doc ∧
        doc.records.map (fun r => (r.name, r.text? "useBias", r.text? "useBatchNormalization")) =
          [("in", none, none), ("conv", some "True", some "True"), ("mask", some "True", none),
            ("last", none, none), ("dense", some "False", some "False")] ∧
        ∃ before r after, doc.records = before ++ r :: after ∧ r.name = "conv" ∧
          r.norm.isSome = true ∧ r.Flagged := by
  have hfresh : ∀ n ∈ postorder disguisedBias, n.absorbed = {} := by decide
  have hflags : ((convert { format := .keras, custom := { layers := [("Guise", guise)] } }
      disguisedBias []).toOption.map fun doc => doc.records.map fun r =>
        (r.name, r.text? "useBias", r.text? "useBatchNormalization")) =
      some [("in", none, none), ("conv", some "True", some "True"), ("mask", some "True", none),
        ("last", none, none), ("dense", some "False", some "False")] := by decide
  have hconv : ((convert { format := .keras, custom := { layers := [("Guise", guise)] } }
      disguisedBias []).toOption.bind fun doc =>
        doc.records[1]?.map fun r => (r.name, r.norm.isSome)) = some ("conv", true) := by decide
  have hbuilt : ((normalize .keras disguisedBias).toOption.map fun g =>
      (g.reclassify .keras).live.all fun n =>
        n.name ≠ "conv" || (Family.ofOp? .keras n.opType).isSome) = some true := by decide
  obtain ⟨doc, hdoc, hrecords⟩ := exists_ok_of_toOption_map hflags
  rw [hdoc] at hconv
  obtain ⟨r, hr, heq⟩ := Option.map_eq_some_iff.mp (hconv : doc.records[1]?.map _ = _)
  obtain ⟨hname, hnorm⟩ := Prod.mk.inj heq
  obtain ⟨before, after, hsplit⟩ := List.append_of_mem (List.mem_of_getElem? hr)
  obtain ⟨g, hg, hall⟩ := convert_flagged hfresh hdoc
  obtain ⟨-, ⟨n, hn, hnr⟩, hflagged⟩ := hall before r after hsplit
  obtain ⟨g', hg', hlive⟩ := exists_ok_of_toOption_map hbuilt
  obtain rfl := Except.ok.inj (hg.symm.trans hg')
  have hfamily : (Family.ofOp? .keras n.opType).isSome = true := by
    have hmem := List.all_eq_true.mp hlive n hn
    simpa [hnr, hname] using hmem
  exact ⟨hfresh, doc, hdoc, hrecords, before, r, after, hsplit, hname, hnorm,
    (hflagged n hn hnr hfamily).1⟩

end LayerGraph
