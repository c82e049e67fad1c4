import LayerGraph.Proofs.Bytes
import LayerGraph.Proofs.OperandWeights

/-!
# The two encodings of a tensor

A message holds the values of a tensor in a field of their type, or all in one string of bytes,
least significant byte first. Either way they become 32 bit floating values, one by one, so it
does not matter which way was chosen: the bytes are cut into the words that they were made of, and
a word stands for the value whose word it is, signs and payloads of NaNs included
(`LayerGraph.ElementType.ofWord_word`). The one thing that the bytes cannot say is that there are
no values, since a message without bytes is read from its field.

No tensor leaves the reader unless its values fill its shape. So neither does any weight of a
network: the table of tensors is filled with what was read, and the nodes take their weights from
the table.
-/

namespace LayerGraph

/-! ### Types of elements -/

/-- The types of elements that are read. -/
inductive ElementType where
  | single
  | int32
  | int64
  | double

namespace ElementType

/-- The number that a message gives for the type. -/
def code : ElementType → Int
  | .single => 1
  | .int32 => 6
  | .int64 => 7
  | .double => 11

/-- The number of bytes of a value. -/
def width : ElementType → Nat
  | .single => 4
  | .int32 => 4
  | .int64 => 8
  | .double => 8

/-- The values of the type. -/
abbrev Value : ElementType → Type
  | .single => Single
  | .int32 => Int32
  | .int64 => Int64
  | .double => Double

/-- The word of a value. -/
def word : (e : ElementType) → e.Value → Nat
  | .single, x => x.word
  | .int32, n => n.toBitVec.toNat
  | .int64, n => n.toBitVec.toNat
  | .double, x => x.word

/-- The 32 bit floating value that a value is read as. -/
def toSingle : (e : ElementType) → e.Value → Single
  | .single, x => x
  | .int32, n => Floating.ofInt n.toInt
  | .int64, n => Floating.ofInt n.toInt
  | .double, x => x.toSingle

/-- The 32 bit floating value that a word is read as. -/
def ofWord : ElementType → Nat → Single
  | .single, w => Floating.ofWord w
  | .int32, w => Floating.ofInt (Word.signed 32 w)
  | .int64, w => Floating.ofInt (Word.signed 64 w)
  | .double, w => Floating.toSingle (Floating.ofWord w)

variable {e : ElementType}

theorem width_ne_zero : e.width ≠ 0 := by cases e <;> decide

theorem word_lt (v : e.Value) : e.word v < twoPow (8 * e.width) := by
  cases e with
  | single => exact Bytes.word_lt v
  | int32 => exact v.toBitVec.isLt
  | int64 => exact v.toBitVec.isLt
  | double => exact Bytes.word_lt v

/-- **A word is read as its value.** -/
theorem ofWord_word (v : e.Value) : e.ofWord (e.word v) = e.toSingle v := by
  cases e with
  | single => exact Bytes.ofWord_word v
  | int32 => exact congrArg Floating.ofInt (BitVec.toInt_eq_toNat_bmod v.toBitVec).symm
  | int64 => exact congrArg Floating.ofInt (BitVec.toInt_eq_toNat_bmod v.toBitVec).symm
  | double => exact congrArg Floating.toSingle (Bytes.ofWord_word v)

/-- The bytes of values, one after the other. -/
def bytes (e : ElementType) (vs : List e.Value) : Bytes :=
  vs.flatMap fun v => Bytes.ofNat e.width (e.word v)

/-- **Bytes are read as the values** that they were made of. -/
theorem map_ofWord_words_bytes (vs : List e.Value) :
    ((e.bytes vs).words e.width).map e.ofWord = vs.map e.toSingle := by
  rw [bytes, Bytes.words_flatMap_word width_ne_zero word_lt, List.map_map]
  exact List.map_congr_left fun v _ => ofWord_word v

theorem bytes_ne_nil {vs : List e.Value} (hvs : vs ≠ []) : e.bytes vs ≠ [] := by
  refine List.ne_nil_of_length_pos ?_
  rw [bytes, Bytes.length_flatMap_word]
  exact Nat.mul_pos (Nat.pos_of_ne_zero width_ne_zero) (List.length_pos_of_ne_nil hvs)

end ElementType

/-! ### What a message holds -/

namespace TensorMessage

variable {t : TensorMessage} {e : ElementType} {x : Tensor}

/-- The shape of a message. A negative extent counts as zero. -/
def extents (t : TensorMessage) : List Nat := t.dims.map Int.toNat

/-- The values in the field of a type. -/
def field (t : TensorMessage) : ElementType → List Single
  | .single => t.singles
  | .int32 => t.ints32.map Floating.ofInt
  | .int64 => t.ints64.map Floating.ofInt
  | .double => t.doubles.map Floating.toSingle

/-- The values of a type: those in its field, if there are no bytes. -/
def data (t : TensorMessage) (e : ElementType) : List Single :=
  if t.raw.isEmpty then t.field e else (t.raw.words e.width).map e.ofWord

/-- The number of values of a type. -/
def count (t : TensorMessage) (e : ElementType) : Nat :=
  if t.raw.isEmpty then (t.field e).length else t.raw.length / e.width

/-- The message with values in the field of their type. -/
def inField (t : TensorMessage) : (e : ElementType) → List e.Value → TensorMessage
  | .single, xs => { t with dataType := 1, raw := [], singles := xs }
  | .int32, ns => { t with dataType := 6, raw := [], ints32 := ns.map Int32.toInt }
  | .int64, ns => { t with dataType := 7, raw := [], ints64 := ns.map Int64.toInt }
  | .double, xs => { t with dataType := 11, raw := [], doubles := xs }

/-- The message with values as bytes. -/
def inBytes (t : TensorMessage) (e : ElementType) (vs : List e.Value) : TensorMessage :=
  { t with dataType := e.code, raw := e.bytes vs }

theorem length_data : (t.data e).length = t.count e := by
  rw [data, count]
  split
  · rfl
  · rw [List.length_map, Bytes.length_words ElementType.width_ne_zero]

/-! ### Reading a message -/

theorem values_of_code (h : t.dataType = e.code) (dims : List Nat) :
    t.values dims = .ok ⟨dims, t.data e⟩ := by
  rw [values, h, data]
  cases e <;> cases t.raw.isEmpty <;> rfl

theorem values_of_ne (h : ∀ e : ElementType, t.dataType ≠ e.code) (dims : List Nat) :
    t.values dims = .error (.unsupportedDataType t.name t.dataType) := by
  rw [values]
  split
  next h1 => exact absurd h1 (h .single)
  next h6 => exact absurd h6 (h .int32)
  next h7 => exact absurd h7 (h .int64)
  next h11 => exact absurd h11 (h .double)
  · rfl

/-- **The tensor of a message** has the shape and the values of the message, if these are as many
as the shape has places. -/
theorem tensor_of_code (h : t.dataType = e.code) :
    t.tensor = if places t.extents = t.count e then .ok ⟨t.extents, t.data e⟩
      else .error (.invalidConfig (.tensorSize t.name (t.count e) t.extents (places t.extents))) := by
  rw [tensor, values_of_code h, ← length_data]
  rfl

theorem tensor_of_ne (h : ∀ e : ElementType, t.dataType ≠ e.code) :
    t.tensor = .error (.unsupportedDataType t.name t.dataType) := by
  rw [tensor, values_of_ne h]

theorem eq_of_tensor (he : t.dataType = e.code) (h : t.tensor = .ok x) :
    x = ⟨t.extents, t.data e⟩ ∧ places t.extents = t.count e := by
  rw [tensor_of_code he] at h
  split at h
  next hplaces => exact ⟨(Except.ok.inj h).symm, hplaces⟩
  · cases h

/-- **What is read fills its shape.** -/
theorem dims_of_tensor (h : t.tensor = .ok x) :
    x.dims = t.extents ∧ places x.dims = x.data.length := by
  by_cases htype : ∃ e : ElementType, t.dataType = e.code
  · obtain ⟨e, he⟩ := htype
    obtain ⟨rfl, hplaces⟩ := eq_of_tensor he h
    exact ⟨rfl, hplaces.trans length_data.symm⟩
  · rw [tensor_of_ne (not_exists.mp htype)] at h
    cases h

/-! ### The two encodings -/

theorem dataType_inField (vs : List e.Value) : (t.inField e vs).dataType = e.code := by
  cases e <;> rfl

theorem data_inField (vs : List e.Value) : (t.inField e vs).data e = vs.map e.toSingle := by
  cases e with
  | single => exact (List.map_id vs).symm
  | int32 => exact List.map_map
  | int64 => exact List.map_map
  | double => rfl

theorem data_inBytes {vs : List e.Value} (hvs : vs ≠ []) :
    (t.inBytes e vs).data e = vs.map e.toSingle := by
  rw [← ElementType.map_ofWord_words_bytes]
  refine if_neg ?_
  rw [List.isEmpty_iff]
  exact ElementType.bytes_ne_nil hvs

/-- The tensor of a message depends on its shape, its name and its values. -/
theorem tensor_congr {u : TensorMessage} (ht : t.dataType = e.code) (hu : u.dataType = e.code)
    (hdims : t.dims = u.dims) (hname : t.name = u.name) (hdata : t.data e = u.data e) :
    t.tensor = u.tensor := by
  have hextents : t.extents = u.extents := congrArg (List.map Int.toNat) hdims
  rw [tensor_of_code ht, tensor_of_code hu, ← length_data, ← length_data, hextents, hname, hdata]

/-- **Both encodings are read alike**, whether this succeeds or fails. -/
theorem tensor_inField {vs : List e.Value} (hvs : vs ≠ []) :
    (t.inField e vs).tensor = (t.inBytes e vs).tensor := by
  have hdata : (t.inField e vs).data e = (t.inBytes e vs).data e :=
    (data_inField vs).trans (data_inBytes hvs).symm
  refine tensor_congr (dataType_inField vs) rfl ?_ ?_ hdata <;> cases e <;> rfl

/-- **Tensors fill their shapes, and both encodings agree.** The shape of a tensor that is read is
the declared one, and it has as many places as there are values. Reading fails for the types of
elements other than the four, naming the type, and otherwise exactly if the shape has more or fewer
places than there are values. Values in the field of their type and in bytes give one tensor or one
error, and the tensor holds these values. So the weights of a network fill their shapes. -/
theorem tensor_encodings (t : TensorMessage) :
    (∀ x, t.tensor = .ok x → x.dims = t.extents ∧ places x.dims = x.data.length) ∧
      (t.tensor = .error (.unsupportedDataType t.name t.dataType) ↔
        ∀ e : ElementType, t.dataType ≠ e.code) ∧
      (∀ e : ElementType, t.dataType = e.code →
        ((∃ x, t.tensor = .ok x) ↔ places t.extents = t.count e) ∧
        (t.tensor = .error (.invalidConfig
            (.tensorSize t.name (t.count e) t.extents (places t.extents))) ↔
          places t.extents ≠ t.count e)) ∧
      (∀ (e : ElementType) (vs : List e.Value), vs ≠ [] →
        (t.inField e vs).tensor = (t.inBytes e vs).tensor ∧
        ∀ x, (t.inBytes e vs).tensor = .ok x → x.data = vs.map e.toSingle) ∧
      ∀ (m : ModelMessage) net, m.load = .ok net → ∀ n ∈ net.nodes,
        n.children = [] ∧ ∀ w ∈ n.weights, places w.2.dims = w.2.data.length := by
  refine ⟨fun x => dims_of_tensor, ⟨fun h e he => ?_, tensor_of_ne⟩, fun e he => ?_,
    fun e vs hvs => ⟨tensor_inField hvs, fun x hx => ?_⟩, fun m net hnet n hn => ?_⟩
  · rw [tensor_of_code he] at h
    split at h <;> cases h
  · rw [tensor_of_code he]
    by_cases hplaces : places t.extents = t.count e <;> simp [hplaces]
  · obtain ⟨rfl, -⟩ := eq_of_tensor (e := e) rfl hx
    exact data_inBytes hvs
  · rw [ModelMessage.load] at hnet
    split at hnet
    next g hg =>
      refine ⟨(GraphMessage.flat_of_network hnet n hn).1, fun w hw => ?_⟩
      obtain ⟨u, -, hu⟩ := GraphMessage.exists_message_of_mem_weights hnet n hn w hw
      exact (dims_of_tensor hu).2
    · cases hnet

/-- A pair of whole numbers. -/
def pair : TensorMessage where
  dims := [2, 1]
  dataType := 7
  ints64 := [-1, 3]
  name := "pair"

/-- The pair is read. So are two others in its place, from their bytes, but not one alone; and the
weights of a network fill their shapes. -/
theorem pair_encodings :
    (∃ x, pair.tensor = .ok x ∧ x.dims = [2, 1] ∧ places x.dims = x.data.length) ∧
      (pair.inBytes .int32 [-1, 5]).raw = [255, 255, 255, 255, 5, 0, 0, 0] ∧
      (∃ x, (pair.inBytes .int32 [-1, 5]).tensor = .ok x ∧ x.dims = [2, 1] ∧
        x.data = [Floating.ofInt (-1), Floating.ofInt 5]) ∧
      (pair.inBytes .double [Floating.zero]).tensor =
        .error (.invalidConfig (.tensorSize "pair" 1 [2, 1] 2)) ∧
      ∃ net, ModelMessage.load { graph := some GraphMessage.shadowedWeights } = .ok net ∧
        ∀ n ∈ net.nodes, n.children = [] ∧ ∀ w ∈ n.weights, places w.2.dims = w.2.data.length := by
  obtain ⟨hdims, -, hcount, hbytes, hload⟩ := tensor_encodings pair
  obtain ⟨x, hx⟩ := (hcount .int64 rfl).1.mpr rfl
  obtain ⟨hints, hdata⟩ := hbytes .int32 [-1, 5] (by decide)
  have hok : (pair.inBytes .int32 [-1, 5]).tensor = .ok _ := hints.symm.trans rfl
  have hzero := (hbytes .double [Floating.zero] (by decide)).1
  obtain ⟨net, hnet⟩ : ∃ net,
    ModelMessage.load { graph := some GraphMessage.shadowedWeights } = .ok net := ⟨_, rfl⟩
  exact ⟨⟨x, hx, hdims x hx⟩, by decide, ⟨_, hok, rfl, hdata _ hok⟩, hzero.symm.trans rfl, net,
    hnet, hload _ net hnet⟩

end TensorMessage

end LayerGraph
