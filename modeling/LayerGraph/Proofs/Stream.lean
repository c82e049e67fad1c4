import LayerGraph.Proofs.Decoupling
import Mathlib.Algebra.GroupWithZero.Nat

/-!
# Reading the weight stream

The weight stream has neither delimiters nor lengths, but it is nothing else than the values of all
records in a row (`LayerGraph.weightStream_eq_values`), four bytes each. A reader that knows from
elsewhere which arrays there are, and how long they are, need not search: the length of what was
read tells where the next array begins. `LayerGraph.Record.Outline.readAll` is that reader. A record
is found where its values begin, and the next one behind them (`LayerGraph.Record.readAt_of_drop`),
so every array of every record comes back, bit for bit (`LayerGraph.weightStream_readBack`).
-/

namespace LayerGraph

/-! ### The values of a record -/

def KernelWeights.values (w : KernelWeights) : List Single := w.kernel ++ w.bias.getD []

def NormParams.values (p : NormParams) : List Single :=
  p.gamma.getD [] ++ p.beta.getD [] ++ p.mean.getD [] ++ p.variance.getD []

/-- The values of a record: kernel, bias, scale, offset, mean and variance, as far as they are
present. -/
def Record.values (r : Record) : List Single :=
  (r.weights.map KernelWeights.values).getD [] ++ (r.norm.map NormParams.values).getD []

theorem KernelWeights.flatten_arrays (w : KernelWeights) : w.arrays.flatten = w.values := by
  cases h : w.bias <;> simp [arrays, values, h]

theorem NormParams.flatten_parts (p : NormParams) :
    (p.parts.map Prod.snd).flatten = p.values := by
  obtain ⟨_ | _, _ | _, _ | _, _ | _⟩ := p <;> simp [parts, values]

theorem Record.flatten_arrays (r : Record) : r.arrays.flatten = r.values := by
  rw [arrays_eq, List.flatten_append, values]
  cases r.weights <;> cases r.norm <;>
    simp [KernelWeights.flatten_arrays, NormParams.flatten_parts]

/-- **The stream consists of the values of the records**, in order. -/
theorem weightStream_eq_values (rs : List Record) :
    weightStream rs = Bytes.ofSingles (rs.flatMap Record.values) := by
  rw [weightStream_eq, List.flatten_flatten, List.map_map, List.flatMap_def]
  congr 2
  exact List.map_congr_left fun r _ => r.flatten_arrays

/-! ### Reading at an offset -/

namespace Bytes

variable {bs rest : Bytes} {offset : Nat}

/-- The values of an array of some length that begins at an offset. -/
def singlesAt (bs : Bytes) (offset length : Nat) : List Single :=
  (Tensor.ofSingleBytes [length] ((bs.drop offset).take (4 * length))).data

/-- Named arrays of given lengths, one after the other from an offset on. -/
def partsAt (bs : Bytes) : Nat → List (String × Nat) → Entries (List Single)
  | _, [] => []
  | offset, (name, length) :: parts =>
    (name, bs.singlesAt offset length) :: bs.partsAt (offset + 4 * length) parts

/-- Behind an array what follows it begins. -/
theorem drop_add_of_drop {xs : List Single} {k : Nat} (h : bs.drop offset = ofSingles xs ++ rest)
    (hk : xs.length = k) : bs.drop (offset + 4 * k) = rest := by
  rw [← List.drop_drop, h, List.drop_left' (by rw [length_ofSingles, hk])]

/-- **An array is found** where it begins. -/
theorem singlesAt_of_drop {xs : List Single} {k : Nat} (h : bs.drop offset = ofSingles xs ++ rest)
    (hk : xs.length = k) : bs.singlesAt offset k = xs := by
  rw [singlesAt, h, List.take_left' (by rw [length_ofSingles, hk]), data_ofSingleBytes_ofSingles]

/-- **Arrays are found** one after the other. -/
theorem partsAt_of_drop {parts : Entries (List Single)}
    (h : bs.drop offset = ofSingles (parts.map Prod.snd).flatten ++ rest) :
    bs.partsAt offset (parts.map fun part => (part.1, part.2.length)) = parts := by
  induction parts generalizing offset with
  | nil => rfl
  | cons part parts ih =>
    obtain ⟨name, xs⟩ := part
    rw [List.map_cons, List.flatten_cons, ofSingles_append, List.append_assoc] at h
    rw [List.map_cons, partsAt, singlesAt_of_drop h rfl, ih (drop_add_of_drop h rfl)]

end Bytes

/-! ### Reading by an outline -/

section Parts

variable {bs rest : Bytes} {offset : Nat}

/-- A kernel and its bias, if they begin at an offset. -/
def KernelWeights.readAt (bs : Bytes) (offset : Nat) (o : Nat × Option Nat) : KernelWeights where
  kernel := bs.singlesAt offset o.1
  bias := o.2.map (bs.singlesAt (offset + 4 * o.1))

theorem KernelWeights.readAt_of_drop {w : KernelWeights}
    (h : bs.drop offset = Bytes.ofSingles w.values ++ rest) : readAt bs offset w.outline = w := by
  obtain ⟨kernel, bias⟩ := w
  rw [values, Bytes.ofSingles_append, List.append_assoc] at h
  have hkernel : bs.singlesAt offset kernel.length = kernel := Bytes.singlesAt_of_drop h rfl
  have hbias := Bytes.drop_add_of_drop h rfl
  rcases bias with _ | bias
  · exact congrArg (KernelWeights.mk · none) hkernel
  · exact congrArg₂ (fun k b => KernelWeights.mk k (some b)) hkernel
      (Bytes.singlesAt_of_drop hbias rfl)

/-- The parameters of a batch normalization, if they begin at an offset. -/
def NormParams.readAt (bs : Bytes) (offset : Nat) (o : List (String × Nat)) : NormParams :=
  .ofParts (bs.partsAt offset o)

theorem NormParams.readAt_of_drop {p : NormParams}
    (h : bs.drop offset = Bytes.ofSingles p.values ++ rest) : readAt bs offset p.outline = p := by
  rw [← flatten_parts] at h
  rw [readAt, outline, Bytes.partsAt_of_drop h, ofParts_parts]

end Parts

namespace Record

/-- Which arrays a record has and how long they are: kernel and bias, and the parameters of a batch
normalization by name. -/
abbrev Outline := Option (Nat × Option Nat) × Option (List (String × Nat))

namespace Outline

/-- The number of values of kernel and bias. -/
def kernelSize (o : Outline) : Nat := (o.1.map fun k => k.1 + k.2.getD 0).getD 0

/-- The number of values of a batch normalization. -/
def normSize (o : Outline) : Nat := (o.2.map fun parts => (parts.map Prod.snd).sum).getD 0

/-- **Reading a record**: its arrays, if they begin at an offset. -/
def readAt (bs : Bytes) (offset : Nat) (o : Outline) : Option KernelWeights × Option NormParams :=
  (o.1.map (KernelWeights.readAt bs offset),
    o.2.map (NormParams.readAt bs (offset + 4 * o.kernelSize)))

/-- **Reading a stream** from an offset on, record by record. -/
def readAll (bs : Bytes) : Nat → List Outline → List (Option KernelWeights × Option NormParams)
  | _, [] => []
  | offset, o :: os =>
    o.readAt bs offset :: readAll bs (offset + 4 * (o.kernelSize + o.normSize)) os

end Outline

variable {bs rest : Bytes} {offset : Nat} {r : Record}

/-- Kernel and bias are as long as the outline says. -/
theorem length_kernelValues (r : Record) :
    ((r.weights.map KernelWeights.values).getD []).length = Outline.kernelSize r.outline := by
  rcases h : r.weights with _ | w
  · simp [outline, Outline.kernelSize, h]
  · rcases hb : w.bias with _ | b <;>
      simp [outline, Outline.kernelSize, KernelWeights.outline, KernelWeights.values, h, hb]

theorem length_normValues (r : Record) :
    ((r.norm.map NormParams.values).getD []).length = Outline.normSize r.outline := by
  rcases h : r.norm with _ | p
  · simp [outline, Outline.normSize, h]
  · have hlength : p.values.length = (p.outline.map Prod.snd).sum := by
      rw [← NormParams.flatten_parts, List.length_flatten, NormParams.length_parts]
    simpa [outline, Outline.normSize, h] using hlength

/-- **A record is found** where its values begin, and the next one behind them. -/
theorem readAt_of_drop (h : bs.drop offset = Bytes.ofSingles r.values ++ rest) :
    Outline.readAt bs offset r.outline = (r.weights, r.norm) ∧
      bs.drop (offset + 4 * (Outline.kernelSize r.outline + Outline.normSize r.outline)) = rest := by
  rw [values, Bytes.ofSingles_append, List.append_assoc] at h
  have hnorm := Bytes.drop_add_of_drop h r.length_kernelValues
  have hnext := Bytes.drop_add_of_drop hnorm r.length_normValues
  refine ⟨Prod.ext ?_ ?_, ?_⟩
  · change r.outline.1.map (KernelWeights.readAt bs offset) = r.weights
    rcases hw : r.weights with _ | w
    · simp [outline, hw]
    · rw [hw] at h
      simpa [outline, hw] using KernelWeights.readAt_of_drop h
  · change r.outline.2.map (NormParams.readAt bs _) = r.norm
    rcases hn : r.norm with _ | p
    · simp [outline, hn]
    · rw [hn] at hnorm
      simpa [outline, hn] using NormParams.readAt_of_drop hnorm
  · rwa [Nat.mul_add, ← Nat.add_assoc]

/-- **All records are found**, one after the other. -/
theorem readAll_of_drop {rs : List Record} (h : bs.drop offset = weightStream rs) :
    Outline.readAll bs offset (rs.map outline) = rs.map fun r => (r.weights, r.norm) := by
  induction rs generalizing offset with
  | nil => rfl
  | cons r rs ih =>
    rw [weightStream_eq_values, List.flatMap_cons, Bytes.ofSingles_append,
      ← weightStream_eq_values] at h
    obtain ⟨hread, hnext⟩ := readAt_of_drop h
    rw [List.map_cons, List.map_cons, Outline.readAll, hread, ih hnext]

end Record

/-- **The weight stream is read back.** It has four bytes for each value, and to decode it gives the
values of all records in order, bit for bit. A reader that knows the outlines of the records gets
back every array of each. And what is decoded from any bytes is encoded as these bytes, without an
incomplete value at the end. -/
theorem weightStream_readBack (rs : List Record) (dims : List Nat) (bs : Bytes) :
    (weightStream rs).length = 4 * (rs.flatMap Record.values).length ∧
      (Tensor.ofSingleBytes dims (weightStream rs)).data = rs.flatMap Record.values ∧
      Record.Outline.readAll (weightStream rs) 0 (rs.map Record.outline) =
        rs.map (fun r => (r.weights, r.norm)) ∧
      Bytes.ofSingles (Tensor.ofSingleBytes dims bs).data =
        bs.take (bs.length - bs.length % 4) := by
  refine ⟨?_, ?_, Record.readAll_of_drop rfl, Bytes.ofSingles_data_ofSingleBytes dims bs⟩
  · rw [weightStream_eq_values, Bytes.length_ofSingles]
  · rw [weightStream_eq_values, Bytes.data_ofSingleBytes_ofSingles]

end LayerGraph
