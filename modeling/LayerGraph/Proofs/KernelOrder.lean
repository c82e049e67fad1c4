import LayerGraph.Tensor.Kernel
import Mathlib.Algebra.BigOperators.Group.List.Basic
import Mathlib.Data.Fintype.EquivFin
import Mathlib.Data.List.FinRange
import Mathlib.Tactic.Ring

/-!
# Where the values of a kernel go

Reordering a kernel walks over its data along axes that have changed places. A place is given by
a step along each axis, so what is looked at here are lists of axes with a step along each of them
(`LayerGraph.Axis.Inside`). Such a list has a place in the order of the walk
(`LayerGraph.Axis.place`) and a place in the data, which is a sum over its members
(`LayerGraph.Axis.reach`). The walk visits the one at the other (`LayerGraph.Axis.offset_place`).
A sum does not see that its members change places, and before they do, the two places are the same
(`LayerGraph.Axis.place_eq_reach`): this settles where a value goes, whatever the exchanges are
(`LayerGraph.KernelOrder.offset_rearrange`).

Every place of the data is such a sum, so each is visited, and since there are as many steps as
places, each is visited once. The formulas of the layouts (`LayerGraph.KernelOrder.Moves`) are
read off at the end.
-/

namespace LayerGraph

theorem places_eq_prod (dims : List Nat) : places dims = dims.prod :=
  List.prod_eq_foldl.symm

@[simp] theorem places_cons (d : Nat) (dims : List Nat) : places (d :: dims) = d * places dims := by
  simp only [places_eq_prod, List.prod_cons]

/-! ### Steps along axes -/

namespace Axis

variable {ps qs : List (Axis × Nat)} {axes : List Axis} {dims : List Nat} {k : Nat}

/-- The extents of the axes. -/
def extents (ps : List (Axis × Nat)) : List Nat := ps.map fun p => p.1.extent

/-- No step goes beyond its axis. -/
def Inside (ps : List (Axis × Nat)) : Prop := ∀ p ∈ ps, p.2 < p.1.extent

/-- The place in the order of the walk, in which the last axis moves fastest. -/
def place : List (Axis × Nat) → Nat
  | [] => 0
  | p :: ps => p.2 * places (extents ps) + place ps

/-- The place in the data. -/
def reach (ps : List (Axis × Nat)) : Nat := (ps.map fun p => p.2 * p.1.stride).sum

theorem extents_cons (p : Axis × Nat) (ps : List (Axis × Nat)) :
    extents (p :: ps) = p.1.extent :: extents ps := rfl

theorem map_extent (ps : List (Axis × Nat)) : (ps.map Prod.fst).map extent = extents ps := by
  rw [List.map_map]
  rfl

theorem map_extent_rowMajor (dims : List Nat) : (rowMajor dims).map extent = dims := by
  induction dims with
  | nil => rfl
  | cons d dims ih => rw [rowMajor, List.map_cons, ih]

theorem place_lt (h : Inside ps) : place ps < places (extents ps) := by
  induction ps with
  | nil => exact Nat.one_pos
  | cons p ps ih =>
    obtain ⟨hp, hps⟩ := List.forall_mem_cons.mp h
    rw [place, extents_cons, places_cons]
    calc p.2 * places (extents ps) + place ps
        < p.2 * places (extents ps) + places (extents ps) := Nat.add_lt_add_left (ih hps) _
      _ = (p.2 + 1) * places (extents ps) := (Nat.succ_mul ..).symm
      _ ≤ p.1.extent * places (extents ps) := Nat.mul_le_mul_right _ hp

/-- Every place of the walk is reached by steps along the axes. -/
theorem exists_place (h : k < places (axes.map extent)) :
    ∃ ps, ps.map Prod.fst = axes ∧ Inside ps ∧ place ps = k := by
  induction axes generalizing k with
  | nil =>
    obtain rfl : k = 0 := Nat.lt_one_iff.mp h
    exact ⟨[], rfl, nofun, rfl⟩
  | cons a axes ih =>
    rw [List.map_cons, places_cons] at h
    have hpos : 0 < places (axes.map extent) := Nat.pos_of_lt_mul_left h
    obtain ⟨ps, rfl, hin, hps⟩ := ih (Nat.mod_lt k hpos)
    rw [map_extent] at h hps
    refine ⟨(a, k / places (extents ps)) :: ps, rfl, ?_, ?_⟩
    · exact List.forall_mem_cons.mpr ⟨Nat.div_lt_of_lt_mul (Nat.mul_comm .. ▸ h), hin⟩
    · rw [place, hps]
      exact Nat.div_add_mod' k _

/-- **The walk visits at a place what the steps reach.** -/
theorem offset_place (h : Inside ps) : offset (ps.map Prod.fst) (place ps) = reach ps := by
  induction ps with
  | nil => rfl
  | cons p ps ih =>
    obtain ⟨-, hps⟩ := List.forall_mem_cons.mp h
    have hlt := place_lt hps
    have hpos : 0 < places (extents ps) := Nat.zero_lt_of_lt hlt
    rw [List.map_cons, offset, map_extent]
    simp only [place]
    -- the step along the first axis is the quotient, the others are in the remainder
    rw [Nat.mul_comm p.2, Nat.mul_add_div hpos, Nat.div_eq_of_lt hlt, Nat.add_zero,
      Nat.mul_add_mod, Nat.mod_eq_of_lt hlt, ih hps, reach, reach, List.map_cons, List.sum_cons]

/-- **Row by row**, the place in the data is the place of the walk. -/
theorem place_eq_reach (h : ps.map Prod.fst = rowMajor dims) : place ps = reach ps := by
  induction dims generalizing ps with
  | nil =>
    obtain rfl := List.map_eq_nil_iff.mp h
    rfl
  | cons d dims ih =>
    obtain ⟨p, ps, rfl, hp, hps⟩ := List.map_eq_cons_iff.mp h
    have hext : extents ps = dims := by rw [← map_extent, hps, map_extent_rowMajor]
    have hstride : p.1.stride = places dims := by rw [hp]
    rw [place, ih hps, hext, reach, reach, List.map_cons, List.sum_cons, hstride]

theorem reach_perm (h : ps.Perm qs) : reach ps = reach qs := (h.map _).sum_eq

theorem Inside.perm (h : Inside ps) (hp : ps.Perm qs) : Inside qs :=
  fun p hmem => h p (hp.mem_iff.mpr hmem)

theorem places_extents_perm (h : ps.Perm qs) : places (extents ps) = places (extents qs) := by
  rw [places_eq_prod, places_eq_prod]
  exact (h.map _).prod_eq

end Axis

/-! ### Exchanging axes -/

section Exchange

variable {α β : Type} {order : KernelOrder} {dims : List Nat}

theorem exchange_perm (xs : List α) (a b : Nat) : (exchange xs a b).Perm xs := by
  rw [exchange]
  split
  · next x y hx hy =>
    obtain ⟨ha, rfl⟩ := List.getElem?_eq_some_iff.mp hx
    obtain ⟨hb, rfl⟩ := List.getElem?_eq_some_iff.mp hy
    exact List.set_set_perm ha hb
  · rfl

theorem map_exchange (f : α → β) (xs : List α) (a b : Nat) :
    (exchange xs a b).map f = exchange (xs.map f) a b := by
  rw [exchange, exchange, List.getElem?_map, List.getElem?_map]
  cases xs[a]? <;> cases xs[b]? <;> simp only [Option.map_some, Option.map_none, List.map_set]

namespace KernelOrder

theorem rearrange_perm (order : KernelOrder) (xs : List α) : (order.rearrange xs).Perm xs := by
  -- a chain of exchanges is a permutation because each of them is
  have key : ∀ (es : List (Nat × Nat)) (xs : List α),
      (es.foldl (fun xs p => exchange xs p.1 p.2) xs).Perm xs := by
    intro es
    induction es with
    | nil => exact fun xs => .refl xs
    | cons p es ih => exact fun xs => (ih _).trans (exchange_perm xs p.1 p.2)
  exact key _ xs

theorem map_rearrange (order : KernelOrder) (f : α → β) (xs : List α) :
    (order.rearrange xs).map f = order.rearrange (xs.map f) := by
  have key : ∀ (es : List (Nat × Nat)) (xs : List α),
      (es.foldl (fun xs p => exchange xs p.1 p.2) xs).map f =
        es.foldl (fun xs p => exchange xs p.1 p.2) (xs.map f) := by
    intro es
    induction es with
    | nil => exact fun xs => rfl
    | cons p es ih =>
      intro xs
      rw [List.foldl_cons, List.foldl_cons, ih, map_exchange]
  exact key _ xs

/-- **Where a value goes**: the walk along rearranged axes visits the data at the place that the
steps have when they are not rearranged. -/
theorem offset_rearrange {ps : List (Axis × Nat)} (order : KernelOrder)
    (h : ps.map Prod.fst = Axis.rowMajor dims) (hin : Axis.Inside ps) :
    Axis.offset (order.rearrange (Axis.rowMajor dims)) (Axis.place (order.rearrange ps)) =
      Axis.place ps := by
  have hperm := order.rearrange_perm ps
  calc Axis.offset (order.rearrange (Axis.rowMajor dims)) (Axis.place (order.rearrange ps))
      = Axis.offset ((order.rearrange ps).map Prod.fst) (Axis.place (order.rearrange ps)) := by
        rw [map_rearrange, h]
    _ = Axis.reach (order.rearrange ps) := Axis.offset_place (hin.perm hperm.symm)
    _ = Axis.reach ps := Axis.reach_perm hperm
    _ = Axis.place ps := (Axis.place_eq_reach h).symm

theorem place_rearrange_lt {ps : List (Axis × Nat)} (order : KernelOrder)
    (h : ps.map Prod.fst = Axis.rowMajor dims) (hin : Axis.Inside ps) :
    Axis.place (order.rearrange ps) < places dims := by
  have hperm := order.rearrange_perm ps
  have hext : places (Axis.extents (order.rearrange ps)) = places dims := by
    rw [Axis.places_extents_perm hperm, ← Axis.map_extent, h, Axis.map_extent_rowMajor]
  exact hext ▸ Axis.place_lt (hin.perm hperm.symm)

/-- **The walk is a permutation**: it visits every place of the data, and each of them once. -/
theorem exists_perm_offset (order : KernelOrder) (dims : List Nat) :
    ∃ σ : Equiv.Perm (Fin (places dims)),
      ∀ k : Fin (places dims), Axis.offset (order.rearrange (Axis.rowMajor dims)) k = σ k := by
  -- the step of the walk at which a place of the data is visited
  have hvisit : ∀ j : Fin (places dims), ∃ k : Fin (places dims),
      Axis.offset (order.rearrange (Axis.rowMajor dims)) k = j := by
    rintro ⟨j, hj⟩
    have hj' : j < places ((Axis.rowMajor dims).map Axis.extent) := by
      rwa [Axis.map_extent_rowMajor]
    obtain ⟨ps, hps, hin, rfl⟩ := Axis.exists_place hj'
    exact ⟨⟨_, order.place_rearrange_lt hps hin⟩, order.offset_rearrange hps hin⟩
  choose step hstep using hvisit
  have hinj : Function.Injective step := by
    intro i j hij
    exact Fin.ext (by rw [← hstep i, ← hstep j, hij])
  let σ := Equiv.ofBijective step (Finite.injective_iff_bijective.mp hinj)
  refine ⟨σ.symm, fun k => ?_⟩
  rw [← hstep (σ.symm k)]
  exact congrArg (fun k : Fin _ => Axis.offset _ (k : Nat)) (σ.apply_symm_apply k).symm

/-! ### Axes of a kernel -/

/-- The shape of a kernel, in which a vector is a single column. -/
def heldDims (order : KernelOrder) (dims : List Nat) : List Nat :=
  if order = .inOut ∧ dims.length = 1 then dims ++ [1] else dims

/-- The ranks that are accepted. -/
def ranks : KernelOrder → List Nat
  | .inOut => [1, 2]
  | _ => [4]

theorem length_rowMajor (dims : List Nat) : (Axis.rowMajor dims).length = dims.length := by
  rw [← List.length_map, Axis.map_extent_rowMajor]

theorem heldAxes_eq (order : KernelOrder) (dims : List Nat) :
    order.heldAxes dims = Axis.rowMajor (order.heldDims dims) := by
  rw [heldAxes, heldDims, length_rowMajor]
  split
  · next h =>
    obtain ⟨n, rfl⟩ := List.length_eq_one_iff.mp h.2
    rfl
  · rfl

theorem places_heldDims (order : KernelOrder) (dims : List Nat) :
    places (order.heldDims dims) = places dims := by
  rw [heldDims]
  split
  · rw [places_eq_prod, List.prod_append, List.prod_singleton, Nat.mul_one, ← places_eq_prod]
  · rfl

/-- **The axes of a kernel** are those of its shape, if the rank is accepted. -/
theorem axes?_eq (order : KernelOrder) (dims : List Nat) :
    order.axes? dims = if dims.length ∈ order.ranks then
      some (order.rearrange (Axis.rowMajor (order.heldDims dims))) else none := by
  have hrank : (order.heldDims dims).length = order.rank ↔ dims.length ∈ order.ranks := by
    rw [heldDims]
    cases order with
    | inOut =>
      by_cases h1 : dims.length = 1
      · simp [h1, rank, ranks]
      · simp [h1, rank, ranks]
    | _ => simp [rank, ranks]
  rw [axes?, heldAxes_eq, length_rowMajor]
  simp only [hrank]

end KernelOrder

end Exchange

/-! ### Data that fills its shape -/

namespace Tensor

variable {kernel : Tensor} {order : KernelOrder} {dims : List Nat} {data : List Single}

/-- **The data fills the shape**, and the positive extents have no more places than a signed word
can count. -/
structure Filled (t : Tensor) : Prop where
  countable : (t.dims.filter (· ≠ 0)).prod < twoPow 63
  full : t.dims.prod = t.data.length

instance (t : Tensor) : Decidable t.Filled :=
  decidable_of_iff ((t.dims.filter (· ≠ 0)).prod < twoPow 63 ∧ t.dims.prod = t.data.length)
    ⟨fun h => ⟨h.1, h.2⟩, fun h => ⟨h.1, h.2⟩⟩

theorem fit_eq_ok_iff : kernel.fit = .ok () ↔ kernel.Filled := by
  rw [fit, places_eq_prod, places_eq_prod]
  constructor
  · intro h
    split at h
    · cases h
    · split at h
      · cases h
      · split at h
        · cases h
        · next hc _ hf => exact ⟨Nat.lt_of_not_le hc, not_not.mp hf⟩
  · rintro ⟨hc, hf⟩
    rw [if_neg (Nat.not_le_of_lt hc), if_neg (by omega), if_neg (by omega)]

theorem exists_fit_error (h : ¬ kernel.Filled) : ∃ e, kernel.fit = .error e := by
  cases hfit : kernel.fit with
  | error e => exact ⟨e, rfl⟩
  | ok u => exact absurd (fit_eq_ok_iff.mp hfit) h

/-- **The walk over a filled kernel** reads at each step the value that it visits. -/
theorem exists_engineOrder (ho : order ≠ .native) (hr : dims.length ∈ order.ranks)
    (hf : (⟨dims, data⟩ : Tensor).Filled) :
    ∃ out, (⟨dims, data⟩ : Tensor).engineOrder order = .ok out ∧ out.length = data.length ∧
      ∀ k p, k < data.length → p < data.length →
        Axis.offset (order.rearrange (Axis.rowMajor (order.heldDims dims))) k = p →
        out[k]? = data[p]? := by
  have hout : (⟨dims, data⟩ : Tensor).engineOrder order =
      .ok ((List.range data.length).map fun k => data.toArray.getD
        (Axis.offset (order.rearrange (Axis.rowMajor (order.heldDims dims))) k) .zero) := by
    simp only [engineOrder, if_neg ho, fit_eq_ok_iff.mpr hf, KernelOrder.axes?_eq, if_pos hr,
      List.size_toArray]
  refine ⟨_, hout, by rw [List.length_map, List.length_range], ?_⟩
  rintro k p hk hp rfl
  simp [hk, hp]

/-- Values read through a permutation of the places are permuted. -/
theorem perm_of_getElem? {xs ys : List Single} {n : Nat} (σ : Equiv.Perm (Fin n))
    (hx : xs.length = n) (hy : ys.length = n) (h : ∀ k : Fin n, ys[(k : Nat)]? = xs[(σ k : Nat)]?) :
    ys.Perm xs := by
  subst hx
  have hys : ys = List.ofFn ((fun k : Fin xs.length => xs[k]) ∘ σ) := by
    refine List.ext_getElem (by rw [hy, List.length_ofFn]) fun k hk _ => ?_
    have hk' := h ⟨k, hy ▸ hk⟩
    rw [List.getElem?_eq_getElem hk, List.getElem?_eq_getElem (σ _).isLt] at hk'
    rw [List.getElem_ofFn]
    exact Option.some.inj hk'
  calc ys = List.ofFn ((fun k : Fin xs.length => xs[k]) ∘ σ) := hys
    _ |>.Perm (List.ofFn fun k : Fin xs.length => xs[k]) := σ.ofFn_comp_perm _
    _ = xs := List.ofFn_getElem

end Tensor

/-! ### The layouts -/

/-- **Where the layouts move a value**: from its place in the data to its place in the engine's
order, both given by the indices of row, column, input and output. A vector stays as it is. -/
inductive KernelOrder.Moves : KernelOrder → List Nat → Nat → Nat → Prop
  | rowsColumnsInOut {h w i o H W I O : Nat} (hh : h < H) (hw : w < W) (hi : i < I) (ho : o < O) :
      Moves .rowsColumnsInOut [H, W, I, O] (((h * W + w) * I + i) * O + o)
        (((o * I + i) * H + h) * W + w)
  | rowsColumnsOutIn {h w o i H W O I : Nat} (hh : h < H) (hw : w < W) (ho : o < O) (hi : i < I) :
      Moves .rowsColumnsOutIn [H, W, O, I] (((h * W + w) * O + o) * I + i)
        (((o * I + i) * H + h) * W + w)
  | inOut {i o I O : Nat} (hi : i < I) (ho : o < O) : Moves .inOut [I, O] (i * O + o) (o * I + i)
  | vector {k n : Nat} (hk : k < n) : Moves .inOut [n] k k

/-- The formulas of a layout are those of steps along its axes. -/
theorem KernelOrder.Moves.exists_steps {order : KernelOrder} {dims : List Nat} {p q : Nat}
    (h : order.Moves dims p q) : ∃ ps, ps.map Prod.fst = Axis.rowMajor (order.heldDims dims) ∧
      Axis.Inside ps ∧ Axis.place ps = p ∧ Axis.place (order.rearrange ps) = q := by
  cases h with
  | @rowsColumnsInOut h w i o H W I O hh hw hi ho =>
    refine ⟨(Axis.rowMajor [H, W, I, O]).zip [h, w, i, o], rfl, ?_, ?_, ?_⟩
    · simp [Axis.Inside, Axis.rowMajor, hh, hw, hi, ho]
    · simp [Axis.place, Axis.extents, Axis.rowMajor, places]
      ring
    · simp [Axis.place, Axis.extents, Axis.rowMajor, places, rearrange, exchanges, exchange]
      ring
  | @rowsColumnsOutIn h w o i H W O I hh hw ho hi =>
    refine ⟨(Axis.rowMajor [H, W, O, I]).zip [h, w, o, i], rfl, ?_, ?_, ?_⟩
    · simp [Axis.Inside, Axis.rowMajor, hh, hw, hi, ho]
    · simp [Axis.place, Axis.extents, Axis.rowMajor, places]
      ring
    · simp [Axis.place, Axis.extents, Axis.rowMajor, places, rearrange, exchanges, exchange]
      ring
  | @inOut i o I O hi ho =>
    refine ⟨(Axis.rowMajor [I, O]).zip [i, o], rfl, ?_, ?_, ?_⟩
    · simp [Axis.Inside, Axis.rowMajor, hi, ho]
    · simp [Axis.place, Axis.extents, Axis.rowMajor, places]
    · simp [Axis.place, Axis.extents, Axis.rowMajor, places, rearrange, exchanges, exchange]
  | @vector _ n hk =>
    refine ⟨(Axis.rowMajor [n, 1]).zip [p, 0], rfl, ?_, ?_, ?_⟩
    · simp [Axis.Inside, Axis.rowMajor, hk]
    · simp [Axis.place, Axis.extents, Axis.rowMajor, places]
    · simp [Axis.place, Axis.extents, Axis.rowMajor, places, rearrange, exchanges, exchange]

namespace Tensor

/-- **Reordering a kernel is a permutation of its values**, and which one depends on layout and
shape alone. The native layout returns the data whatever the shape is. Any other fails for data
that does not fill the shape, and else for a rank that it does not accept. In all other cases
there is a permutation of the places that says, for all data, where a value in the engine's order
stood before, and it moves the values as the formulas of the layout have it. -/
theorem engineOrder_permutes (order : KernelOrder) (dims : List Nat) :
    (∀ data, (⟨dims, data⟩ : Tensor).engineOrder .native = .ok data) ∧
      (order ≠ .native →
        (∀ data, ¬ (⟨dims, data⟩ : Tensor).Filled →
          ∃ e, (⟨dims, data⟩ : Tensor).engineOrder order = .error (.shape e)) ∧
        (∀ data, (⟨dims, data⟩ : Tensor).Filled → dims.length ∉ order.ranks →
          (⟨dims, data⟩ : Tensor).engineOrder order = .error (.rank order.rank dims)) ∧
        (dims.length ∈ order.ranks → ∃ σ : Equiv.Perm (Fin dims.prod), ∀ data,
          (⟨dims, data⟩ : Tensor).Filled →
            ∃ out, (⟨dims, data⟩ : Tensor).engineOrder order = .ok out ∧
              out.length = data.length ∧ out.Perm data ∧
              (∀ k : Fin dims.prod, out[(k : Nat)]? = data[(σ k : Nat)]? ∧
                data[(k : Nat)]? = out[(σ.symm k : Nat)]?) ∧
              (∀ p q, order.Moves dims p q → q < out.length ∧ out[q]? = data[p]?) ∧
              (dims.length = 1 → out = data))) := by
  refine ⟨fun data => rfl, fun ho => ⟨fun data hf => ?_, fun data hf hr => ?_, fun hr => ?_⟩⟩
  · obtain ⟨e, he⟩ := exists_fit_error hf
    exact ⟨e, by simp only [engineOrder, if_neg ho, he]⟩
  · simp only [engineOrder, if_neg ho, fit_eq_ok_iff.mpr hf, KernelOrder.axes?_eq, if_neg hr]
  · have hplaces : places (order.heldDims dims) = dims.prod := by
      rw [KernelOrder.places_heldDims, places_eq_prod]
    have hperm := order.exists_perm_offset (order.heldDims dims)
    rw [hplaces] at hperm
    obtain ⟨σ, hσ⟩ := hperm
    refine ⟨σ, fun data hf => ?_⟩
    obtain ⟨out, hout, hlen, hread⟩ := exists_engineOrder ho hr hf
    have hfull : dims.prod = data.length := hf.full
    have hσout : ∀ k : Fin dims.prod, out[(k : Nat)]? = data[(σ k : Nat)]? := fun k =>
      hread k (σ k) (hfull ▸ k.isLt) (hfull ▸ (σ k).isLt) (hσ k)
    have hmoves : ∀ p q, order.Moves dims p q → q < out.length ∧ out[q]? = data[p]? := by
      intro p q hpq
      obtain ⟨ps, hps, hin, rfl, rfl⟩ := hpq.exists_steps
      have hq := order.place_rearrange_lt hps hin
      have hp := Axis.place_lt hin
      rw [← Axis.map_extent, hps, Axis.map_extent_rowMajor] at hp
      rw [hplaces, hfull] at hp hq
      exact ⟨hlen ▸ hq, hread _ _ hq hp (order.offset_rearrange hps hin)⟩
    have hinv : ∀ k : Fin dims.prod, data[(k : Nat)]? = out[(σ.symm k : Nat)]? := fun k => by
      rw [hσout, σ.apply_symm_apply]
    refine ⟨out, hout, hlen, perm_of_getElem? σ hfull.symm (hlen.trans hfull.symm) hσout,
      fun k => ⟨hσout k, hinv k⟩, hmoves, fun h1 => ?_⟩
    -- only a vector for a dense layer has one extent, and its values stay where they are
    obtain ⟨n, rfl⟩ := List.length_eq_one_iff.mp h1
    obtain rfl : order = .inOut := by cases order <;> simp_all [KernelOrder.ranks]
    refine List.ext_getElem? fun k => ?_
    rcases Nat.lt_or_ge k out.length with hk | hk
    · exact (hmoves k k (.vector (by simpa [hlen, ← hfull] using hk))).2
    · rw [List.getElem?_eq_none hk, List.getElem?_eq_none (hlen ▸ hk)]

/-- Twenty-four values, all different. -/
def countedValues : List Single := (List.range 24).map Floating.ofWord

/-- As a kernel of two rows and columns, three inputs and two outputs they are reordered, and the
value of the second row, first column, third input and second output goes from place 17 to place
22. As a table they have the wrong rank, and they do not fill a smaller one. -/
theorem engineOrder_countedValues :
    (KernelOrder.rowsColumnsInOut ≠ .native ∧ (⟨[2, 2, 3, 2], countedValues⟩ : Tensor).Filled ∧
      [2, 2, 3, 2].length ∈ KernelOrder.rowsColumnsInOut.ranks ∧
      ∃ out, (⟨[2, 2, 3, 2], countedValues⟩ : Tensor).engineOrder .rowsColumnsInOut = .ok out ∧
        out.Perm countedValues ∧ out[22]? = some (Floating.ofWord 17)) ∧
      ((⟨[4, 6], countedValues⟩ : Tensor).Filled ∧
        (⟨[4, 6], countedValues⟩ : Tensor).engineOrder .rowsColumnsOutIn =
          .error (.rank 4 [4, 6])) ∧
      (¬ (⟨[4, 5], countedValues⟩ : Tensor).Filled ∧
        ∃ e, (⟨[4, 5], countedValues⟩ : Tensor).engineOrder .rowsColumnsOutIn =
          .error (.shape e)) := by
  have hf : (⟨[2, 2, 3, 2], countedValues⟩ : Tensor).Filled := by decide
  have ht : (⟨[4, 6], countedValues⟩ : Tensor).Filled := by decide
  have hs : ¬ (⟨[4, 5], countedValues⟩ : Tensor).Filled := by decide
  obtain ⟨-, h⟩ := engineOrder_permutes .rowsColumnsInOut [2, 2, 3, 2]
  obtain ⟨-, -, hσ⟩ := h nofun
  obtain ⟨σ, hσ⟩ := hσ (by decide)
  obtain ⟨out, hout, -, hperm, -, hmoves, -⟩ := hσ countedValues hf
  obtain ⟨-, hplace⟩ := hmoves 17 22 (.rowsColumnsInOut (h := 1) (w := 0) (i := 2) (o := 1)
    (by decide) (by decide) (by decide) (by decide))
  refine ⟨⟨nofun, hf, by decide, out, hout, hperm, hplace.trans (by decide)⟩, ⟨ht, ?_⟩, hs, ?_⟩
  · exact ((engineOrder_permutes .rowsColumnsOutIn [4, 6]).2 nofun).2.1 _ ht (by decide)
  · exact ((engineOrder_permutes .rowsColumnsOutIn [4, 5]).2 nofun).1 _ hs

end Tensor

end LayerGraph
