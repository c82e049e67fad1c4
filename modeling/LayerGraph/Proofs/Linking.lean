import LayerGraph.Link
import LayerGraph.Proofs.Live
import Mathlib.Data.List.Forall2

/-!
# What linking asks for and what it keeps

A record list can be linked exactly if every operand is the name of a record before the one
that lists it (`LayerGraph.Record.linkFrom_eq_none_iff`), and where it fails, such an operand is
what it fails for (`LayerGraph.Record.exists_operand_of_linkFrom`). Linking fills in the wiring and
the plane counts and nothing else (`LayerGraph.Record.map_linkFrom`), and the positions it fills in
are those of the operands, slot by slot (`LayerGraph.Record.settledAt_of_linkAll`).
-/

namespace LayerGraph

namespace Record

variable {names : List String} {i j k : Nat} {x : String} {r r' : Record}
  {done rs out : List Record}

/-! ### One record -/

/-- An operand of the record at position `i` is settled by the last record of its name, which
comes before. -/
def Locates (names : List String) (i : Nat) (x : String) (j : Nat) : Prop :=
  lastPosition? x names = some j ∧ j < i

theorem operandId_eq_ok_iff {record : String} :
    operandId names i record x = .ok j ↔ Locates names i x j := by
  rw [operandId, Locates]
  cases lastPosition? x names with
  | none => simp
  | some l =>
    by_cases hl : l < i <;> simp only [hl, if_true, if_false, Except.ok.injEq, Option.some.injEq,
      reduceCtorEq, false_iff, not_and]
    · exact ⟨fun h => ⟨h, h ▸ hl⟩, And.left⟩
    · exact fun h => h ▸ hl

/-- **The positions of all operands** are found slot by slot. -/
theorem operandIds_eq_ok_iff {record : String} {xs : List String} {ids : List Nat} :
    operandIds names i record xs = .ok ids ↔ List.Forall₂ (Locates names i) xs ids := by
  induction xs generalizing ids with
  | nil => simp [operandIds, eq_comm]
  | cons x xs ih =>
    rw [operandIds]
    cases hx : operandId names i record x with
    | error e =>
      refine ⟨nofun, fun h => ?_⟩
      obtain ⟨j, _, hj, -, -⟩ := List.forall₂_cons_left_iff.mp h
      rw [operandId_eq_ok_iff.mpr hj] at hx
      cases hx
    | ok j =>
      cases hxs : operandIds names i record xs with
      | error e =>
        refine ⟨nofun, fun h => ?_⟩
        obtain ⟨_, js, -, hjs, -⟩ := List.forall₂_cons_left_iff.mp h
        rw [ih.mpr hjs] at hxs
        cases hxs
      | ok js =>
        constructor
        · intro h
          obtain rfl := Except.ok.inj h
          exact .cons (operandId_eq_ok_iff.mp hx) (ih.mp hxs)
        · intro h
          obtain ⟨j', js', hj, hjs, rfl⟩ := List.forall₂_cons_left_iff.mp h
          obtain rfl := Except.ok.inj (hx.symm.trans (operandId_eq_ok_iff.mpr hj))
          obtain rfl := Except.ok.inj (hxs.symm.trans (ih.mpr hjs))
          rfl

/-- The operands of a record at position `i` are settled by the positions it carries. -/
def SettledAt (names : List String) (i : Nat) (r : Record) : Prop :=
  List.Forall₂ (Locates names i) r.inbounds r.inputIds

/-- **A linked record** differs from the record in wiring and plane counts. -/
theorem exists_of_link (h : r.link names done = .ok r') :
    ∃ ids inputs outputs, List.Forall₂ (Locates names done.length) r.inbounds ids ∧
      r' = { r with
        inputIds := ids
        numInputs := ids.length
        inputPlanes := inputs
        outputPlanes := outputs } := by
  rw [link] at h
  split at h
  · cases h
  · next ids hids => exact ⟨ids, _, _, operandIds_eq_ok_iff.mp hids, (Except.ok.inj h).symm⟩

/-- There is something for every slot exactly if there is something for every element. -/
theorem exists_forall₂_iff {α β : Type} {R : α → β → Prop} {xs : List α} :
    (∃ ys, List.Forall₂ R xs ys) ↔ ∀ x ∈ xs, ∃ y, R x y := by
  induction xs with
  | nil => simp
  | cons x xs ih =>
    rw [List.forall_mem_cons, ← ih]
    constructor
    · rintro ⟨ys, h⟩
      obtain ⟨y, zs, hy, hzs, -⟩ := List.forall₂_cons_left_iff.mp h
      exact ⟨⟨y, hy⟩, zs, hzs⟩
    · rintro ⟨⟨y, hy⟩, zs, hzs⟩
      exact ⟨y :: zs, .cons hy hzs⟩

/-- **A record can be linked exactly if all its operands are located.** -/
theorem exists_link_iff : (∃ r', r.link names done = .ok r') ↔
    ∀ x ∈ r.inbounds, ∃ j, Locates names done.length x j := by
  rw [← exists_forall₂_iff]
  constructor
  · rintro ⟨r', h⟩
    obtain ⟨ids, -, -, hids, -⟩ := exists_of_link h
    exact ⟨ids, hids⟩
  · rintro ⟨ids, hids⟩
    exact ⟨_, by rw [link, operandIds_eq_ok_iff.mpr hids]⟩

/-! ### All records -/

theorem linkFrom_cons (h : r.link names done = .ok r') :
    linkFrom names done (r :: rs) = linkFrom names (done ++ [r']) rs := by
  rw [linkFrom, h]

/-- **Linking succeeds exactly if every operand is located** before the record that lists it. -/
theorem linkFrom_eq_none_iff :
    (linkFrom names done rs).2 = none ↔
      ∀ k r, rs[k]? = some r → ∀ x ∈ r.inbounds, ∃ j, Locates names (done.length + k) x j := by
  induction rs generalizing done with
  | nil => simp [linkFrom]
  | cons r rs ih =>
    constructor
    · intro h
      rw [linkFrom] at h
      split at h
      · next r' hr' =>
        rintro (_ | k) s hs x hx
        · obtain rfl := Option.some.inj hs
          exact exists_link_iff.mp ⟨r', hr'⟩ x hx
        · have := ih.mp h k s hs x hx
          rwa [List.length_append, List.length_singleton, Nat.add_right_comm, Nat.add_assoc] at this
      · cases h
    · intro h
      -- the records that follow are one place further on
      obtain ⟨r', hr'⟩ := exists_link_iff.mpr (h 0 r rfl)
      rw [linkFrom_cons hr', ih]
      intro k s hs x hx
      rw [List.length_append, List.length_singleton, Nat.add_assoc, Nat.add_comm 1]
      exact h (k + 1) s hs x hx

/-! ### What linking fails for -/

/-- An operand that cannot be settled is unknown, or it is the name of a record that does not come
before. -/
theorem cases_of_operandId_error {record : String} {fault : GraphFault}
    (h : operandId names i record x = .error fault) :
    fault = .unknownReference record x ∨ ∃ j, fault = .laterReference record i x j := by
  rw [operandId] at h
  split at h
  · exact Or.inl (Except.error.inj h).symm
  · next j _ =>
    split at h
    · cases h
    · exact Or.inr ⟨j, (Except.error.inj h).symm⟩

theorem exists_operand_of_operandIds {record : String} {xs : List String} {fault : GraphFault}
    (h : operandIds names i record xs = .error fault) :
    ∃ x ∈ xs, operandId names i record x = .error fault := by
  induction xs with
  | nil => cases h
  | cons x xs ih =>
    rw [operandIds] at h
    cases hx : operandId names i record x with
    | error e =>
      rw [hx] at h
      obtain rfl := Except.error.inj h
      exact ⟨x, List.mem_cons_self, hx⟩
    | ok j =>
      cases hxs : operandIds names i record xs with
      | error e =>
        rw [hx, hxs] at h
        obtain rfl := Except.error.inj h
        obtain ⟨y, hy, hfail⟩ := ih hxs
        exact ⟨y, List.mem_cons_of_mem x hy, hfail⟩
      | ok js =>
        rw [hx, hxs] at h
        cases h

/-- **Linking fails for an operand** of one of the records. -/
theorem exists_operand_of_linkFrom {fault : GraphFault}
    (h : (linkFrom names done rs).2 = some fault) :
    ∃ k r, ∃ x ∈ r.inbounds, rs[k]? = some r ∧
      operandId names (done.length + k) r.name x = .error fault := by
  induction rs generalizing done with
  | nil => cases h
  | cons r rs ih =>
    rw [linkFrom] at h
    split at h
    · obtain ⟨k, s, x, hx, hs, hfail⟩ := ih h
      refine ⟨k + 1, s, x, hx, hs, ?_⟩
      rwa [List.length_append, List.length_singleton, Nat.add_assoc, Nat.add_comm 1] at hfail
    · next e hlink =>
      obtain rfl := Option.some.inj h
      rw [link] at hlink
      split at hlink
      · next hids =>
        obtain rfl := Except.error.inj hlink
        obtain ⟨x, hx, hfail⟩ := exists_operand_of_operandIds hids
        exact ⟨0, r, x, hx, rfl, hfail⟩
      · cases hlink

/-! ### What linking keeps -/

/-- **Linking keeps all that is not wiring or a plane count**, whether it succeeds or not. -/
theorem map_linkFrom {β : Type} {p : Record → β}
    (hp : ∀ (r : Record) ids k inputs outputs,
      p { r with inputIds := ids, numInputs := k, inputPlanes := inputs, outputPlanes := outputs } =
        p r) :
    (linkFrom names done rs).1.map p = (done ++ rs).map p := by
  induction rs generalizing done with
  | nil => simp [linkFrom]
  | cons r rs ih =>
    rw [linkFrom]
    split
    · next r' hr' =>
      obtain ⟨ids, inputs, outputs, -, rfl⟩ := exists_of_link hr'
      rw [ih, List.append_assoc, List.singleton_append, List.map_append, List.map_append,
        List.map_cons, List.map_cons, hp]
    · rfl

/-- **Positions are those of the operands**: what held of the linked records before holds of all
records after linking. -/
theorem settledAt_of_linkFrom (h : linkFrom names done rs = (out, none))
    (hdone : ∀ k (r : Record), done[k]? = some r → r.SettledAt names k) :
    ∀ k (r : Record), out[k]? = some r → r.SettledAt names k := by
  induction rs generalizing done with
  | nil =>
    obtain ⟨rfl, -⟩ := Prod.mk.inj h
    exact hdone
  | cons r rs ih =>
    rw [linkFrom] at h
    split at h
    · next r' hr' =>
      obtain ⟨ids, inputs, outputs, hids, rfl⟩ := exists_of_link hr'
      refine ih h fun k s hs => ?_
      rcases Nat.lt_or_ge k done.length with hk | hk
      · exact hdone k s (by rwa [List.getElem?_append_left hk] at hs)
      · -- the record just linked is at the end
        obtain ⟨hlt, -⟩ := List.getElem?_eq_some_iff.mp hs
        rw [List.length_append, List.length_singleton] at hlt
        obtain rfl : k = done.length := Nat.le_antisymm (Nat.le_of_lt_succ hlt) hk
        obtain rfl : _ = s := by simpa using hs
        exact hids
    · cases (Prod.mk.inj h).2

/-- The record before linking. -/
def unlinked (r : Record) : Record :=
  { r with inputIds := [], numInputs := 0, inputPlanes := 0, outputPlanes := none }

theorem map_linkAll {β : Type} {p : Record → β}
    (hp : ∀ (r : Record) ids k inputs outputs,
      p { r with inputIds := ids, numInputs := k, inputPlanes := inputs, outputPlanes := outputs } =
        p r)
    (rs : List Record) : (linkAll rs).1.map p = rs.map p :=
  map_linkFrom hp

theorem settledAt_of_linkAll (h : linkAll rs = (out, none)) (hr : out[k]? = some r) :
    r.SettledAt (out.map Record.name) k := by
  have hnames : out.map Record.name = rs.map Record.name := by
    rw [← map_linkAll (fun _ _ _ _ _ => rfl) rs, h]
  rw [hnames]
  exact settledAt_of_linkFrom h (fun _ _ h => nomatch h) k r hr

end Record

end LayerGraph
