import LayerGraph.Proofs.Linking
import Mathlib.Algebra.Ring.Nat

/-!
# Linking as a system of equations

The wiring of a linked record is given by equations (`LayerGraph.Record.WiredAs`): its positions
are those of its operands, in their slots, and its plane counts follow from the planes that go out
of the records at these positions. An operand is before the record that lists it, so the equations
of a record only speak of records before it, and a list of records has one solution at most
(`LayerGraph.Record.Wired.unique`). Linking computes it, and a second linking has the same
equations to solve.

Where linking fails, it has solved the equations of a first part of the list and left the rest
alone (`LayerGraph.Record.exists_wired_of_linkFrom`). The first record of the rest lists the operand
that the fault names, and the operands before it are located
(`LayerGraph.Record.exists_first_of_operandIds`).

Plane counts are whole numbers here, which is what the engine counts as long as no sum leaves its
word.
-/

namespace LayerGraph

namespace Record

variable {names : List String} {i j : Nat} {x : String} {r s s' : Record}
  {rs done out out' front back rest : List Record} {ids : List Nat}

/-! ### The equations -/

/-- The planes that go out of the record at a position. -/
def outgoing (out : List Record) (j : Nat) : Nat := ((out[j]?).bind Record.outputPlanes).getD 0

/-- **The planes that come in** from some positions: those of the first one, or their sum, in which
a position counts as often as it is listed. Nothing comes in from no position. -/
def inflow (out : List Record) : PlaneRule → List Nat → Nat
  | .first, ids => (ids.head?.map (outgoing out)).getD 0
  | .sum, ids => (ids.map (outgoing out)).sum

/-- **The equations of a record** at position `i`: what it is among the linked records `out`. -/
structure WiredAs (names : List String) (out : List Record) (i : Nat) (r s : Record) : Prop where
  inputIds : List.Forall₂ (Locates names i) r.inbounds s.inputIds
  numInputs : s.numInputs = r.inbounds.length
  inputPlanes : s.inputPlanes = inflow out r.planeRule s.inputIds
  outputPlanes : s.outputPlanes = some (r.outputPlanes.getD s.inputPlanes)
  rest : s = { r with
    inputIds := s.inputIds
    numInputs := s.numInputs
    inputPlanes := s.inputPlanes
    outputPlanes := s.outputPlanes }

/-- **The equations of a list of records**, solved by another one. -/
structure Wired (names : List String) (rs out : List Record) : Prop where
  length : out.length = rs.length
  wiredAs : ∀ i r s, rs[i]? = some r → out[i]? = some s → WiredAs names out i r s

theorem Locates.unique {j' : Nat} (h : Locates names i x j) (h' : Locates names i x j') : j = j' :=
  Option.some.inj (h.1.symm.trans h'.1)

/-- Positions that operands are located at are before the record. -/
theorem lt_of_mem_ids {xs : List String} (h : List.Forall₂ (Locates names i) xs ids) :
    ∀ j ∈ ids, j < i := by
  induction h with
  | nil => exact nofun
  | cons hx _ ih => exact List.forall_mem_cons.mpr ⟨hx.2, ih⟩

theorem inflow_congr {rule : PlaneRule} (h : ∀ j ∈ ids, out[j]? = out'[j]?) :
    inflow out rule ids = inflow out' rule ids := by
  have hj : ∀ j ∈ ids, outgoing out j = outgoing out' j := fun j hj => by
    rw [outgoing, outgoing, h j hj]
  cases rule with
  | sum => rw [inflow, inflow, List.map_congr_left hj]
  | first =>
    cases ids with
    | nil => rfl
    | cons j ids => exact hj j List.mem_cons_self

/-- The equations of a record depend on the records before it only. -/
theorem WiredAs.congr (h : WiredAs names out i r s) (hout : ∀ j < i, out[j]? = out'[j]?) :
    WiredAs names out' i r s where
  inputIds := h.inputIds
  numInputs := h.numInputs
  inputPlanes := h.inputPlanes.trans
    (inflow_congr fun j hj => hout j (lt_of_mem_ids h.inputIds j hj))
  outputPlanes := h.outputPlanes
  rest := h.rest

theorem WiredAs.unique (h : WiredAs names out i r s) (h' : WiredAs names out i r s') : s = s' := by
  have hloc : Relator.RightUnique (Locates names i) := fun _ _ _ h h' => h.unique h'
  have hids : s.inputIds = s'.inputIds := hloc.forall₂ h.inputIds h'.inputIds
  have hin : s.inputPlanes = s'.inputPlanes := by rw [h.inputPlanes, h'.inputPlanes, hids]
  rw [h.rest, h'.rest, hids, h.numInputs, h'.numInputs, h.outputPlanes, h'.outputPlanes, hin]

/-- **The equations have one solution at most**, since those of a record speak of records before
it. -/
theorem Wired.unique (h : Wired names rs out) (h' : Wired names rs out') : out = out' := by
  refine List.ext_getElem? fun i => ?_
  induction i using Nat.strongRecOn with
  | _ i ih =>
    rcases Nat.lt_or_ge i rs.length with hi | hi
    · have hs := List.getElem?_eq_getElem (h.length.symm ▸ hi)
      have hs' := List.getElem?_eq_getElem (h'.length.symm ▸ hi)
      have hr := List.getElem?_eq_getElem hi
      have hw := (h.wiredAs i _ _ hr hs).congr ih
      rw [hs, hs', hw.unique (h'.wiredAs i _ _ hr hs')]
    · rw [List.getElem?_eq_none (h.length.symm ▸ hi), List.getElem?_eq_none (h'.length.symm ▸ hi)]

/-- A solution solves its own equations. -/
theorem WiredAs.self (h : WiredAs names out i r s) : WiredAs names out i s s where
  inputIds := by
    have hin : s.inbounds = r.inbounds := (congrArg Record.inbounds h.rest :)
    exact hin ▸ h.inputIds
  numInputs := by
    have hin : s.inbounds = r.inbounds := (congrArg Record.inbounds h.rest :)
    exact hin ▸ h.numInputs
  inputPlanes := by
    have hrule : s.planeRule = r.planeRule := (congrArg Record.planeRule h.rest :)
    exact hrule ▸ h.inputPlanes
  outputPlanes := by
    rw [h.outputPlanes]
    rfl
  rest := rfl

theorem Wired.self (h : Wired names rs out) : Wired names out out where
  length := rfl
  wiredAs := by
    intro i s s' hs hs'
    obtain rfl := Option.some.inj (hs.symm.trans hs')
    have hi : i < rs.length := h.length ▸ (List.getElem?_eq_some_iff.mp hs).1
    exact (h.wiredAs i _ s (List.getElem?_eq_getElem hi) hs).self

/-- What is not wiring is the same in a solution. -/
theorem Wired.map_eq {β : Type} {p : Record → β}
    (hp : ∀ (r : Record) ids k inputs outputs,
      p { r with inputIds := ids, numInputs := k, inputPlanes := inputs, outputPlanes := outputs } =
        p r)
    (h : Wired names rs out) : out.map p = rs.map p := by
  refine List.ext_getElem (by simp [h.length]) fun i hi hi' => ?_
  rw [List.length_map] at hi hi'
  rw [List.getElem_map, List.getElem_map]
  have hw := h.wiredAs i _ _ (List.getElem?_eq_getElem hi') (List.getElem?_eq_getElem hi)
  rw [hw.rest, hp]

/-! ### Linking solves them -/

/-- What linking takes to come in is what the equations say. -/
theorem incoming_eq_inflow (hdone : ∀ s ∈ done, s.outputPlanes.isSome) (rule : PlaneRule)
    (ids : List Nat) : incoming done rule ids = inflow done rule ids := by
  have hout : ∀ j, (done[j]?.map planes).getD 0 = outgoing done j := by
    intro j
    rw [outgoing]
    cases hj : done[j]? with
    | none => rfl
    | some s =>
      obtain ⟨k, hk⟩ := Option.isSome_iff_exists.mp (hdone s (List.mem_of_getElem? hj))
      simp [planes, hk]
  cases ids with
  | nil => cases rule <;> rfl
  | cons i ids =>
    cases rule with
    | first => exact hout i
    | sum =>
      simp only [incoming, hout]
      rw [inflow, List.sum_eq_foldr, List.foldr_map]

/-- **A linked record solves its equations.** -/
theorem WiredAs.of_link (h : r.link names done = .ok s)
    (hdone : ∀ s ∈ done, s.outputPlanes.isSome) : WiredAs names done done.length r s := by
  rw [link] at h
  split at h
  · cases h
  · next ids hids =>
    cases h
    have hloc := operandIds_eq_ok_iff.mp hids
    exact {
      inputIds := hloc
      numInputs := hloc.length_eq.symm
      inputPlanes := incoming_eq_inflow hdone r.planeRule ids
      outputPlanes := rfl
      rest := rfl }

theorem Wired.nil (names : List String) : Wired names [] [] where
  length := rfl
  wiredAs := by
    intro i r s hr
    rw [List.getElem?_nil] at hr
    cases hr

theorem Wired.isSome (h : Wired names rs out) : ∀ s ∈ out, s.outputPlanes.isSome := by
  intro s hs
  obtain ⟨i, hi⟩ := List.mem_iff_getElem?.mp hs
  have hlt : i < rs.length := h.length ▸ (List.getElem?_eq_some_iff.mp hi).1
  rw [(h.wiredAs i _ s (List.getElem?_eq_getElem hlt) hi).outputPlanes]
  rfl

/-- One more record does not touch the equations of those before. -/
theorem Wired.concat (h : Wired names rs out) (hs : WiredAs names out out.length r s) :
    Wired names (rs ++ [r]) (out ++ [s]) where
  length := by simp [h.length]
  wiredAs := by
    have hbefore : ∀ i ≤ out.length, ∀ j < i, out[j]? = (out ++ [s])[j]? := fun i hi j hj =>
      (List.getElem?_append_left (Nat.lt_of_lt_of_le hj hi)).symm
    intro i r' s' hr' hs'
    rcases Nat.lt_trichotomy i out.length with hi | rfl | hi
    · rw [List.getElem?_append_left hi] at hs'
      rw [List.getElem?_append_left (h.length ▸ hi)] at hr'
      exact (h.wiredAs i r' s' hr' hs').congr (hbefore i (Nat.le_of_lt hi))
    · rw [List.getElem?_concat_length] at hs'
      rw [h.length, List.getElem?_concat_length] at hr'
      cases hs'
      cases hr'
      exact hs.congr (hbefore _ (Nat.le_refl _))
    · have hlen := (List.getElem?_eq_some_iff.mp hs').1
      rw [List.length_append, List.length_singleton] at hlen
      omega

/-- **How far linking comes**: it solves the equations of a first part of the records and leaves
the rest as it was. If there is a rest, its first record cannot be linked. -/
theorem exists_wired_of_linkFrom {fault? : Option GraphFault}
    (h : linkFrom names done rest = (out, fault?)) (hdone : Wired names front done) :
    ∃ more back linked, rest = more ++ back ∧ out = linked ++ back ∧
      Wired names (front ++ more) linked ∧
      (fault? = none ∧ back = [] ∨ ∃ r tail fault, fault? = some fault ∧ back = r :: tail ∧
        r.link names linked = .error fault) := by
  induction rest generalizing done front with
  | nil =>
    obtain ⟨rfl, rfl⟩ := Prod.mk.inj h
    exact ⟨[], [], done, rfl, (List.append_nil _).symm, by rwa [List.append_nil], Or.inl ⟨rfl, rfl⟩⟩
  | cons r rest ih =>
    rw [linkFrom] at h
    split at h
    · next s hs =>
      obtain ⟨more, back, linked, rfl, hout, hw, hend⟩ :=
        ih h (hdone.concat (WiredAs.of_link hs hdone.isSome))
      refine ⟨r :: more, back, linked, rfl, hout, ?_, hend⟩
      rwa [List.append_assoc, List.singleton_append] at hw
    · next fault hlink =>
      obtain ⟨rfl, rfl⟩ := Prod.mk.inj h
      exact ⟨[], r :: rest, done, rfl, rfl, by rwa [List.append_nil],
        Or.inr ⟨r, rest, fault, rfl, rfl, hlink⟩⟩

/-! ### The first operand that cannot be located -/

/-- **The operand that a failure is about** is the first one that cannot be located. -/
theorem exists_first_of_operandIds {record : String} {xs : List String} {fault : GraphFault}
    (h : operandIds names i record xs = .error fault) :
    ∃ before x after, xs = before ++ x :: after ∧ (∀ y ∈ before, ∃ j, Locates names i y j) ∧
      operandId names i record x = .error fault := by
  induction xs with
  | nil => cases h
  | cons x xs ih =>
    rw [operandIds] at h
    cases hx : operandId names i record x with
    | error e =>
      rw [hx] at h
      obtain rfl := Except.error.inj h
      exact ⟨[], x, xs, rfl, fun _ hy => absurd hy List.not_mem_nil, hx⟩
    | ok j =>
      cases hxs : operandIds names i record xs with
      | error e =>
        rw [hx, hxs] at h
        obtain rfl := Except.error.inj h
        obtain ⟨before, y, after, rfl, hbefore, hfail⟩ := ih hxs
        exact ⟨x :: before, y, after, rfl,
          List.forall_mem_cons.mpr ⟨⟨j, operandId_eq_ok_iff.mp hx⟩, hbefore⟩, hfail⟩
      | ok js =>
        rw [hx, hxs] at h
        cases h

/-- **What is wrong with an operand** that cannot be located: no record bears its name, or the last
one that does is not before the record at position `i`. -/
def Misses (names : List String) (i : Nat) (record x : String) (fault : GraphFault) : Prop :=
  lastPosition? x names = none ∧ fault = .unknownReference record x ∧
      fault.message = "'" ++ record ++ "' references unknown layer '" ++ x ++ "'" ∨
    ∃ j, lastPosition? x names = some j ∧ i ≤ j ∧ fault = .laterReference record i x j ∧
      fault.message = "'" ++ record ++ "' (layer " ++ toString i ++ ") references '" ++ x ++
        "' (layer " ++ toString j ++ "), which comes later"

theorem misses_of_operandId {record : String} {fault : GraphFault}
    (h : operandId names i record x = .error fault) : Misses names i record x fault := by
  rw [operandId] at h
  split at h
  · next hnone =>
    obtain rfl := Except.error.inj h
    exact Or.inl ⟨hnone, rfl, rfl⟩
  · next j hj =>
    split at h
    · cases h
    · next hlt =>
      obtain rfl := Except.error.inj h
      exact Or.inr ⟨j, hj, Nat.le_of_not_lt hlt, rfl, rfl⟩

/-! ### Linking -/

/-- The record at a position before `i` bears the name. -/
def Bears (out : List Record) (i : Nat) (x : String) (j : Nat) : Prop :=
  j < i ∧ ∃ s, out[j]? = some s ∧ s.name = x

/-- The record at the position of an operand bears its name. -/
theorem WiredAs.forall₂_bears (h : WiredAs (out.map Record.name) out i r s) :
    List.Forall₂ (Bears out i) r.inbounds s.inputIds := by
  refine h.inputIds.imp fun x j hx => ⟨hx.2, ?_⟩
  have hj := getElem?_of_lastPosition? hx.1
  rw [List.getElem?_map] at hj
  exact Option.map_eq_some_iff.mp hj

theorem linkAll_eq_none_iff : (linkAll rs).2 = none ↔
    ∀ i r, rs[i]? = some r → ∀ x ∈ r.inbounds, ∃ j, Locates (rs.map Record.name) i x j := by
  rw [linkAll, linkFrom_eq_none_iff]
  simp only [List.length_nil, Nat.zero_add]

/-- A list that can be linked becomes a solution of its equations. -/
theorem wired_of_linkAll (h : linkAll rs = (out, none)) : Wired (rs.map Record.name) rs out := by
  obtain ⟨more, back, linked, rfl, rfl, hw, hend⟩ := exists_wired_of_linkFrom h (.nil _)
  rcases hend with ⟨-, rfl⟩ | ⟨_, _, _, hsome, -⟩
  · simpa only [List.append_nil, List.nil_append] using hw
  · cases hsome

/-- **Linking a solution changes nothing**: it solves its own equations. -/
theorem Wired.linkAll_eq (h : Wired (rs.map Record.name) rs out) : linkAll out = (out, none) := by
  have hnames : out.map Record.name = rs.map Record.name := h.map_eq fun _ _ _ _ _ => rfl
  have hself : Wired (out.map Record.name) out out := hnames ▸ h.self
  have hnone : (linkAll out).2 = none := by
    refine linkAll_eq_none_iff.mpr fun i r hr => ?_
    exact exists_forall₂_iff.mp ⟨_, (hself.wiredAs i r r hr hr).inputIds⟩
  have heq : linkAll out = ((linkAll out).1, none) := Prod.ext rfl hnone
  rw [heq, (wired_of_linkAll heq).unique hself]

/-- **Linking solves the equations of the wiring, or names the first operand for which they have no
solution.** It succeeds exactly if of the records of an operand's name the last one is before the
record that lists the operand. Then the result is the one solution of the equations, every position
is that of a record of the operand's name, and linking it again changes nothing. Otherwise there is
a first record with an operand that cannot be located: the fault says what is wrong with the first
such operand, the records before are linked, and this one and all after it are as they were. -/
theorem linkAll_solves (rs : List Record) :
    ((linkAll rs).2 = none ↔ ∀ i r, rs[i]? = some r → ∀ x ∈ r.inbounds,
      ∃ j, lastPosition? x (rs.map Record.name) = some j ∧ j < i) ∧
    (∀ out, linkAll rs = (out, none) → Wired (rs.map Record.name) rs out ∧
      (∀ i r s, rs[i]? = some r → out[i]? = some s →
        List.Forall₂ (Bears out i) r.inbounds s.inputIds) ∧
      (∀ out', Wired (rs.map Record.name) rs out' → out' = out) ∧ linkAll out = (out, none)) ∧
    ∀ out fault, linkAll rs = (out, some fault) → ∃ front r back linked before x after,
      rs = front ++ r :: back ∧ out = linked ++ r :: back ∧
      Wired (rs.map Record.name) front linked ∧ r.inbounds = before ++ x :: after ∧
      (∀ y ∈ before, ∃ j, Locates (rs.map Record.name) front.length y j) ∧
      Misses (rs.map Record.name) front.length r.name x fault := by
  refine ⟨linkAll_eq_none_iff, fun out h => ?_, fun out fault h => ?_⟩
  · have hw := wired_of_linkAll h
    have hnames : out.map Record.name = rs.map Record.name := hw.map_eq fun _ _ _ _ _ => rfl
    refine ⟨hw, fun i r s hr hs => ?_, fun out' hw' => hw'.unique hw, hw.linkAll_eq⟩
    have hs' := hw.wiredAs i r s hr hs
    rw [← hnames] at hs'
    exact hs'.forall₂_bears
  · obtain ⟨front, back, linked, hsplit, rfl, hw, hend⟩ := exists_wired_of_linkFrom h (.nil _)
    rw [List.nil_append] at hw
    rcases hend with ⟨hnone, -⟩ | ⟨r, tail, fault', hsome, rfl, hlink⟩
    · cases hnone
    · obtain rfl := Option.some.inj hsome
      rw [link] at hlink
      split at hlink
      · next hids =>
        obtain rfl := Except.error.inj hlink
        obtain ⟨before, x, after, hin, hbefore, hfail⟩ := exists_first_of_operandIds hids
        rw [hw.length] at hbefore hfail
        exact ⟨front, r, tail, linked, before, x, after, hsplit, rfl, hw, hin, hbefore,
          misses_of_operandId hfail⟩
      · cases hlink

/-- Records of which two have one name. -/
def shadowedNames : List Record := [
  { name := "in", type := "InputLayer", outputPlanes := some 3 },
  { name := "in", type := "InputLayer", outputPlanes := some 5 },
  { name := "sum", type := "Add", inbounds := ["in", "in"], planeRule := .first },
  { name := "cat", type := "Concatenate", inbounds := ["sum", "in", "in"] }]

/-- The same records with a third one of that name. -/
def overshadowedNames : List Record :=
  shadowedNames ++ [{ name := "in", type := "Flatten", inbounds := ["in"] }]

/-- The operands belong to the second of the two records, once for each slot. With the third one
they would belong to that, which is not before them. -/
theorem linkAll_shadowedNames :
    ((linkAll shadowedNames).2 = none ∧
      (linkAll shadowedNames).1.map (fun r => (r.inputIds, r.inputPlanes, r.outputPlanes)) =
        [([], 0, some 3), ([], 0, some 5), ([1, 1], 5, some 5), ([2, 1, 1], 15, some 15)] ∧
      Wired (shadowedNames.map Record.name) shadowedNames (linkAll shadowedNames).1 ∧
      linkAll (linkAll shadowedNames).1 = ((linkAll shadowedNames).1, none)) ∧
    ((linkAll overshadowedNames).2 = some (.laterReference "sum" 2 "in" 4) ∧
      ∃ front r back before x after, overshadowedNames = front ++ r :: back ∧
        r.inbounds = before ++ x :: after ∧
        Misses (overshadowedNames.map Record.name) front.length r.name x
          (.laterReference "sum" 2 "in" 4)) := by
  have hok : (linkAll shadowedNames).2 = none := by decide
  have hfail : (linkAll overshadowedNames).2 = some (.laterReference "sum" 2 "in" 4) := by decide
  obtain ⟨hw, -, -, hagain⟩ := (linkAll_solves shadowedNames).2.1 _ (Prod.ext rfl hok)
  obtain ⟨front, r, back, -, before, x, after, hsplit, -, -, hin, -, hmiss⟩ :=
    (linkAll_solves _).2.2 _ _ (Prod.ext rfl hfail)
  exact ⟨⟨hok, by decide, hw, hagain⟩, hfail, front, r, back, before, x, after, hsplit, hin, hmiss⟩

end Record

end LayerGraph
