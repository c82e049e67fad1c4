import LayerGraph.Entries
import Mathlib.Data.List.Induction
import Mathlib.Data.List.Nodup

/-!
# Looking up what was set

The laws of entry lists as maps: what a name has after one value was set, and how many names
there are. A list that is collected from pairs has each name where it came up first, with the value
that it was given last (`LayerGraph.Entries.keys_ofList`, `LayerGraph.Entries.value?_ofList`).
-/

namespace LayerGraph

namespace Entries

variable {α : Type} {es : Entries α} {key k : String} {v : α} {pairs : List (String × α)}
  {p : String → Bool}

/-- **Reading after writing.** -/
theorem value?_set (es : Entries α) (k : String) (v : α) (key : String) :
    (es.set k v).value? key = if k = key then some v else es.value? key := by
  induction es with
  | nil => rfl
  | cons e es ih =>
    obtain ⟨l, w⟩ := e
    by_cases hl : l = k
    · by_cases hk : k = key <;> simp [set, value?, hl, hk]
    · by_cases hk : k = key
      · subst hk
        simp [set, value?, hl, ih]
      · simp [set, value?, hl, ih, hk]

@[simp] theorem value?_set_self (es : Entries α) (k : String) (v : α) :
    (es.set k v).value? k = some v := by
  rw [value?_set, if_pos rfl]

theorem value?_set_of_ne (h : k ≠ key) : (es.set k v).value? key = es.value? key := by
  rw [value?_set, if_neg h]

/-- Names that are set to the values that a partial function has for them. -/
theorem value?_setAll_filterMap (es : Entries α) (f : String → Option α) (ks : List String)
    (key : String) : (es.setAll (ks.filterMap fun k => (f k).map (k, ·))).value? key =
      if key ∈ ks then (f key).or (es.value? key) else es.value? key := by
  induction ks generalizing es with
  | nil => rfl
  | cons k ks ih =>
    cases hf : f k with
    | none =>
      rw [List.filterMap_cons_none (by rw [hf, Option.map_none]), ih]
      by_cases hk : key = k
      · subst hk
        simp [hf]
      · simp [hk]
    | some v =>
      rw [List.filterMap_cons_some (by rw [hf, Option.map_some]), setAll, List.foldl_cons,
        ← setAll, ih, value?_set]
      by_cases hk : key = k
      · subst hk
        simp [hf]
      · simp [hk, Ne.symm hk]

/-- Names that are set to one and the same value. -/
theorem value?_setAll_map (es : Entries α) (ks : List String) (v : α) (key : String) :
    (es.setAll (ks.map fun k => (k, v))).value? key =
      if key ∈ ks then some v else es.value? key := by
  rw [← List.filterMap_eq_map]
  exact value?_setAll_filterMap es (fun _ => some v) ks key

/-- In two lists, one after the other, a name has its value in the first if it has one there. -/
theorem value?_append (es es' : Entries α) (key : String) :
    Entries.value? (es ++ es') key = (es.value? key).or (es'.value? key) := by
  induction es with
  | nil => rfl
  | cons e es ih =>
    obtain ⟨l, w⟩ := e
    rw [List.cons_append, value?, value?, ih]
    split <;> rfl

/-- In a list of what is found for the elements of another list, a name has the first value that is
found for it. -/
theorem value?_filterMap {β : Type} (f : β → Option (String × α)) (bs : List β) (key : String) :
    Entries.value? (bs.filterMap f) key =
      bs.findSome? fun b => (f b).bind fun e => if e.1 = key then some e.2 else none := by
  induction bs with
  | nil => rfl
  | cons b bs ih =>
    cases hf : f b with
    | none => rw [List.filterMap_cons_none hf, ih, List.findSome?_cons, hf, Option.bind_none]
    | some e =>
      rw [List.filterMap_cons_some hf, value?, ih, List.findSome?_cons, hf, Option.bind_some]
      by_cases hk : e.1 = key <;> simp [hk]

/-- Values that are all mapped under their names. -/
theorem value?_map {β : Type} (f : α → β) (es : Entries α) (key : String) :
    Entries.value? (es.map fun e => (e.1, f e.2)) key = (es.value? key).map f := by
  induction es with
  | nil => rfl
  | cons e es ih =>
    obtain ⟨l, w⟩ := e
    rw [List.map_cons, value?, value?, ih]
    split <;> rfl

theorem length_le_length_set (es : Entries α) (k : String) (v : α) :
    es.length ≤ (es.set k v).length := by
  induction es with
  | nil => exact Nat.zero_le _
  | cons e es ih =>
    obtain ⟨l, w⟩ := e
    by_cases hl : l = k
    · simp [set, hl]
    · simpa [set, hl] using ih

/-- What a name has stands in the list under that name. -/
theorem mem_of_value? (h : es.value? k = some v) : (k, v) ∈ es := by
  induction es with
  | nil => cases h
  | cons e es ih =>
    obtain ⟨l, w⟩ := e
    rw [value?] at h
    split at h
    · next hl =>
      obtain rfl := Option.some.inj h
      exact hl ▸ List.mem_cons_self
    · exact List.mem_cons_of_mem _ (ih h)

/-- A name has no value exactly if it does not stand in the list. -/
theorem value?_eq_none_iff : es.value? key = none ↔ key ∉ es.map Prod.fst := by
  induction es with
  | nil => simp [value?]
  | cons e es ih =>
    obtain ⟨l, w⟩ := e
    by_cases hl : l = key
    · simp [value?, hl]
    · simp [value?, hl, ih, Ne.symm hl]

/-- What is in a list after one value was set was there before or is this value. -/
theorem mem_of_mem_set {e : String × α} (h : e ∈ es.set k v) : e ∈ es ∨ e = (k, v) := by
  induction es with
  | nil => exact .inr (List.mem_singleton.mp h)
  | cons e' es ih =>
    obtain ⟨l, w⟩ := e'
    rw [set] at h
    split at h
    · next hl =>
      rcases List.mem_cons.mp h with rfl | h
      · exact .inr (by rw [hl])
      · exact .inl (List.mem_cons_of_mem _ h)
    · rcases List.mem_cons.mp h with rfl | h
      · exact .inl List.mem_cons_self
      · exact (ih h).imp_left (List.mem_cons_of_mem _)

theorem mem_of_mem_setAll {e : String × α} (h : e ∈ es.setAll pairs) :
    e ∈ es ∨ e ∈ pairs := by
  induction pairs generalizing es with
  | nil => exact .inl h
  | cons p pairs ih =>
    rcases ih h with h | h
    · exact (mem_of_mem_set h).imp_right fun he => List.mem_cons.mpr (.inl he)
    · exact .inr (List.mem_cons_of_mem _ h)

/-- A name that was not there is one more. -/
theorem length_set_of_value?_eq_none (h : es.value? k = none) :
    (es.set k v).length = es.length + 1 := by
  induction es with
  | nil => rfl
  | cons e es ih =>
    obtain ⟨l, w⟩ := e
    by_cases hl : l = k
    · simp [value?, hl] at h
    · rw [value?, if_neg hl] at h
      simpa [set, hl] using ih h

/-- Setting a value leaves what has other names as it was, and where it was. -/
theorem filter_set (hk : p k = false) (es : Entries α) (v : α) :
    (es.set k v).filter (fun e => p e.1) = es.filter fun e => p e.1 := by
  induction es with
  | nil => simp [set, hk]
  | cons e es ih =>
    obtain ⟨l, w⟩ := e
    by_cases hl : l = k
    · subst hl
      simp [set, hk]
    · rw [set, if_neg hl, List.filter_cons, List.filter_cons, ih]

theorem filter_setAll (h : ∀ e ∈ pairs, p e.1 = false) (es : Entries α) :
    (es.setAll pairs).filter (fun e => p e.1) = es.filter fun e => p e.1 := by
  induction pairs generalizing es with
  | nil => rfl
  | cons e pairs ih =>
    obtain ⟨he, hpairs⟩ := List.forall_mem_cons.mp h
    rw [setAll, List.foldl_cons, ← setAll, ih hpairs, filter_set he]

/-- An erased name has no value, and the others have theirs. -/
theorem value?_erase (es : Entries α) (k key : String) :
    (es.erase k).value? key = if k = key then none else es.value? key := by
  induction es with
  | nil => simp [erase, value?]
  | cons e es ih =>
    obtain ⟨l, w⟩ := e
    rw [erase] at ih ⊢
    by_cases hl : l = k
    · subst hl
      rw [List.filter_cons_of_neg (by simp), ih, value?]
      split <;> rfl
    · rw [List.filter_cons_of_pos (by simpa using hl), value?, value?, ih]
      by_cases hk : k = key
      · subst hk
        simp [hl]
      · simp [hk]

/-! ### Names that stand once -/

theorem keys_set_of_mem (h : k ∈ es.map Prod.fst) (v : α) :
    (es.set k v).map Prod.fst = es.map Prod.fst := by
  induction es with
  | nil => cases h
  | cons e es ih =>
    obtain ⟨l, w⟩ := e
    by_cases hl : l = k
    · rw [set, if_pos hl]
      rfl
    · have hes : k ∈ es.map Prod.fst := (List.mem_cons.mp h).resolve_left (Ne.symm hl)
      rw [set, if_neg hl, List.map_cons, ih hes]
      rfl

/-- A new name comes last. -/
theorem set_of_not_mem (h : k ∉ es.map Prod.fst) (v : α) : es.set k v = es ++ [(k, v)] := by
  induction es with
  | nil => rfl
  | cons e es ih =>
    obtain ⟨l, w⟩ := e
    rw [List.map_cons, List.mem_cons, not_or] at h
    rw [set, if_neg (Ne.symm h.1), ih h.2]
    rfl

/-- **Setting values keeps every name in one place.** -/
theorem nodup_keys_set (h : (es.map Prod.fst).Nodup) (k : String) (v : α) :
    ((es.set k v).map Prod.fst).Nodup := by
  by_cases hk : k ∈ es.map Prod.fst
  · rwa [keys_set_of_mem hk]
  · rw [set_of_not_mem hk, List.map_append]
    refine List.nodup_append.mpr ⟨h, by simp, fun a ha b hb => ?_⟩
    obtain rfl := List.mem_singleton.mp hb
    exact fun hab => hk (hab ▸ ha)

theorem nodup_keys_setAll (h : (es.map Prod.fst).Nodup) (pairs : List (String × α)) :
    ((es.setAll pairs).map Prod.fst).Nodup := by
  induction pairs generalizing es with
  | nil => exact h
  | cons p pairs ih => exact ih (nodup_keys_set h p.1 p.2)

/-- Pairs of different names are set one behind the other. -/
theorem setAll_of_nodup (h : ((es ++ pairs).map Prod.fst).Nodup) : es.setAll pairs = es ++ pairs := by
  induction pairs generalizing es with
  | nil => exact (List.append_nil es).symm
  | cons p pairs ih =>
    obtain ⟨k, v⟩ := p
    have hk : k ∉ es.map Prod.fst := by
      rw [List.map_append, List.map_cons] at h
      exact fun hmem => (List.nodup_append.mp h).2.2 k hmem k List.mem_cons_self rfl
    rw [List.append_cons] at h
    rw [setAll, List.foldl_cons, ← setAll, set_of_not_mem hk, ih h, List.append_assoc]
    rfl

theorem ofList_of_nodup (h : (pairs.map Prod.fst).Nodup) : ofList pairs = pairs :=
  setAll_of_nodup h

/-- A name that stands once has the value that stands beside it. -/
theorem value?_of_mem (h : (es.map Prod.fst).Nodup) (hmem : (k, v) ∈ es) : es.value? k = some v := by
  cases hv : es.value? k with
  | none => exact absurd (List.mem_map_of_mem hmem) (value?_eq_none_iff.mp hv)
  | some w =>
    have hpair : (k, w) = (k, v) := List.inj_on_of_nodup_map h (mem_of_value? hv) hmem rfl
    exact congrArg (some ·.2) hpair

/-! ### Collecting pairs -/

/-- The value that a name is given last. -/
def lastValue? (pairs : List (String × α)) (key : String) : Option α :=
  ((pairs.filter fun p => p.1 = key).getLast?).map Prod.snd

theorem lastValue?_concat (pairs : List (String × α)) (p : String × α) (key : String) :
    lastValue? (pairs ++ [p]) key = if p.1 = key then some p.2 else lastValue? pairs key := by
  rw [lastValue?, List.filter_append]
  split
  · next h =>
    rw [List.filter_cons_of_pos (by simpa using h), List.filter_nil, List.getLast?_concat,
      Option.map_some]
  · next h =>
    rw [List.filter_cons_of_neg (by simpa using h), List.filter_nil, List.append_nil, lastValue?]

/-- Mapping the values maps the last one of each name. -/
theorem lastValue?_map {β : Type} (f : α → β) (pairs : List (String × α)) (key : String) :
    lastValue? (pairs.map fun p => (p.1, f p.2)) key = (lastValue? pairs key).map f := by
  rw [lastValue?, lastValue?, List.filter_map, List.getLast?_map, Option.map_map, Option.map_map]
  rfl

theorem setAll_concat (es : Entries α) (pairs : List (String × α)) (p : String × α) :
    es.setAll (pairs ++ [p]) = (es.setAll pairs).set p.1 p.2 := by
  rw [setAll, List.foldl_append]
  rfl

/-- **The last value of a name counts**, and the one that it had before if it is given none. -/
theorem value?_setAll_eq (es : Entries α) (pairs : List (String × α)) (key : String) :
    (es.setAll pairs).value? key = (lastValue? pairs key).or (es.value? key) := by
  induction pairs using List.reverseRecOn with
  | nil => rfl
  | append_singleton pairs p ih =>
    rw [setAll_concat, value?_set, ih, lastValue?_concat]
    split <;> rfl

theorem value?_ofList (pairs : List (String × α)) (key : String) :
    (ofList pairs).value? key = lastValue? pairs key :=
  (value?_setAll_eq [] pairs key).trans Option.or_none

/-- Setting values that have different names gives the names these values. -/
theorem value?_setAll (h : (pairs.map Prod.fst).Nodup) (es : Entries α) (key : String) :
    (es.setAll pairs).value? key = (Entries.value? pairs key).or (es.value? key) := by
  rw [value?_setAll_eq, ← value?_ofList, ofList_of_nodup h]

theorem nodup_keys_ofList (pairs : List (String × α)) : ((ofList pairs).map Prod.fst).Nodup := by
  have hnil : (([] : Entries α).map Prod.fst).Nodup := List.nodup_nil
  exact nodup_keys_setAll hnil pairs

theorem ofList_concat (pairs : List (String × α)) (p : String × α) :
    ofList (pairs ++ [p]) = (ofList pairs).set p.1 p.2 :=
  setAll_concat [] pairs p

/-- **The first place of a name counts.** -/
theorem keys_ofList (pairs : List (String × α)) :
    (ofList pairs).map Prod.fst = (pairs.map Prod.fst).eraseDups := by
  induction pairs using List.reverseRecOn with
  | nil => rfl
  | append_singleton pairs p ih =>
    rw [ofList_concat, List.map_append, List.map_singleton, List.eraseDups_append]
    by_cases hp : p.1 ∈ pairs.map Prod.fst
    · -- the name is there, and it stays in its place
      have hmem : p.1 ∈ (ofList pairs).map Prod.fst := ih ▸ List.mem_eraseDups.mpr hp
      have hnone : [p.1].removeAll (pairs.map Prod.fst) = [] := by simp [List.removeAll, hp]
      rw [keys_set_of_mem hmem, ih, hnone, List.eraseDups_nil, List.append_nil]
    · have hmem : p.1 ∉ (ofList pairs).map Prod.fst := fun h => hp (List.mem_eraseDups.mp (ih ▸ h))
      have hone : [p.1].removeAll (pairs.map Prod.fst) = [p.1] := by simp [List.removeAll, hp]
      rw [set_of_not_mem hmem, List.map_append, ih, hone]
      rfl

end Entries

end LayerGraph
