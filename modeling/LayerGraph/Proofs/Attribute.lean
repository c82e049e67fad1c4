import LayerGraph.Layer.Spatial
import LayerGraph.Proofs.Entries

/-!
# Attributes give back what they were given

An attribute keeps a JSON value in the simplest form that holds it, and a layer that hands it on
makes JSON of it again. The form is chosen by looking at the value, and at the items of an array
one by one, but no deeper: what is inside of items is never taken apart, so it cannot change. Of
what is looked at only numbers can change. One that is no whole number within a word of 64 bits is
rounded to 32 bits, and an array of numbers with such a number in it is rounded as a whole
(`LayerGraph.Json.Rounded`). In every other case the form is one that the value can be read off
again (`LayerGraph.AttrValue.toJson_ofJson`).

The attributes of a node are collected from pairs. With the laws of such lists this says what a
layer hands on under a name: the value that the name was given last
(`LayerGraph.Attributes.collect_exact`).
-/

namespace LayerGraph

namespace Json

variable {j : Json} {n : Int} {s : String}

theorem eq_int_of_int64? (h : j.int64? = some n) : j = .int n := by
  cases j with
  | int m =>
    rw [int64?] at h
    split at h
    · exact congrArg Json.int (Option.some.inj h)
    · cases h
  | _ => cases h

theorem eq_str_of_str? (h : j.str? = some s) : j = .str s := by
  cases j with
  | str t => exact congrArg Json.str (Option.some.inj h)
  | _ => cases h

/-- A number that is no whole number within a signed word of 64 bits. -/
def Inexact (j : Json) : Prop := j.double?.isSome ∧ j.int64? = none

/-- **A value that is rounded**: such a number, or an array of nothing but numbers that has one. -/
inductive Rounded : Json → Prop
  | number {j : Json} (inexact : j.Inexact) : Rounded j
  | numbers {items : List Json} {i : Json} (numbers : ∀ j ∈ items, j.double?.isSome)
      (mem : i ∈ items) (inexact : i.Inexact) : Rounded (.arr items)

end Json

namespace AttrValue

/-- What is taken out of all elements of a list can be put back. -/
theorem map_filterMap_of_forall {α β : Type} {take : α → Option β} {put : β → α} {as : List α}
    (hput : ∀ a b, take a = some b → a = put b) (hall : ∀ a ∈ as, (take a).isSome) :
    (as.filterMap take).map put = as := by
  induction as with
  | nil => rfl
  | cons a as ih =>
    obtain ⟨ha, has⟩ := List.forall_mem_cons.mp hall
    obtain ⟨b, hb⟩ := Option.isSome_iff_exists.mp ha
    rw [List.filterMap_cons_some hb, List.map_cons, ih has, ← hput a b hb]

/-- **An array comes back** if it is not rounded. -/
theorem toJson_ofItems {items : List Json} (h : ¬ (Json.arr items).Rounded) :
    (ofItems items).toJson = .arr items := by
  rw [ofItems]
  split
  · rfl
  split
  · next hints =>
    exact congrArg Json.arr
      (map_filterMap_of_forall (fun _ _ => Json.eq_int_of_int64?) (List.all_eq_true.mp hints))
  split
  · next hints hnumbers =>
    -- nothing but numbers, and one of them does not fit
    refine absurd ?_ hints
    refine List.all_eq_true.mpr fun i hi => Option.isSome_iff_ne_none.mpr fun hnone => h ?_
    have hall := List.all_eq_true.mp hnumbers
    exact .numbers hall hi ⟨hall i hi, hnone⟩
  split
  · next hstrs =>
    exact congrArg Json.arr
      (map_filterMap_of_forall (fun _ _ => Json.eq_str_of_str?) (List.all_eq_true.mp hstrs))
  · rfl

/-- **A value comes back** if it is not rounded. -/
theorem toJson_ofJson {j : Json} (h : ¬ j.Rounded) : (ofJson j).toJson = j := by
  cases j with
  | null => rfl
  | bool b => rfl
  | int n =>
    rw [ofJson]
    split
    · next i hi => exact (Json.eq_int_of_int64? hi).symm
    · next hnone => exact absurd (.number ⟨rfl, hnone⟩) h
  | float x => exact absurd (.number ⟨rfl, rfl⟩) h
  | str s => rfl
  | arr items => exact toJson_ofItems h
  | obj members => rfl

/-- Beside a floating number a whole one becomes floating too. -/
example : (ofJson (.arr [.int 1, .float (.ofInt 2)])).toJson =
    .arr [.float (.ofInt 1), .float (.ofInt 2)] := rfl

end AttrValue

namespace Attributes

open Entries (lastValue?)

/-- **Attributes keep what they are given.** A JSON value that is not rounded comes back from its
form as it was. Attributes that are collected from pairs have every name once, in the order in which
the names first came up, with the value that the name was given last. So of JSON values that are
collected under names, a name hands on the last one. -/
theorem collect_exact :
    (∀ j : Json, ¬ j.Rounded → (AttrValue.ofJson j).toJson = j) ∧
    (∀ (pairs : List (String × AttrValue)) (attrs : Attributes), attrs = Entries.ofList pairs →
      attrs.map Prod.fst = (pairs.map Prod.fst).eraseDups ∧ (attrs.map Prod.fst).Nodup ∧
      (∀ e ∈ attrs, lastValue? pairs e.1 = some e.2) ∧
      ∀ key, Entries.value? attrs key = lastValue? pairs key) ∧
    ∀ (members : List (String × Json)) (key : String) (j : Json),
      lastValue? members key = some j → ¬ j.Rounded →
      (Entries.value? (Entries.ofList (members.map fun m => (m.1, AttrValue.ofJson m.2))) key).map
        AttrValue.toJson = some j := by
  refine ⟨fun j => AttrValue.toJson_ofJson, ?_, fun members key j hlast hj => ?_⟩
  · rintro pairs attrs rfl
    have hnodup := Entries.nodup_keys_ofList pairs
    refine ⟨Entries.keys_ofList pairs, hnodup, fun e he => ?_, Entries.value?_ofList pairs⟩
    rw [← Entries.value?_ofList, Entries.value?_of_mem hnodup he]
  · rw [Entries.value?_ofList, Entries.lastValue?_map, hlast, Option.map_some, Option.map_some,
      AttrValue.toJson_ofJson hj]

/-- The padding that counts is an array of an array and an object, both with a floating number. -/
def nestedPadding : Json :=
  .arr [.arr [.float (.ofInt 2), .int 1], .obj [("left", .float (.ofInt 2))]]

/-- A layer that is given a padding twice. -/
def twicePadded : Node where
  name := "pad"
  opType := "ZeroPadding2D"
  attrs := Entries.ofList ([("padding", Json.int 1), ("data_format", .null),
    ("padding", nestedPadding)].map fun m => (m.1, AttrValue.ofJson m.2))

/-- The second padding stands in the place of the first, and it is handed on as it was given. -/
theorem collect_twicePadded :
    ¬ nestedPadding.Rounded ∧ twicePadded.attrs.map Prod.fst = ["padding", "data_format"] ∧
      twicePadded.zeroPadding? = some nestedPadding := by
  have hkept : ¬ nestedPadding.Rounded := by
    intro h
    cases h with
    | number inexact => exact Bool.false_ne_true inexact.1
    | numbers numbers => exact Bool.false_ne_true (numbers _ List.mem_cons_self)
  obtain ⟨-, hattrs, hgiven⟩ := collect_exact
  exact ⟨hkept, (hattrs _ _ rfl).1, hgiven _ "padding" nestedPadding rfl hkept⟩

end Attributes

end LayerGraph
