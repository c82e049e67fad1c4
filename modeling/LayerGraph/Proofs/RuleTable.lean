import LayerGraph.Proofs.Entries
import LayerGraph.Proofs.NameList
import Mathlib.Data.List.Forall2

/-!
# Adding a table of rules

A table is added in two steps: it is read as a whole, and then its rules are put in force one after
the other. So a table that cannot be read changes nothing, of two rules for the same operator the
later one stays, and the rules of other formats are left alone
(`LayerGraph.FusionPolicy.addTable_exact`).

The operators of a rule come as a list, or as names in one string. The two are read by different
readers, and an entry is a rule with the same operators whichever of the two it has
(`LayerGraph.FusionRule.OpenEntry.read_eq`). It does not matter what else the entry has, and in
which order: whatever makes it no rule does so in either case.
-/

namespace LayerGraph

/-- A computation succeeds if its first step does, and the rest on its result. -/
theorem bind_eq_ok_iff {ε α β : Type} {x : Except ε α} {f : α → Except ε β} {b : β} :
    x >>= f = .ok b ↔ ∃ a, x = .ok a ∧ f a = .ok b := by
  cases x with
  | error e => exact ⟨nofun, fun ⟨_, h, _⟩ => nomatch h⟩
  | ok a => exact ⟨fun h => ⟨a, rfl, h⟩, fun ⟨_, h, hf⟩ => Except.ok.inj h ▸ hf⟩

namespace Piece

/-- A string that is spelled without escapes. -/
def plain (s : String) : List Piece := s.toList.map .char

theorem chars?_map_char (cs : List Char) : chars? (cs.map .char) = some cs := by
  induction cs with
  | nil => rfl
  | cons c cs ih => rw [List.map_cons, chars?, ih, Option.map_some]

@[simp] theorem string?_plain (s : String) : string? (plain s) = some s := by
  rw [string?, plain, chars?_map_char, Option.map_some, String.ofList_toList]

end Piece

/-! ### Reading an entry -/

namespace FusionRule

variable {o o' : Outline} {names : List String} {d d' : Draft}
  {key ps : List Piece} {os items items' : List Outline} {rs : List FusionRule} {text : String}

/-- **Names joined in one string**, however its characters are spelled. -/
structure Joined (names : List String) (ps : List Piece) : Prop where
  listable : ∀ x ∈ names, ListableName x
  string : ∃ parts, Padded names parts ∧
    Piece.string? ps = some (String.ofList ([';'].intercalate parts))

/-- **Names listed** one by one. -/
def Listed (names : List String) (os : List Outline) : Prop :=
  List.Forall₂ (fun x o => ∃ ps, o = .text ps ∧ Piece.string? ps = some x) names os

/-- **An entry that lacks its operators**: an object with a place for them, or an array. -/
inductive OpenEntry where
  | obj (before : List (List Piece × Outline)) (key : List Piece)
    (named : Piece.string? key = some "fusibleWith") (after : List (List Piece × Outline))
    (closed : Bool)
  | arr (layerType isFusible : Outline) (after : List Outline) (closed : Bool)

/-- The entry with operators in their place. -/
def OpenEntry.fill : OpenEntry → Outline → Outline
  | .obj before key _ after closed, o => .obj (before ++ (key, o) :: after) closed
  | .arr a b after closed, o => .arr (a :: b :: o :: after) closed

/-- **One entry in two spellings**: with its operators in one string, and as a list. -/
inductive TwoSpellings : Outline → Outline → Prop
  | same (o : Outline) : TwoSpellings o o
  | respelled {names : List String} {ps : List Piece} {os : List Outline} (e : OpenEntry)
      (joined : Joined names ps) (listed : Listed names os) :
      TwoSpellings (e.fill (.text ps)) (e.fill (.arr os true))

theorem readTargets_joined (h : Joined names ps) : readTargets (.text ps) = .ok names := by
  obtain ⟨parts, hparts, hstring⟩ := h.string
  simp only [readTargets, hstring, namesOfText_intercalate hparts h.listable]

theorem readStrings_listed (h : Listed names os) : Outline.readStrings os = .ok names := by
  induction h with
  | nil => rfl
  | cons hx _ ih =>
    obtain ⟨ps, rfl, hps⟩ := hx
    simp only [Outline.readStrings, Outline.readString, hps, ih]
    rfl

theorem readTargets_listed (h : Listed names os) : readTargets (.arr os true) = .ok names := by
  rw [readTargets, Outline.readStringList, readStrings_listed h]
  · rfl
  · nofun
  · nofun

/-! ### The steps around the operators -/

/-- The draft with other operators. -/
def Draft.withTargets (names : List String) (d : Draft) : Draft :=
  { d with fusibleWith := some names }

/-- The rule with other operators. -/
def withTargets (names : List String) (r : FusionRule) : FusionRule :=
  { r with fusibleWith := names }

theorem readWith_eq (ho : readTargets o = .ok names) : d.readWith o =
    if d.fusibleWith.isSome then .error .malformed else .ok (d.withTargets names) := by
  simp only [Draft.readWith, ho]
  split <;> rfl

/-- **A member does not depend on the operators** of a draft that has some, and lets them stay. -/
theorem readMember_withTargets (hd : d.fusibleWith.isSome) (names : List String) :
    (d.withTargets names).readMember key o =
      (d.readMember key o).map (Draft.withTargets names) := by
  obtain ⟨layerType, isFusible, fusibleWith⟩ := d
  rw [Draft.readMember, Draft.readMember]
  split
  · simp only [Draft.readType, Draft.withTargets]
    cases layerType with
    | some s => rfl
    | none => cases o.readString <;> rfl
  · simp only [Draft.readFusible, Draft.withTargets]
    cases isFusible with
    | some b => rfl
    | none => cases readFlag o <;> rfl
  · -- there is no second place for operators
    cases fusibleWith with
    | some names => rfl
    | none => cases hd
  · split <;> rfl
  · rfl

theorem isSome_of_readMember (hd : d.fusibleWith.isSome) (h : d.readMember key o = .ok d') :
    d'.fusibleWith.isSome := by
  obtain ⟨names, hnames⟩ := Option.isSome_iff_exists.mp hd
  have hself : d.withTargets names = d := by rw [Draft.withTargets, ← hnames]
  have hmap : (d.withTargets names).readMember key o =
      (d.readMember key o).map (Draft.withTargets names) := readMember_withTargets hd names
  rw [hself, h] at hmap
  rw [Except.ok.inj hmap]
  rfl

theorem readMembers_withTargets (names : List String) :
    ∀ {ms : List (List Piece × Outline)} {d : Draft}, d.fusibleWith.isSome →
      Draft.readMembers (d.withTargets names) ms =
        (Draft.readMembers d ms).map (Draft.withTargets names)
  | [], _, _ => rfl
  | (key, o) :: ms, d, hd => by
    rw [Draft.readMembers, Draft.readMembers, readMember_withTargets hd]
    cases hm : d.readMember key o with
    | error e => rfl
    | ok d' => exact readMembers_withTargets names (isSome_of_readMember hd hm)

/-- Members are read one list after the other. -/
theorem readMembers_append : ∀ (d : Draft) (ms ms' : List (List Piece × Outline)),
    Draft.readMembers d (ms ++ ms') = Draft.readMembers d ms >>= (Draft.readMembers · ms')
  | _, [], _ => rfl
  | d, (key, o) :: ms, ms' => by
    rw [List.cons_append, Draft.readMembers, Draft.readMembers, bind_assoc]
    exact bind_congr fun d' => readMembers_append d' ms ms'

/-- The rule of a draft, if its entry was closed. -/
def Draft.finish (closed : Bool) (d : Draft) : Except TableError FusionRule :=
  if closed then d.rule else .error .malformed

theorem finish_withTargets (closed : Bool) (d : Draft) (names : List String) :
    (d.withTargets names).finish closed = (d.finish closed).map (withTargets names) := by
  obtain ⟨layerType, isFusible, fusibleWith⟩ := d
  cases closed with
  | true => cases layerType <;> rfl
  | false => rfl

/-- **The operators of an entry are read once.** There are steps before and steps after, which do
not depend on them, and those after let them stay. -/
theorem OpenEntry.read_fill (e : OpenEntry) :
    ∃ (start : Except TableError Draft) (rest : Draft → Except TableError FusionRule),
      (∀ o, read (e.fill o) = start >>= fun d => d.readWith o >>= rest) ∧
      ∀ d names, d.fusibleWith.isSome →
        rest (d.withTargets names) = (rest d).map (withTargets names) := by
  cases e with
  | obj before key named after closed =>
    refine ⟨Draft.readMembers {} before,
      fun d => Draft.readMembers d after >>= Draft.finish closed, fun o => ?_, fun d names hd => ?_⟩
    · have hmember : ∀ d : Draft, d.readMember key o = d.readWith o := by
        intro d
        simp only [Draft.readMember, named]
      simp only [fill, read, readMembers_append, Draft.readMembers, hmember, bind_assoc]
      rfl
    · simp only [readMembers_withTargets names hd]
      cases Draft.readMembers d after with
      | error e => rfl
      | ok d' => exact finish_withTargets closed d' names
  | arr a b after closed =>
    cases after with
    | nil =>
      refine ⟨({} : Draft).readType a >>= (Draft.readFusible · b), Draft.finish closed,
        fun o => ?_, fun d names _ => finish_withTargets closed d names⟩
      simp only [fill, read, Draft.readItems, bind_assoc]
      rfl
    | cons c after =>
      refine ⟨({} : Draft).readType a >>= (Draft.readFusible · b), fun _ => .error .malformed,
        fun o => ?_, fun _ _ _ => rfl⟩
      simp only [fill, read, Draft.readItems, bind_assoc]
      rfl

/-- **An entry with operators** is read as without, and has these operators then. -/
theorem OpenEntry.read_eq (e : OpenEntry) (ho : readTargets o = .ok names) :
    read (e.fill o) = (read (e.fill .null)).map (withTargets names) := by
  obtain ⟨start, rest, hread, hrest⟩ := e.read_fill
  rw [hread, hread]
  cases start with
  | error e => rfl
  | ok d =>
    have hstep : ∀ {o : Outline} {names : List String}, readTargets o = .ok names →
        d.readWith o >>= rest = if d.fusibleWith.isSome then .error .malformed
          else rest (d.withTargets names) := by
      intro o names ho
      rw [readWith_eq ho]
      split <;> rfl
    change d.readWith o >>= rest = (d.readWith .null >>= rest).map (withTargets names)
    have hnull : readTargets .null = .ok [] := rfl
    rw [hstep ho, hstep hnull]
    split
    · rfl
    · exact hrest (d.withTargets []) names rfl

theorem TwoSpellings.read_eq (h : TwoSpellings o o') : read o = read o' := by
  cases h with
  | same => rfl
  | respelled e joined listed =>
    rw [e.read_eq (readTargets_joined joined), e.read_eq (readTargets_listed listed)]

/-! ### Reading a table -/

theorem readAll_congr (h : List.Forall₂ TwoSpellings items items') :
    readAll items = readAll items' := by
  induction h with
  | nil => rfl
  | cons ho _ ih => rw [readAll, readAll, ho.read_eq, ih]

theorem readAll_eq_ok_iff :
    readAll items = .ok rs ↔ List.Forall₂ (fun o r => read o = .ok r) items rs := by
  induction items generalizing rs with
  | nil =>
    rw [List.forall₂_nil_left_iff]
    exact ⟨fun h => (Except.ok.inj h).symm, fun h => h ▸ rfl⟩
  | cons o os ih =>
    rw [readAll, bind_eq_ok_iff, List.forall₂_cons_left_iff]
    refine exists_congr fun r => ?_
    constructor
    · rintro ⟨hr, h⟩
      obtain ⟨rs', hrs, h⟩ := bind_eq_ok_iff.mp h
      cases h
      exact ⟨rs', hr, ih.mp hrs, rfl⟩
    · rintro ⟨rs', hr, hrs, rfl⟩
      exact ⟨hr, bind_eq_ok_iff.mpr ⟨rs', ih.mpr hrs, rfl⟩⟩

/-- **A table is read** if it is a complete list of entries, each of which is a rule. -/
theorem readTable_eq_ok_iff : readTable text = .ok rs ↔
    ∃ items, Outline.ofString text = (.arr items true, true) ∧
      List.Forall₂ (fun o r => read o = .ok r) items rs := by
  rw [readTable]
  split
  · next items closed ended htext =>
    rw [bind_eq_ok_iff, htext]
    constructor
    · rintro ⟨rs', hrs, h⟩
      split at h
      · next hend =>
        obtain ⟨rfl, rfl⟩ := Bool.and_eq_true_iff.mp hend
        cases h
        exact ⟨items, rfl, readAll_eq_ok_iff.mp hrs⟩
      · cases h
    · rintro ⟨items', h, hrs⟩
      cases h
      exact ⟨rs, readAll_eq_ok_iff.mpr hrs, rfl⟩
  · next hno =>
    refine ⟨nofun, fun ⟨items, h, _⟩ => absurd h (hno items true true)⟩

end FusionRule

/-! ### Putting rules in force -/

namespace FusionPolicy

theorem rule?_insert (p : FusionPolicy) (format : ModelFormat) (r : FusionRule) (f : ModelFormat)
    (op : String) : (p.insert format r).rule? f op =
      if f = format ∧ r.layerType = op then some r else p.rule? f op := by
  cases format <;> cases f <;> simp [insert, rule?, rules, Entries.value?_set]

/-- **The last rule for an operator stays**, and other formats have theirs still. -/
theorem rule?_insertAll (p : FusionPolicy) (format : ModelFormat) (rs : List FusionRule)
    (f : ModelFormat) (op : String) : (p.insertAll format rs).rule? f op =
      if f = format then (rs.reverse.find? fun r => r.layerType = op).or (p.rule? f op)
      else p.rule? f op := by
  induction rs generalizing p with
  | nil => simp [insertAll]
  | cons r rs ih =>
    rw [insertAll, List.foldl_cons, ← insertAll, ih, rule?_insert, List.reverse_cons,
      List.find?_append, Option.or_assoc]
    by_cases hf : f = format
    · by_cases hop : r.layerType = op <;> simp [hf, hop]
    · simp [hf]

/-- Steps on the policy in force, any of which may fail. -/
abbrev Change (α : Type) : Type := ExceptT TableError (StateM FusionPolicy) α

/-- What comes of the steps, and the policy that is in force after them. -/
def Change.on {α : Type} (c : Change α) (p : FusionPolicy) : Except TableError α × FusionPolicy :=
  c.run.run p

/-- Puts a rule in force. -/
def insertRule (format : ModelFormat) (r : FusionRule) : Change Unit :=
  modify fun p => p.insert format r

/-- **Adding a table** to the policy in force: it is read, its rules are put in force one after the
other, and they are counted. -/
def addTable (format : ModelFormat) (text : String) : Change Nat := do
  let rs ← liftM (FusionRule.readTable text)
  rs.forM (insertRule format)
  return rs.length

/-- The policy that is in force after the insertions. -/
theorem on_forM_insertRule {α : Type} (c : Change α) (p : FusionPolicy) (format : ModelFormat)
    (rs : List FusionRule) :
    Change.on (do rs.forM (insertRule format); c) p = c.on (p.insertAll format rs) := by
  induction rs generalizing p with
  | nil => rfl
  | cons r rs ih => exact ih (p.insert format r)

/-- **The steps do what the extension of a policy says**, and a table that cannot be read leaves
the policy in force. -/
theorem on_addTable (p : FusionPolicy) (format : ModelFormat) (text : String) :
    (addTable format text).on p =
      match p.extend format text with
      | .ok (q, n) => (.ok n, q)
      | .error e => (.error e, p) := by
  rw [extend, addTable]
  cases FusionRule.readTable text with
  | error e => rfl
  | ok rs => exact on_forM_insertRule (pure rs.length) p format rs

/-- **Adding a table is all or nothing, and the last rule wins.** A table that is no complete list of
rules leaves the policy as it is. Otherwise the entries are counted, and for each operator the last
rule of the table is in force in its format, or the one that was before if there is none; the other
format is as it was. Entries may give their operators as one string or as a list: both are read as
the same rule, which is that of the entry without operators but for these, and two tables that
differ in nothing else have the same effect on any policy. -/
theorem addTable_exact (p : FusionPolicy) (format : ModelFormat) (text : String) :
    (∀ e q, (addTable format text).on p = (.error e, q) →
      q = p ∧ p.extend format text = .error e ∧
      ¬ ∃ items rs, Outline.ofString text = (.arr items true, true) ∧
        List.Forall₂ (fun o r => FusionRule.read o = .ok r) items rs) ∧
    (∀ n q, (addTable format text).on p = (.ok n, q) →
      p.extend format text = .ok (q, n) ∧
      ∃ items rs, Outline.ofString text = (.arr items true, true) ∧
        List.Forall₂ (fun o r => FusionRule.read o = .ok r) items rs ∧ n = items.length ∧
        ∀ f op, q.rule? f op =
          if f = format then (rs.reverse.find? fun r => r.layerType = op).or (p.rule? f op)
          else p.rule? f op) ∧
    (∀ (e : FusionRule.OpenEntry) names ps os, FusionRule.Joined names ps →
      FusionRule.Listed names os →
        FusionRule.read (e.fill (.text ps)) = FusionRule.read (e.fill (.arr os true)) ∧
        FusionRule.read (e.fill (.text ps)) =
          (FusionRule.read (e.fill .null)).map fun r => { r with fusibleWith := names }) ∧
    ∀ text' items items' closed ended, Outline.ofString text = (.arr items closed, ended) →
      Outline.ofString text' = (.arr items' closed, ended) →
      List.Forall₂ FusionRule.TwoSpellings items items' →
        (addTable format text').on p = (addTable format text).on p := by
  have hrun := on_addTable p format text
  refine ⟨fun e q h => ?_, fun n q h => ?_, fun e names ps os joined listed => ⟨?_, ?_⟩,
    fun text' items items' closed ended htext htext' hitems => ?_⟩
  · rw [h, extend] at hrun
    cases hread : FusionRule.readTable text with
    | ok rs =>
      rw [hread] at hrun
      cases hrun
    | error e' =>
      rw [hread] at hrun
      cases hrun
      refine ⟨rfl, by rw [extend, hread], fun ⟨items, rs, hitems⟩ => ?_⟩
      cases hread.symm.trans (FusionRule.readTable_eq_ok_iff.mpr ⟨items, hitems⟩)
  · rw [h, extend] at hrun
    cases hread : FusionRule.readTable text with
    | error e =>
      rw [hread] at hrun
      cases hrun
    | ok rs =>
      rw [hread] at hrun
      cases hrun
      obtain ⟨items, htext, hitems⟩ := FusionRule.readTable_eq_ok_iff.mp hread
      exact ⟨by rw [extend, hread], items, rs, htext, hitems, hitems.length_eq.symm,
        fun f op => rule?_insertAll p format rs f op⟩
  · exact (FusionRule.TwoSpellings.respelled e joined listed).read_eq
  · exact e.read_eq (FusionRule.readTargets_joined joined)
  · have hread : FusionRule.readTable text' = FusionRule.readTable text := by
      rw [FusionRule.readTable, FusionRule.readTable, htext, htext']
      simp only [FusionRule.readAll_congr hitems]
    rw [hrun, on_addTable, extend, extend, hread]

/-- Two rules for one operator, of which the second has its operators in one string. -/
def joinedTable : String :=
  "[\x7b\"isFusible\": \"no\", \"layerType\": \"Relu\"\x7d, [\"Relu\", \"TRUE\", \" Conv ;; Gemm\"]]"

/-- The same rules, with the operators as a list. -/
def listedTable : String :=
  "[\x7b\"isFusible\": \"no\", \"layerType\": \"Relu\"\x7d, [\"Relu\", \"TRUE\", [\"Conv\", \"Gemm\"]]]"

/-- The first entry of both tables. -/
def refusingEntry : Outline := .obj [(Piece.plain "isFusible", .text (Piece.plain "no")),
  (Piece.plain "layerType", .text (Piece.plain "Relu"))] true

/-- The second entry, without the operators. -/
def allowingEntry : FusionRule.OpenEntry :=
  .arr (.text (Piece.plain "Relu")) (.text (Piece.plain "TRUE")) [] true

theorem joined_plain : FusionRule.Joined ["Conv", "Gemm"] (Piece.plain " Conv ;; Gemm") := by
  refine ⟨?_, [" Conv ".toList, [], " Gemm".toList], ?_, Piece.string?_plain _⟩
  · have hconv : ListableName "Conv" := ⟨by decide, by decide, by decide, by decide⟩
    have hgemm : ListableName "Gemm" := ⟨by decide, by decide, by decide, by decide⟩
    simp [hconv, hgemm]
  · have hblank : Blank [' '] := by
      intro c hc
      rw [List.mem_singleton.mp hc]
      decide
    exact .name (a := [' ']) (b := [' ']) hblank hblank
      (.blank nofun (.name (a := [' ']) (b := []) hblank nofun .nil))

theorem listed_plain :
    FusionRule.Listed ["Conv", "Gemm"] [.text (Piece.plain "Conv"), .text (Piece.plain "Gemm")] :=
  .cons ⟨_, rfl, Piece.string?_plain _⟩ (.cons ⟨_, rfl, Piece.string?_plain _⟩ .nil)

/-- A table whose last entry makes no sense. -/
def unreadTable : String := "[[\"Relu\", \"yes\", \"Conv\"], [\"Tanh\", \"maybe\"]]"

/-- Both tables have the same effect, and the third one has none. -/
theorem addTable_joinedTable :
    (addTable .onnx unreadTable).on standard = (.error (.invalidFlag "maybe"), standard) ∧
    ∃ q, (addTable .onnx joinedTable).on standard = (.ok 2, q) ∧
      (addTable .onnx listedTable).on standard = (.ok 2, q) ∧
      q.rule? .onnx "Relu" = some ⟨"Relu", true, ["Conv", "Gemm"]⟩ ∧
      q.rule? .keras "ReLU" = standard.rule? .keras "ReLU" := by
  constructor
  · have hunread : FusionRule.readTable unreadTable = .error (.invalidFlag "maybe") := by rfl
    obtain ⟨q, hrun⟩ :
        ∃ q, (addTable .onnx unreadTable).on standard = (.error (.invalidFlag "maybe"), q) := by
      rw [on_addTable, extend, hunread]
      exact ⟨_, rfl⟩
    rw [hrun, ((addTable_exact standard .onnx unreadTable).1 _ q hrun).1]
  · have htext : Outline.ofString joinedTable = (.arr [refusingEntry,
        allowingEntry.fill (.text (Piece.plain " Conv ;; Gemm"))] true, true) := by
      rfl
    have htext' : Outline.ofString listedTable = (.arr [refusingEntry, allowingEntry.fill
        (.arr [.text (Piece.plain "Conv"), .text (Piece.plain "Gemm")] true)] true, true) := by
      rfl
    have hrules : FusionRule.readTable joinedTable =
        .ok [⟨"Relu", false, []⟩, ⟨"Relu", true, ["Conv", "Gemm"]⟩] := by
      rfl
    obtain ⟨q, hrun⟩ : ∃ q, (addTable .onnx joinedTable).on standard = (.ok 2, q) := by
      rw [on_addTable, extend, hrules]
      exact ⟨_, rfl⟩
    obtain ⟨-, hok, -, hsame⟩ := addTable_exact standard .onnx joinedTable
    obtain ⟨-, items, rs, hitems, hread, -, hrule⟩ := hok 2 q hrun
    obtain rfl : [⟨"Relu", false, []⟩, ⟨"Relu", true, ["Conv", "Gemm"]⟩] = rs :=
      Except.ok.inj (hrules.symm.trans (FusionRule.readTable_eq_ok_iff.mpr ⟨items, hitems, hread⟩))
    refine ⟨q, hrun, ?_, ?_, ?_⟩
    · rw [hsame listedTable _ _ true true htext htext' (.cons (.same _)
        (.cons (.respelled allowingEntry joined_plain listed_plain) .nil)), hrun]
    · rw [hrule, if_pos rfl]
      rfl
    · rw [hrule, if_neg (by decide)]

end FusionPolicy

end LayerGraph
