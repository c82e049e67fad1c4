import LayerGraph.FusionRule

/-!
# Names in one string

A list of names is often written as one string, with semicolons between the names. Nobody is
careful about blanks, and a semicolon too many is common, so blanks around names and empty pieces
mean nothing. As long as the names are such that they can be told apart in a string – none is empty,
has a semicolon in it, or begins or ends with a blank – reading gives the names back
(`LayerGraph.namesOfText_intercalate`).
-/

namespace LayerGraph

/-- **A name that can stand in a list** of names. -/
structure ListableName (name : String) : Prop where
  nonempty : name ≠ ""
  unseparated : ';' ∉ name.toList
  first : name.toList.head?.any isWhiteSpace = false
  last : name.toList.getLast?.any isWhiteSpace = false

/-- White space and nothing else, or nothing at all. -/
def Blank (cs : List Char) : Prop := ∀ c ∈ cs, isWhiteSpace c = true

/-- **The pieces of a list of names**: the names in order, with any white space around them, and
pieces in between that are blank. -/
inductive Padded : List String → List (List Char) → Prop
  | nil : Padded [] []
  | name {x : String} {a b : List Char} {names : List String} {parts : List (List Char)}
      (before : Blank a) (after : Blank b) (rest : Padded names parts) :
      Padded (x :: names) ((a ++ x.toList ++ b) :: parts)
  | blank {a : List Char} {names : List String} {parts : List (List Char)}
      (blank : Blank a) (rest : Padded names parts) :
      Padded names (a :: parts)

variable {a b cs : List Char} {x : String} {names : List String} {parts : List (List Char)}

/-! ### Cutting -/

theorem pieces_eq_splitOn (sep : Char) (cs : List Char) : pieces sep cs = cs.splitOn sep := by
  induction cs with
  | nil => rfl
  | cons c cs ih =>
    rw [pieces, ih, List.splitOn_cons_eq_if_modifyHead]
    simp only [beq_iff_eq]
    obtain ⟨p, ps, hp⟩ := List.exists_cons_of_ne_nil (List.splitOn_ne_nil sep cs)
    rw [hp]
    rfl

theorem Blank.not_mem (h : Blank a) : ';' ∉ a := fun hmem =>
  absurd (h ';' hmem) (by decide)

/-- No piece has a semicolon in it. -/
theorem Padded.not_mem (h : Padded names parts) (hnames : ∀ x ∈ names, ListableName x) :
    ∀ p ∈ parts, ';' ∉ p := by
  induction h with
  | nil => simp
  | name before after rest ih =>
    obtain ⟨hx, hnames⟩ := List.forall_mem_cons.mp hnames
    refine List.forall_mem_cons.mpr ⟨?_, ih hnames⟩
    rw [List.mem_append, List.mem_append]
    rintro ((hmem | hmem) | hmem)
    · exact before.not_mem hmem
    · exact hx.unseparated hmem
    · exact after.not_mem hmem
  | blank blank rest ih => exact List.forall_mem_cons.mpr ⟨blank.not_mem, ih hnames⟩

/-! ### Trimming -/

theorem dropWhile_blank_append (h : Blank a) (cs : List Char) :
    (a ++ cs).dropWhile isWhiteSpace = cs.dropWhile isWhiteSpace :=
  List.dropWhile_append_of_pos h

/-- What does not begin with white space is left alone. -/
theorem dropWhile_of_head? (h : cs.head?.any isWhiteSpace = false) :
    cs.dropWhile isWhiteSpace = cs := by
  cases cs with
  | nil => rfl
  | cons c cs => exact List.dropWhile_cons_of_neg (by simpa using h)

theorem Blank.reverse (h : Blank a) : Blank a.reverse := fun c hc =>
  h c (List.mem_reverse.mp hc)

theorem trimBlanks_of_blank (h : Blank a) : trimBlanks a = [] := by
  have hall : a.dropWhile isWhiteSpace = [] := by
    simpa using dropWhile_blank_append h []
  rw [trimBlanks, hall]
  rfl

/-- **Trimming takes off the white space around a name.** -/
theorem trimBlanks_append (ha : Blank a) (hb : Blank b) (hx : ListableName x) :
    trimBlanks (a ++ x.toList ++ b) = x.toList := by
  have hne : x.toList ≠ [] := fun h => hx.nonempty (String.toList_eq_nil_iff.mp h)
  have hfront : (a ++ x.toList ++ b).dropWhile isWhiteSpace = x.toList ++ b := by
    rw [List.append_assoc, dropWhile_blank_append ha]
    refine dropWhile_of_head? ?_
    rw [List.head?_append, Option.or_of_isSome (List.isSome_head?.mpr hne), hx.first]
  have hback : (b.reverse ++ x.toList.reverse).dropWhile isWhiteSpace = x.toList.reverse := by
    rw [dropWhile_blank_append hb.reverse]
    refine dropWhile_of_head? ?_
    rw [List.head?_reverse, hx.last]
  rw [trimBlanks, hfront, List.reverse_append, hback, List.reverse_reverse]

/-! ### Reading -/

theorem Padded.names_eq (h : Padded names parts) (hnames : ∀ x ∈ names, ListableName x) :
    ((parts.map trimBlanks).filter fun p => !p.isEmpty).map String.ofList = names := by
  induction h with
  | nil => rfl
  | @name x _ _ _ _ before after rest ih =>
    obtain ⟨hx, hnames⟩ := List.forall_mem_cons.mp hnames
    have hne : x.toList ≠ [] := fun h => hx.nonempty (String.toList_eq_nil_iff.mp h)
    rw [List.map_cons, trimBlanks_append before after hx,
      List.filter_cons_of_pos (by simpa using hne), List.map_cons, String.ofList_toList, ih hnames]
  | blank blank rest ih =>
    rw [List.map_cons, trimBlanks_of_blank blank, List.filter_cons_of_neg (by simp), ih hnames]

/-- **Names that were joined are read back.** -/
theorem namesOfText_intercalate (h : Padded names parts) (hnames : ∀ x ∈ names, ListableName x) :
    namesOfText (String.ofList ([';'].intercalate parts)) = names := by
  rw [namesOfText, String.toList_ofList, pieces_eq_splitOn]
  cases parts with
  | nil =>
    -- there is one piece even so, and it is blank
    cases h
    rfl
  | cons p ps =>
    rw [List.splitOn_intercalate ';' (h.not_mem hnames) (List.cons_ne_nil p ps)]
    exact h.names_eq hnames

end LayerGraph
