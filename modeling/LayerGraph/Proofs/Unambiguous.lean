import LayerGraph.Document
import Mathlib.Tactic.SplitIfs

/-!
# A text comes apart in one way

An indented text is a value to a reader that keeps track of two things: whether it is inside a
string, and how many brackets are open. Outside of strings and with no bracket open, a comma or a
new line ends the value. `LayerGraph.Json.rest` is this reader; it gives what is left of a text
from that mark on. A text is *closed* (`LayerGraph.Json.Closed`) if the reader comes out of it as
it went in. All values are written as closed texts, so the parts of a block can be told from the
block (`LayerGraph.Json.block_inj`), and in a member the key ends with its quotation mark
(`LayerGraph.Json.memberLine_inj`).

Two objects of the same text therefore have members of the same keys and the same texts, in the
same order (`LayerGraph.Sheet.chars_obj_eq_iff`).
-/

namespace LayerGraph

namespace Json

/-! ### A reader -/

/-- Where a reader stands: outside of strings, in a string, or behind a backslash in one. -/
inductive Place where
  | outside
  | inside
  | escaped

/-- **The rest of a text**, from the first comma or new line that is in no string and in none of
the brackets, when `d` brackets are open. -/
def rest : Place → Nat → List Char → List Char
  | _, _, [] => []
  | .inside, d, c :: cs =>
    if c = '"' then rest .outside d cs
    else if c = '\\' then rest .escaped d cs
    else rest .inside d cs
  | .escaped, d, _ :: cs => rest .inside d cs
  | .outside, d, c :: cs =>
    if c = '"' then rest .inside d cs
    else if c = '[' ∨ c = '\x7b' then rest .outside (d + 1) cs
    else if c = ']' ∨ c = '\x7d' then rest .outside (d - 1) cs
    else if d = 0 ∧ (c = ',' ∨ c = '\n') then c :: cs
    else rest .outside d cs

/-- A text that a reader comes out of as it went in. -/
def Closed (t : List Char) : Prop := ∀ d r, rest .outside d (t ++ r) = rest .outside d r

/-- A text that a reader comes out of as it went in, if it is between brackets. -/
def Enclosed (t : List Char) : Prop :=
  ∀ d r, rest .outside (d + 1) (t ++ r) = rest .outside (d + 1) r

/-- A character that means nothing to the reader, wherever it stands. -/
def Plain (c : Char) : Prop := c ∉ ['"', '[', '\x7b', ']', '\x7d', ',', '\n']

instance : DecidablePred Plain := fun c => inferInstanceAs (Decidable (c ∉ _))

variable {t u p q r r' : List Char} {c c' o : Char} {level d : Nat} {ps qs : List (List Char)}

theorem Closed.append (ht : Closed t) (hu : Closed u) : Closed (t ++ u) := by
  intro d r
  rw [List.append_assoc, ht, hu]

theorem Closed.enclosed (ht : Closed t) : Enclosed t := fun d r => ht (d + 1) r

theorem Enclosed.append (ht : Enclosed t) (hu : Enclosed u) : Enclosed (t ++ u) := by
  intro d r
  rw [List.append_assoc, ht, hu]

theorem enclosed_nil : Enclosed [] := fun _ _ => rfl

theorem rest_plain (hc : Plain c) : rest .outside d (c :: r) = rest .outside d r := by
  simp only [Plain, List.mem_cons, List.not_mem_nil, or_false, not_or] at hc
  simp [rest, hc]

/-- A text of plain characters is closed. -/
theorem closed_of_plain (h : ∀ c ∈ t, Plain c) : Closed t := by
  intro d r
  induction t with
  | nil => rfl
  | cons c t ih =>
    obtain ⟨hc, ht⟩ := List.forall_mem_cons.mp h
    rw [List.cons_append, rest_plain hc, ih ht]

theorem plain_of_all (h : t.all (Plain ·) = true) : ∀ c ∈ t, Plain c := fun c hc =>
  of_decide_eq_true (List.all_eq_true.mp h c hc)

/-- Between brackets commas and new lines end nothing. -/
theorem enclosed_comma : Enclosed [','] := by
  intro d r
  simp [rest]

theorem enclosed_newLine (level : Nat) : Enclosed (newLine level) := by
  have hspaces : Closed (List.replicate (4 * level) ' ') := by
    refine closed_of_plain fun c hc => ?_
    rw [List.eq_of_mem_replicate hc]
    decide
  intro d r
  rw [newLine, List.cons_append, rest]
  simpa using hspaces (d + 1) r

/-- **Brackets close what is between them.** -/
theorem closed_bracket (ho : o = '[' ∨ o = '\x7b') (hc : c = ']' ∨ c = '\x7d') (ht : Enclosed t) :
    Closed (o :: (t ++ [c])) := by
  intro d r
  have hclose : rest .outside (d + 1) (c :: r) = rest .outside d r := by
    rcases hc with rfl | rfl <;> simp [rest]
  have hopen : ∀ s, rest .outside d (o :: s) = rest .outside (d + 1) s := by
    intro s
    rcases ho with rfl | rfl <;> simp [rest]
  rw [List.cons_append, hopen, List.append_assoc, ht, List.singleton_append, hclose]

/-! ### Strings -/

/-- The character that a letter behind a backslash stands for. -/
def unmark (e : Char) : Char :=
  if e = 'b' then '\x08'
  else if e = 'f' then '\x0c'
  else if e = 'n' then '\n'
  else if e = 'r' then '\r'
  else if e = 't' then '\t'
  else e

/-- The value of a hexadecimal digit. -/
def hexValue (c : Char) : Nat :=
  if c.toNat < 'a'.toNat then c.toNat - '0'.toNat else c.toNat - 'a'.toNat + 10

theorem hexChar_spec {n : Nat} (hn : n < 16) :
    hexChar n ≠ '"' ∧ hexChar n ≠ '\\' ∧ hexValue (hexChar n) = n := by
  have hall : ∀ m : Fin 16, hexChar m ≠ '"' ∧ hexChar m ≠ '\\' ∧ hexValue (hexChar m) = m := by
    decide
  exact hall ⟨n, hn⟩

/-- **The three ways to write a character** in a string. -/
theorem escape_cases (c : Char) :
    (∃ e, e ≠ 'u' ∧ unmark e = c ∧ escape c = ['\\', e]) ∨
      (∃ m n, m < 16 ∧ n < 16 ∧ c.toNat = 16 * m + n ∧
        escape c = ['\\', 'u', '0', '0', hexChar m, hexChar n]) ∨
      (c ≠ '"' ∧ c ≠ '\\' ∧ escape c = [c]) := by
  rw [escape]
  split_ifs with hquote hslash h h h h h hlow
  · exact .inl ⟨'"', by decide, hquote.symm ▸ by decide, rfl⟩
  · exact .inl ⟨'\\', by decide, hslash.symm ▸ by decide, rfl⟩
  · exact .inl ⟨'b', by decide, h.symm ▸ by decide, rfl⟩
  · exact .inl ⟨'f', by decide, h.symm ▸ by decide, rfl⟩
  · exact .inl ⟨'n', by decide, h.symm ▸ by decide, rfl⟩
  · exact .inl ⟨'r', by decide, h.symm ▸ by decide, rfl⟩
  · exact .inl ⟨'t', by decide, h.symm ▸ by decide, rfl⟩
  · exact .inr (.inl ⟨c.toNat / 16, c.toNat % 16, by omega, by omega, by omega, rfl⟩)
  · exact .inr (.inr ⟨hquote, hslash, rfl⟩)

/-- An escaped character leaves the reader in the string. -/
theorem rest_escape (c : Char) : rest .inside d (escape c ++ r) = rest .inside d r := by
  rcases escape_cases c with ⟨e, -, -, h⟩ | ⟨m, n, hm, hn, -, h⟩ | ⟨hquote, hslash, h⟩
  · rw [h]
    simp [rest]
  · obtain ⟨hm, hm', -⟩ := hexChar_spec hm
    obtain ⟨hn, hn', -⟩ := hexChar_spec hn
    rw [h]
    simp [rest, hm, hm', hn, hn']
  · rw [h]
    simp [rest, hquote, hslash]

theorem closed_quoted (s : String) : Closed (quoted s) := by
  intro d r
  have hinside : ∀ cs : List Char,
      rest .inside d (cs.flatMap escape ++ '"' :: r) = rest .outside d r := by
    intro cs
    induction cs with
    | nil => simp [rest]
    | cons c cs ih => rw [List.flatMap_cons, List.append_assoc, rest_escape, ih]
  have hopen : ∀ s, rest .outside d ('"' :: s) = rest .inside d s := fun s => by simp [rest]
  rw [quoted, List.cons_append, hopen, List.append_assoc]
  exact hinside s.toList

/-- The first character of the inside of a string, and what comes behind it. -/
def unescape : List Char → Option (Char × List Char)
  | '\\' :: 'u' :: _ :: _ :: a :: b :: r => some (Char.ofNat (16 * hexValue a + hexValue b), r)
  | '\\' :: e :: r => some (unmark e, r)
  | '"' :: _ => none
  | c :: r => some (c, r)
  | [] => none

/-- **An escaped character is read back.** -/
theorem unescape_escape (c : Char) (r : List Char) : unescape (escape c ++ r) = some (c, r) := by
  rcases escape_cases c with ⟨e, hu, he, h⟩ | ⟨m, n, hm, hn, hc, h⟩ | ⟨hquote, hslash, h⟩
  · rw [h]
    simp [unescape, hu, he]
  · rw [h]
    simp [unescape, (hexChar_spec hm).2.2, (hexChar_spec hn).2.2, ← hc]
  · rw [h]
    simp [unescape, hslash]

/-- **A string ends with its quotation mark**: two texts that begin with strings and are the same
begin with the same string. -/
theorem quoted_inj {s s' : String} (h : quoted s ++ r = quoted s' ++ r') : s = s' ∧ r = r' := by
  have hinside : ∀ cs cs' : List Char,
      cs.flatMap escape ++ '"' :: r = cs'.flatMap escape ++ '"' :: r' → cs = cs' ∧ r = r' := by
    intro cs
    induction cs with
    | nil =>
      intro cs' h
      cases cs' with
      | nil => exact ⟨rfl, (List.cons.inj h).2⟩
      | cons c cs' =>
        have hread := congrArg unescape h
        rw [List.flatMap_cons, List.append_assoc, unescape_escape] at hread
        cases hread
    | cons c cs ih =>
      intro cs' h
      have hread := congrArg unescape h
      rw [List.flatMap_cons, List.append_assoc, unescape_escape] at hread
      cases cs' with
      | nil => cases hread
      | cons c' cs' =>
        rw [List.flatMap_cons, List.append_assoc, unescape_escape] at hread
        obtain ⟨rfl, hrest⟩ := Prod.mk.inj (Option.some.inj hread)
        obtain ⟨rfl, hr⟩ := ih cs' hrest
        exact ⟨rfl, hr⟩
  rw [quoted, quoted, List.cons_append, List.cons_append, List.append_assoc,
    List.append_assoc] at h
  obtain ⟨hs, hr⟩ := hinside s.toList s'.toList (List.cons.inj h).2
  exact ⟨String.toList_inj.mp hs, hr⟩

theorem quoted_injective {s s' : String} (h : quoted s = quoted s') : s = s' :=
  (quoted_inj (congrArg (· ++ []) h)).1

/-! ### Numbers -/

theorem plain_of_isDigit (h : c.isDigit = true) : Plain c := by
  intro hmem
  have hall : ['"', '[', '\x7b', ']', '\x7d', ',', '\n'].all (!Char.isDigit ·) = true := by decide
  have hdigit := List.all_eq_true.mp hall c hmem
  rw [h] at hdigit
  cases hdigit

/-- The digits of a whole number. -/
theorem plain_toString_nat (n : Nat) : ∀ c ∈ (toString n).toList, Plain c := by
  intro c hc
  have hdigits : (toString n).toList = Nat.toDigits 10 n := by simp [toString, Nat.repr]
  rw [hdigits] at hc
  exact plain_of_isDigit (Nat.isDigit_of_mem_toDigits (by decide) (by decide) hc)

theorem plain_toString_int (n : Int) : ∀ c ∈ (toString n).toList, Plain c := by
  cases n with
  | ofNat m => exact plain_toString_nat m
  | negSucc m =>
    intro c hc
    have hchars : (toString (Int.negSucc m)).toList = '-' :: (toString (m + 1)).toList := by
      simp [toString, Int.repr]
    rw [hchars] at hc
    rcases List.mem_cons.mp hc with rfl | hc
    · decide
    · exact plain_toString_nat (m + 1) c hc

theorem plain_zeros (n : Nat) : ∀ c ∈ NumberStyle.zeros n, Plain c := by
  intro c hc
  rw [List.eq_of_mem_replicate hc]
  decide

/-- Wherever the point is placed among digits, the characters are plain. -/
theorem plain_place (style : NumberStyle) {ds : List Char} (e : Int) (hds : ∀ c ∈ ds, Plain c) :
    ∀ c ∈ style.place ds e, Plain c := by
  have hpoint : Plain '.' := by decide
  have hzero : Plain '0' := by decide
  have hexponent : ∀ (i : Int) (n : Nat),
      ∀ c ∈ 'e' :: (if i < 0 then '-' else '+') :: (toString n).toList, Plain c := by
    intro i n
    refine List.forall_mem_cons.mpr ⟨by decide, List.forall_mem_cons.mpr ⟨?_, ?_⟩⟩
    · split <;> decide
    · exact plain_toString_nat n
  unfold NumberStyle.place
  dsimp only
  split
  · refine List.forall_mem_append.mpr ⟨?_, hexponent _ _⟩
    -- the point stands behind the first digit, if there are others
    rcases ds with _ | ⟨d, _ | ⟨d', r⟩⟩
    · exact hds
    · exact hds
    · obtain ⟨hd, hr⟩ := List.forall_mem_cons.mp hds
      exact List.forall_mem_cons.mpr ⟨hd, List.forall_mem_cons.mpr ⟨hpoint, hr⟩⟩
  · split
    · refine List.forall_mem_append.mpr ⟨List.forall_mem_append.mpr ⟨hds, plain_zeros _⟩, ?_⟩
      exact List.forall_mem_cons.mpr
        ⟨hpoint, List.forall_mem_cons.mpr ⟨hzero, List.forall_mem_nil _⟩⟩
    · split
      · refine List.forall_mem_append.mpr ⟨fun c hc => hds c (List.mem_of_mem_take hc), ?_⟩
        exact List.forall_mem_cons.mpr ⟨hpoint, fun c hc => hds c (List.mem_of_mem_drop hc)⟩
      · refine List.forall_mem_cons.mpr ⟨hzero, List.forall_mem_cons.mpr ⟨hpoint, ?_⟩⟩
        exact List.forall_mem_append.mpr ⟨plain_zeros _, hds⟩

theorem plain_write {f : FloatFormat} (style : NumberStyle) (x : Floating f) :
    ∀ c ∈ style.write x, Plain c := by
  have hbody : ∀ c ∈ (if (x.shortest style.tie).coefficient = 0 then ['0', '.', '0']
      else style.place (toString (x.shortest style.tie).coefficient).toList
        (x.shortest style.tie).exponent), Plain c := by
    split
    · exact plain_of_all (by decide)
    · exact plain_place style _ (plain_toString_nat _)
  rw [NumberStyle.write]
  split
  · exact List.forall_mem_cons.mpr ⟨by decide, hbody⟩
  · exact hbody

theorem closed_number {f : FloatFormat} (style : NumberStyle) (x : Floating f) :
    Closed (number style x) := by
  rw [number]
  split
  · exact closed_of_plain (plain_write style x)
  · exact closed_of_plain (plain_of_all (by decide))

theorem closed_scalar (j : Json) : Closed (scalar j) := by
  cases j with
  | null => exact closed_of_plain (plain_of_all (by decide))
  | bool b => cases b <;> exact closed_of_plain (plain_of_all (by decide))
  | int n => exact closed_of_plain (plain_toString_int n)
  | float x => exact closed_number .double x
  | str s => exact closed_quoted s
  | arr xs => exact closed_of_plain nofun
  | obj ms => exact closed_of_plain nofun

/-! ### Blocks -/

/-- What comes behind the first part of a block. -/
def blockTail (closing : Char) (level : Nat) (ps : List (List Char)) : List Char :=
  ps.flatMap (fun p => ',' :: (newLine (level + 1) ++ p)) ++ newLine level ++ [closing]

theorem block_cons : block o c level (p :: ps) =
    o :: (newLine (level + 1) ++ (p ++ blockTail c level ps)) := by
  simp [block, blockTail]

theorem blockTail_cons : blockTail c level (p :: ps) =
    ',' :: (newLine (level + 1) ++ (p ++ blockTail c level ps)) := by
  simp [blockTail]

theorem enclosed_parts (level : Nat) (hps : ∀ p ∈ ps, Closed p) :
    Enclosed (ps.flatMap fun p => ',' :: (newLine level ++ p)) := by
  induction ps with
  | nil => exact enclosed_nil
  | cons p ps ih =>
    obtain ⟨hp, hps⟩ := List.forall_mem_cons.mp hps
    have hpart := (enclosed_comma.append (enclosed_newLine level)).append hp.enclosed
    exact hpart.append (ih hps)

/-- **A block of closed parts is closed.** -/
theorem closed_block (ho : o = '[' ∨ o = '\x7b') (hc : c = ']' ∨ c = '\x7d')
    (hps : ∀ p ∈ ps, Closed p) : Closed (block o c level ps) := by
  cases ps with
  | nil => exact closed_bracket ho hc enclosed_nil
  | cons p ps =>
    obtain ⟨hp, hps⟩ := List.forall_mem_cons.mp hps
    have hfirst := (enclosed_newLine (level + 1)).append hp.enclosed
    have hparts := hfirst.append (enclosed_parts (level + 1) hps)
    exact closed_bracket ho hc (hparts.append (enclosed_newLine level))

/-- A closed text ends where a comma or a new line follows. -/
theorem rest_closed (ht : Closed t) (hc : c = ',' ∨ c = '\n') :
    rest .outside 0 (t ++ c :: r) = c :: r := by
  rw [ht]
  rcases hc with rfl | rfl <;> simp [rest]

/-- The end of a block begins with a comma or a new line. -/
theorem exists_blockTail (c : Char) (level : Nat) (ps : List (List Char)) :
    ∃ e r, blockTail c level ps = e :: r ∧ (e = ',' ∨ e = '\n') := by
  cases ps with
  | nil => exact ⟨'\n', _, rfl, .inr rfl⟩
  | cons p ps => exact ⟨',', _, rfl, .inl rfl⟩

/-- **A closed part of a block can be told from what follows it.** -/
theorem part_inj (hp : Closed p) (hq : Closed q)
    (h : p ++ blockTail c level ps = q ++ blockTail c level qs) :
    p = q ∧ blockTail c level ps = blockTail c level qs := by
  obtain ⟨e, r, he, hd⟩ := exists_blockTail c level ps
  obtain ⟨e', r', he', hd'⟩ := exists_blockTail c level qs
  rw [he, he'] at h ⊢
  have htail : e :: r = e' :: r' := by
    rw [← rest_closed hp hd, h, rest_closed hq hd']
  rw [← htail] at h
  exact ⟨List.append_cancel_right h, htail⟩

theorem blockTail_inj (hps : ∀ p ∈ ps, Closed p) (hqs : ∀ q ∈ qs, Closed q)
    (h : blockTail c level ps = blockTail c level qs) : ps = qs := by
  induction ps generalizing qs with
  | nil =>
    cases qs with
    | nil => rfl
    | cons q qs => exact absurd (List.cons.inj h).1 (by decide)
  | cons p ps ih =>
    cases qs with
    | nil => exact absurd (List.cons.inj h).1 (by decide)
    | cons q qs =>
      obtain ⟨hp, hps⟩ := List.forall_mem_cons.mp hps
      obtain ⟨hq, hqs⟩ := List.forall_mem_cons.mp hqs
      rw [blockTail_cons, blockTail_cons] at h
      obtain ⟨hpq, htail⟩ := part_inj hp hq (List.append_cancel_left (List.cons.inj h).2)
      rw [hpq, ih hps hqs htail]

/-- **The parts of a block can be told from its text.** -/
theorem block_inj (hc : c ≠ '\n') (hps : ∀ p ∈ ps, Closed p) (hqs : ∀ q ∈ qs, Closed q)
    (h : block o c level ps = block o c level qs) : ps = qs := by
  cases ps with
  | nil =>
    cases qs with
    | nil => rfl
    | cons q qs =>
      rw [block_cons] at h
      exact absurd (List.cons.inj (List.cons.inj h).2).1 hc
  | cons p ps =>
    cases qs with
    | nil =>
      rw [block_cons] at h
      exact absurd (List.cons.inj (List.cons.inj h).2).1 hc.symm
    | cons q qs =>
      obtain ⟨hp, hps⟩ := List.forall_mem_cons.mp hps
      obtain ⟨hq, hqs⟩ := List.forall_mem_cons.mp hqs
      rw [block_cons, block_cons] at h
      obtain ⟨hpq, htail⟩ := part_inj hp hq (List.append_cancel_left (List.cons.inj h).2)
      rw [hpq, blockTail_inj hps hqs htail]

/-! ### Members -/

theorem closed_memberLine {v : List Char} (key : String) (hv : Closed v) :
    Closed (memberLine key v) := by
  have hcolon : Closed [':', ' '] := closed_of_plain (plain_of_all (by decide))
  have hline := ((closed_quoted key).append hcolon).append hv
  simpa [memberLine] using hline

/-- **Key and value of a member can be told from its line.** -/
theorem memberLine_inj {k k' : String} {v v' : List Char} (h : memberLine k v = memberLine k' v') :
    k = k' ∧ v = v' := by
  obtain ⟨hk, hr⟩ := quoted_inj h
  exact ⟨hk, (List.cons.inj (List.cons.inj hr).2).2⟩

/-! ### Values -/

mutual

/-- **Every value is written as a closed text.** -/
theorem closed_indentedChars (level : Nat) : ∀ j : Json, Closed (j.indentedChars level)
  | .arr items =>
    closed_block (.inl rfl) (.inl rfl) (closed_indentedItems (level + 1) items)
  | .obj members =>
    closed_block (.inr rfl) (.inr rfl) (closed_indentedMembers (level + 1) members)
  | .null => closed_scalar .null
  | .bool b => closed_scalar (.bool b)
  | .int n => closed_scalar (.int n)
  | .float x => closed_scalar (.float x)
  | .str s => closed_scalar (.str s)

theorem closed_indentedItems (level : Nat) :
    ∀ xs : List Json, ∀ p ∈ indentedItems level xs, Closed p
  | [] => nofun
  | x :: xs => List.forall_mem_cons.mpr
      ⟨closed_indentedChars level x, closed_indentedItems level xs⟩

theorem closed_indentedMembers (level : Nat) :
    ∀ ms : List (String × Json), ∀ p ∈ indentedMembers level ms, Closed p
  | [] => nofun
  | (k, x) :: ms => List.forall_mem_cons.mpr
      ⟨closed_memberLine k (closed_indentedChars level x), closed_indentedMembers level ms⟩

end

end Json

namespace Sheet

open Json

mutual

/-- **Every sheet is written as a closed text.** -/
theorem closed_chars (level : Nat) : ∀ s : Sheet, Closed (s.chars level)
  | .json j => closed_indentedChars level j
  | .singles xs => closed_block (.inl rfl) (.inl rfl) fun p hp => by
      obtain ⟨x, -, rfl⟩ := List.mem_map.mp hp
      exact closed_number .single x
  | .obj members => closed_block (.inr rfl) (.inr rfl) (closed_memberChars (level + 1) members)

theorem closed_memberChars (level : Nat) :
    ∀ ms : List (String × Sheet), ∀ p ∈ memberChars level ms, Closed p
  | [] => nofun
  | (k, s) :: ms => List.forall_mem_cons.mpr
      ⟨closed_memberLine k (closed_chars level s), closed_memberChars level ms⟩

end

theorem memberChars_eq_map (level : Nat) (ms : List (String × Sheet)) :
    memberChars level ms = ms.map fun m => memberLine m.1 (m.2.chars level) := by
  induction ms with
  | nil => rfl
  | cons m ms ih => exact congrArg _ ih

/-- The keys of some members and the texts of their values. -/
def texts (level : Nat) (ms : List (String × Sheet)) : List (String × List Char) :=
  ms.map fun m => (m.1, m.2.chars level)

theorem texts_cons (level : Nat) (m : String × Sheet) (ms : List (String × Sheet)) :
    texts level (m :: ms) = (m.1, m.2.chars level) :: texts level ms := rfl

theorem texts_append (level : Nat) (ms ms' : List (String × Sheet)) :
    texts level (ms ++ ms') = texts level ms ++ texts level ms' := List.map_append

/-- **Objects of the same text** are those whose members have the same keys and the same texts, in
the same order. -/
theorem chars_obj_eq_iff {level : Nat} {ms ms' : List (String × Sheet)} :
    chars level (.obj ms) = chars level (.obj ms') ↔
      texts (level + 1) ms = texts (level + 1) ms' := by
  have hlines : ∀ ms, memberChars (level + 1) ms =
      (texts (level + 1) ms).map fun m => memberLine m.1 m.2 := by
    intro ms
    rw [memberChars_eq_map, texts, List.map_map]
    rfl
  have hline : ∀ m m' : String × List Char,
      memberLine m.1 m.2 = memberLine m'.1 m'.2 → m = m' := by
    intro m m' hm
    obtain ⟨hkey, hvalue⟩ := memberLine_inj hm
    exact Prod.ext hkey hvalue
  constructor
  · intro h
    have hmembers : memberChars (level + 1) ms = memberChars (level + 1) ms' :=
      block_inj (by decide) (closed_memberChars _ ms) (closed_memberChars _ ms') h
    rw [hlines, hlines] at hmembers
    exact (List.map_inj_right hline).mp hmembers
  · intro h
    rw [chars, chars, hlines, hlines, h]

end Sheet

end LayerGraph
