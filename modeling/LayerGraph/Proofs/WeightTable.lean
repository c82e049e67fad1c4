import LayerGraph.Proofs.Flattening
import LayerGraph.Proofs.LayerList
import Mathlib.Data.List.TakeWhile

/-!
# Where the weights of a configuration end up

The weights come in by a series of calls, each for one variable of one layer, either by name or by a
path (`LayerGraph.Configuration.WeightCall`). Reading the layers takes them out of the table again:
whatever is inside a layer is served before it, so the nodes help themselves in postorder
(`LayerGraph.Configuration.Takes`), and what a node has taken is gone for all nodes after it.

So a name that stands twice costs the second node its weights. Where all names are different, at all
depths, nobody takes what belongs to somebody else, and every node ends up with what was registered
for it (`LayerGraph.Configuration.load_weights`).
-/

namespace LayerGraph

namespace Configuration

/-! ### Calls -/

/-- **A call that brings in a weight.** -/
inductive WeightCall where
  | named (layer var : String) (t : Tensor)
  | path (path : String) (t : Tensor)

/-- What a call does to a configuration. -/
def WeightCall.apply (c : Configuration) : WeightCall → Except ConvertError Configuration
  | .named l v t => .ok (c.addWeight l v t)
  | .path p t => c.addWeightPath p t

/-- Calls, one after the other. -/
def addWeights (c : Configuration) (calls : List WeightCall) : Except ConvertError Configuration :=
  calls.foldlM WeightCall.apply c

/-! ### What a call is about -/

/-- What stands before the first colon of a path, which is all of it if there is none. -/
structure Before (path : String) (cs : List Char) : Prop where
  noColon : ':' ∉ cs
  rest : path.toList = cs ∨ ∃ suffix, path.toList = cs ++ ':' :: suffix

/-- **The layer and the variable of a path** are the last two components before the colon, with any
components in front of them. -/
def PathNames (path layer var : String) : Prop :=
  ∃ front, (front = [] ∨ ∃ outer, front = outer ++ ['/']) ∧
    Before path (front ++ layer.toList ++ '/' :: var.toList) ∧
    '/' ∉ layer.toList ∧ '/' ∉ var.toList

/-- A path that has only one component before the colon: it names no layer. -/
def Bare (path : String) : Prop := ∃ cs, Before path cs ∧ '/' ∉ cs

/-- **What a call registers.** -/
inductive WeightCall.Registers : WeightCall → String → String → Tensor → Prop
  | named (layer var : String) (t : Tensor) : Registers (.named layer var t) layer var t
  | path {path layer var : String} (names : PathNames path layer var) (t : Tensor) :
      Registers (.path path t) layer var t

/-- **The weight that is registered last** for a variable of a layer. -/
def LastRegistered (calls : List WeightCall) (layer var : String) (t : Tensor) : Prop :=
  ∃ before call after, calls = before ++ call :: after ∧ call.Registers layer var t ∧
    ∀ later ∈ after, ∀ t', ¬ later.Registers layer var t'

section Cuts

/-! ### Where a path is cut -/

variable {d : Char} {path : String} {cs a b front : List Char}

theorem takeWhile_ne_append (h : d ∉ a) (b : List Char) : (a ++ d :: b).takeWhile (· ≠ d) = a := by
  have hall : ∀ c ∈ a, decide (c ≠ d) = true := fun c hc => decide_eq_true fun hcd => h (hcd ▸ hc)
  rw [List.takeWhile_append_of_pos hall]
  simp

theorem takeWhile_ne_of_not_mem (h : d ∉ cs) : cs.takeWhile (· ≠ d) = cs :=
  List.takeWhile_eq_self_iff.mpr fun _ hc => decide_eq_true fun hcd => h (hcd ▸ hc)

theorem dropWhile_ne_append (h : d ∉ a) (b : List Char) :
    (a ++ d :: b).dropWhile (· ≠ d) = d :: b := by
  have hall : ∀ c ∈ a, decide (c ≠ d) = true := fun c hc => decide_eq_true fun hcd => h (hcd ▸ hc)
  rw [List.dropWhile_append_of_pos hall]
  simp

theorem dropWhile_ne_of_not_mem (h : d ∉ cs) : cs.dropWhile (· ≠ d) = [] :=
  List.dropWhile_eq_nil_iff.mpr fun _ hc => decide_eq_true fun hcd => h (hcd ▸ hc)

/-- What is before the colon is found by reading as far as the colon. -/
theorem before_iff : Before path cs ↔ cs = beforeColon path.toList := by
  constructor
  · rintro ⟨hcolon, h | ⟨suffix, h⟩⟩
    · rw [h, beforeColon, takeWhile_ne_of_not_mem hcolon]
    · rw [h, beforeColon, takeWhile_ne_append hcolon]
  · rintro rfl
    by_cases h : ':' ∈ path.toList
    · obtain ⟨cs, suffix, hpath, hcs⟩ := List.eq_append_cons_of_mem h
      rw [hpath, beforeColon, takeWhile_ne_append hcs]
      exact ⟨hcs, .inr ⟨suffix, hpath⟩⟩
    · rw [beforeColon, takeWhile_ne_of_not_mem h]
      exact ⟨h, .inl rfl⟩

/-- A list that has slashes has a last one. -/
theorem eq_append_slash (h : '/' ∈ cs) : ∃ a b, cs = a ++ '/' :: b ∧ '/' ∉ b := by
  obtain ⟨b, a, hr, hb⟩ := List.eq_append_cons_of_mem (List.mem_reverse.mpr h)
  refine ⟨a.reverse, b.reverse, ?_, fun h => hb (List.mem_reverse.mp h)⟩
  rw [← List.reverse_reverse cs, hr]
  simp

theorem reverse_append_slash (a b : List Char) :
    (a ++ '/' :: b).reverse = b.reverse ++ '/' :: a.reverse := by
  simp

theorem beforeSlash?_append (hb : '/' ∉ b) : beforeSlash? (a ++ '/' :: b) = some a := by
  have hb' : '/' ∉ b.reverse := fun h => hb (List.mem_reverse.mp h)
  rw [beforeSlash?, reverse_append_slash, dropWhile_ne_append hb']
  exact congrArg some (List.reverse_reverse a)

theorem beforeSlash?_of_not_mem (h : '/' ∉ cs) : beforeSlash? cs = none := by
  rw [beforeSlash?, dropWhile_ne_of_not_mem fun h' => h (List.mem_reverse.mp h')]

theorem afterSlash_append (hb : '/' ∉ b) : afterSlash (a ++ '/' :: b) = b := by
  have hb' : '/' ∉ b.reverse := fun h => hb (List.mem_reverse.mp h)
  rw [afterSlash, reverse_append_slash, takeWhile_ne_append hb', List.reverse_reverse]

theorem afterSlash_of_not_mem (h : '/' ∉ cs) : afterSlash cs = cs := by
  rw [afterSlash, takeWhile_ne_of_not_mem fun h' => h (List.mem_reverse.mp h'),
    List.reverse_reverse]

/-- The last component, behind any others. -/
theorem afterSlash_of_front (h : front = [] ∨ ∃ outer, front = outer ++ ['/']) (hb : '/' ∉ b) :
    afterSlash (front ++ b) = b := by
  rcases h with rfl | ⟨outer, rfl⟩
  · exact afterSlash_of_not_mem hb
  · rw [List.append_assoc]
    exact afterSlash_append hb

theorem exists_front (cs : List Char) : ∃ front b,
    cs = front ++ b ∧ (front = [] ∨ ∃ outer, front = outer ++ ['/']) ∧ '/' ∉ b := by
  by_cases h : '/' ∈ cs
  · obtain ⟨a, b, rfl, hb⟩ := eq_append_slash h
    exact ⟨a ++ ['/'], b, by simp, .inr ⟨a, rfl⟩, hb⟩
  · exact ⟨[], cs, rfl, .inl rfl, h⟩

end Cuts

section Registering

/-! ### What the calls leave in the table -/

/-- The variables that a table has for a layer. -/
def heldBy (w : WeightTable) (layer : String) : Entries Tensor := (w.value? layer).getD []

variable {c c' : Configuration} {call : WeightCall} {calls : List WeightCall}
  {path layer var l v : String} {t : Tensor} {e : ConvertError}

theorem pathNames_iff : PathNames path layer var ↔ ∃ a,
    beforeSlash? (beforeColon path.toList) = some a ∧ layer = String.ofList (afterSlash a) ∧
      var = String.ofList (afterSlash (beforeColon path.toList)) := by
  constructor
  · rintro ⟨front, hfront, hbefore, hlayer, hvar⟩
    rw [← before_iff.mp hbefore]
    refine ⟨front ++ layer.toList, beforeSlash?_append hvar, ?_, ?_⟩
    · rw [afterSlash_of_front hfront hlayer, String.ofList_toList]
    · rw [afterSlash_append hvar, String.ofList_toList]
  · have hbefore : Before path (beforeColon path.toList) := before_iff.mpr rfl
    rintro ⟨a, ha, rfl, rfl⟩
    have hslash : '/' ∈ beforeColon path.toList := by
      by_contra hslash
      rw [beforeSlash?_of_not_mem hslash] at ha
      cases ha
    obtain ⟨a', b, hab, hb⟩ := eq_append_slash hslash
    rw [hab, beforeSlash?_append hb] at ha
    obtain rfl := Option.some.inj ha
    obtain ⟨front, l, rfl, hfront, hl⟩ := exists_front a'
    rw [hab] at hbefore ⊢
    rw [afterSlash_of_front hfront hl, afterSlash_append hb]
    exact ⟨front, hfront, by simpa using hbefore, by simpa using hl, by simpa using hb⟩

theorem bare_iff : Bare path ↔ beforeSlash? (beforeColon path.toList) = none := by
  have hbefore : Before path (beforeColon path.toList) := before_iff.mpr rfl
  constructor
  · rintro ⟨cs, hcs, hslash⟩
    rw [← before_iff.mp hcs, beforeSlash?_of_not_mem hslash]
  · intro h
    refine ⟨_, hbefore, fun hslash => ?_⟩
    obtain ⟨a, b, hab, hb⟩ := eq_append_slash hslash
    rw [hab, beforeSlash?_append hb] at h
    cases h

/-- **A path brings in a weight** for the layer and the variable that it names. -/
theorem addWeightPath_eq_ok_iff : c.addWeightPath path t = .ok c' ↔
    ∃ layer var, PathNames path layer var ∧ c' = c.addWeight layer var t := by
  rw [addWeightPath]
  constructor
  · intro h
    split at h
    · cases h
    · next a ha => exact ⟨_, _, pathNames_iff.mpr ⟨a, ha, rfl, rfl⟩, (Except.ok.inj h).symm⟩
  · rintro ⟨layer, var, hnames, rfl⟩
    obtain ⟨a, ha, rfl, rfl⟩ := pathNames_iff.mp hnames
    simp only [ha]

/-- **A path that is refused is bare**, and the error quotes what stands before its colon. -/
theorem addWeightPath_eq_error_iff : c.addWeightPath path t = .error e ↔ ∃ cs, Before path cs ∧
    '/' ∉ cs ∧ e = .load (.invalidConfig (.missingLayerPrefix (String.ofList cs))) := by
  rw [addWeightPath]
  constructor
  · intro h
    split at h
    · next ha =>
      obtain ⟨cs, hcs, hslash⟩ := bare_iff.mpr ha
      rw [← before_iff.mp hcs] at h
      exact ⟨cs, hcs, hslash, (Except.error.inj h).symm⟩
    · cases h
  · rintro ⟨cs, hcs, hslash, rfl⟩
    rw [← before_iff.mp hcs, beforeSlash?_of_not_mem hslash]

namespace WeightCall

theorem apply_eq_ok_iff : call.apply c = .ok c' ↔
    ∃ layer var t, call.Registers layer var t ∧ c' = c.addWeight layer var t := by
  cases call with
  | named layer var t =>
    constructor
    · intro h
      exact ⟨layer, var, t, .named layer var t, (Except.ok.inj h).symm⟩
    · rintro ⟨_, _, _, ⟨⟩, rfl⟩
      rfl
  | path p t =>
    refine addWeightPath_eq_ok_iff.trans ⟨?_, ?_⟩
    · rintro ⟨layer, var, hnames, rfl⟩
      exact ⟨layer, var, t, .path hnames t, rfl⟩
    · rintro ⟨layer, var, _, hreg, rfl⟩
      cases hreg with | path hnames =>
      exact ⟨layer, var, hnames, rfl⟩

/-- A call registers one weight at most. -/
theorem Registers.unique {t' : Tensor} (h : call.Registers layer var t)
    (h' : call.Registers l v t') : layer = l ∧ var = v ∧ t = t' := by
  cases h with
  | named =>
    cases h'
    exact ⟨rfl, rfl, rfl⟩
  | path names =>
    cases h' with | path names' =>
    obtain ⟨a, ha, rfl, rfl⟩ := pathNames_iff.mp names
    obtain ⟨a', ha', rfl, rfl⟩ := pathNames_iff.mp names'
    obtain rfl := Option.some.inj (ha.symm.trans ha')
    exact ⟨rfl, rfl, rfl⟩

end WeightCall

theorem value?_heldBy_addWeight : (heldBy (c.addWeight layer var t).weights l).value? v =
    if layer = l ∧ var = v then some t else (heldBy c.weights l).value? v := by
  rw [heldBy, addWeight, Entries.value?_set]
  by_cases hl : layer = l
  · subst hl
    simp only [if_true, Option.getD_some, Entries.value?_set, true_and]
    rfl
  · simp only [hl, if_false, false_and]
    rfl

theorem nodup_heldBy_addWeight (h : ∀ l, ((heldBy c.weights l).map Prod.fst).Nodup)
    (l : String) : ((heldBy (c.addWeight layer var t).weights l).map Prod.fst).Nodup := by
  rw [heldBy, addWeight, Entries.value?_set]
  split
  · exact Entries.nodup_keys_set (h layer) var t
  · exact h l

theorem addWeights_concat_eq_ok_iff : c.addWeights (calls ++ [call]) = .ok c' ↔
    ∃ c₁, c.addWeights calls = .ok c₁ ∧ call.apply c₁ = .ok c' := by
  rw [addWeights, List.foldlM_append, bind_eq_ok_iff]
  simp only [List.foldlM_cons, List.foldlM_nil, bind_pure]
  rfl

/-- **The last call decides**, if it is about the variable at all. -/
theorem lastRegistered_concat : LastRegistered (calls ++ [call]) l v t ↔
    call.Registers l v t ∨ (∀ t', ¬ call.Registers l v t') ∧ LastRegistered calls l v t := by
  constructor
  · rintro ⟨before, call', after, hcalls, hcall', hafter⟩
    rcases List.eq_nil_or_concat after with rfl | ⟨after', last, rfl⟩
    · obtain ⟨rfl, rfl⟩ := List.append_inj' hcalls rfl |>.imp_right List.singleton_inj.mp
      exact .inl hcall'
    · rw [List.concat_eq_append, ← List.cons_append, ← List.append_assoc] at hcalls
      obtain ⟨rfl, hlast⟩ := List.append_inj' hcalls rfl
      obtain rfl := List.singleton_inj.mp hlast
      exact .inr ⟨hafter _ (by simp), before, call', after', rfl, hcall',
        fun later hlater => hafter later (by simp [hlater])⟩
  · rintro (h | ⟨hcall, before, call', after, rfl, hcall', hafter⟩)
    · exact ⟨calls, call, [], rfl, h, fun _ h => by cases h⟩
    · refine ⟨before, call', after ++ [call], by simp, hcall', fun later hlater => ?_⟩
      rcases List.mem_append.mp hlater with h | h
      · exact hafter later h
      · rwa [List.mem_singleton.mp h]

/-- **What is in the table after some calls**: under each layer and variable the weight that was
registered last. -/
theorem heldBy_addWeights {config : Json} {shapes : Entries (List Int)}
    (h : addWeights { config, shapes } calls = .ok c) :
    c.config = config ∧ c.shapes = shapes ∧ ∀ l, ((heldBy c.weights l).map Prod.fst).Nodup ∧
      ∀ v t, (heldBy c.weights l).value? v = some t ↔ LastRegistered calls l v t := by
  -- the table grows with the last call
  induction calls using List.reverseRecOn generalizing c with
  | nil =>
    obtain rfl := Except.ok.inj h
    refine ⟨rfl, rfl, fun l => ⟨List.nodup_nil, fun v t => ⟨?_, ?_⟩⟩⟩
    · rintro ⟨⟩
    · rintro ⟨before, call, after, hcalls, -⟩
      simp at hcalls
  | append_singleton calls call ih =>
    obtain ⟨c₁, hc₁, hcall⟩ := addWeights_concat_eq_ok_iff.mp h
    obtain ⟨layer, var, t, hreg, rfl⟩ := WeightCall.apply_eq_ok_iff.mp hcall
    obtain ⟨hconfig, hshapes, hvars⟩ := ih hc₁
    refine ⟨hconfig, hshapes, fun l =>
      ⟨nodup_heldBy_addWeight (fun l => (hvars l).1) l, fun v t' => ?_⟩⟩
    rw [value?_heldBy_addWeight, lastRegistered_concat]
    split
    · next hlv =>
      obtain ⟨rfl, rfl⟩ := hlv
      constructor
      · intro ht
        obtain rfl := Option.some.inj ht
        exact .inl hreg
      · rintro (ht | ⟨hnone, -⟩)
        · rw [(hreg.unique ht).2.2]
        · exact absurd hreg (hnone t)
    · next hlv =>
      have hother : ∀ t', ¬ call.Registers l v t' :=
        fun t' h' => hlv ⟨(hreg.unique h').1, (hreg.unique h').2.1⟩
      rw [(hvars l).2]
      exact ⟨fun h => .inr ⟨hother, h⟩, fun h => (h.resolve_left (hother t')).2⟩

/-- **The calls are refused** with the first bare path among them. -/
theorem addWeights_eq_error (h : c.addWeights calls = .error e) : ∃ path t cs,
    .path path t ∈ calls ∧ Before path cs ∧ '/' ∉ cs ∧
      e = .load (.invalidConfig (.missingLayerPrefix (String.ofList cs))) := by
  induction calls generalizing c with
  | nil => cases h
  | cons call calls ih =>
    rw [addWeights, List.foldlM_cons] at h
    cases hcall : call.apply c with
    | error e' =>
      rw [hcall] at h
      obtain rfl := Except.error.inj h
      cases call with
      | named => cases hcall
      | path p t =>
        obtain ⟨cs, hcs, hslash, he⟩ := addWeightPath_eq_error_iff.mp hcall
        exact ⟨p, t, cs, List.mem_cons_self, hcs, hslash, he⟩
    | ok c₁ =>
      rw [hcall] at h
      obtain ⟨path, t, cs, hmem, hrest⟩ := ih h
      exact ⟨path, t, cs, List.mem_cons_of_mem _ hmem, hrest⟩

theorem addWeights_isOk_iff : (∃ c', c.addWeights calls = .ok c') ↔
    ∀ path t, .path path t ∈ calls → ¬ Bare path := by
  constructor
  · rintro ⟨c', h⟩ path t hmem hbare
    induction calls generalizing c with
    | nil => cases hmem
    | cons call calls ih =>
      rw [addWeights, List.foldlM_cons, bind_eq_ok_iff] at h
      obtain ⟨c₁, hc₁, h⟩ := h
      rcases List.mem_cons.mp hmem with rfl | hmem
      · obtain ⟨cs, hcs, hslash⟩ := hbare
        have herror := addWeightPath_eq_error_iff (c := c) (t := t) |>.mpr ⟨cs, hcs, hslash, rfl⟩
        cases herror.symm.trans hc₁
      · exact ih h hmem
  · intro h
    cases hc : c.addWeights calls with
    | ok c' => exact ⟨c', rfl⟩
    | error e =>
      obtain ⟨path, t, cs, hmem, hcs, hslash, -⟩ := addWeights_eq_error hc
      exact absurd ⟨cs, hcs, hslash⟩ (h path t hmem)

end Registering

section Taking

/-! ### Nodes take their weights out of the table -/

variable {w w' w₁ : WeightTable} {n : Node} {ns ms : List Node} {entry : Json}
  {entries : List Json} {key : String}

/-- **Nodes that take their weights** out of a table, one after the other, and what is left. -/
inductive Takes : WeightTable → List Node → WeightTable → Prop
  | nil (w : WeightTable) : Takes w [] w
  | cons {w w' : WeightTable} {n : Node} {ns : List Node} (own : n.weights = heldBy w n.name)
      (rest : Takes (w.erase n.name) ns w') : Takes w (n :: ns) w'

theorem Takes.append (h : Takes w ns w₁) (h' : Takes w₁ ms w') : Takes w (ns ++ ms) w' := by
  induction h with
  | nil => exact h'
  | cons own _ ih => exact .cons own (ih h')

/-- What has been taken is taken by nobody else: **where names are different, every node has all
that the table had for it.** -/
theorem Takes.weights_eq (h : Takes w ns w') (hd : (ns.map Node.name).Nodup) :
    ∀ n ∈ ns, n.weights = heldBy w n.name := by
  induction h with
  | nil => exact fun n hn => nomatch hn
  | @cons w _ m _ own _ ih =>
    obtain ⟨hm, hd⟩ := List.nodup_cons.mp hd
    refine List.forall_mem_cons.mpr ⟨own, fun n hn => ?_⟩
    have hne : m.name ≠ n.name := fun h => hm (h ▸ List.mem_map_of_mem hn)
    rw [ih hd n hn, heldBy, Entries.value?_erase, if_neg hne, heldBy]

theorem takes_of_readLayers (ih : ∀ e ∈ entries, ∀ w n w', readLayer w e = .ok (n, w') →
      Takes w n.postorder w')
    (h : readLayers w entries = .ok (ns, w')) : Takes w (postorder ns) w' := by
  induction entries generalizing w ns with
  | nil =>
    obtain ⟨rfl, rfl⟩ := Prod.mk.inj (Except.ok.inj ((readLayers_nil w).symm.trans h))
    exact .nil w
  | cons e entries ihs =>
    obtain ⟨he, hentries⟩ := List.forall_mem_cons.mp ih
    obtain ⟨m, w₁, ms, hm, hms, rfl⟩ := readLayers_cons_eq_ok_iff.mp h
    rw [postorder_cons]
    exact (he _ _ _ hm).append (ihs hentries hms)

/-- **Reading a layer serves everything inside it, and then the layer itself.** -/
theorem takes_of_readLayer (h : readLayer w entry = .ok (n, w')) : Takes w n.postorder w' := by
  induction entry using entry_induction generalizing w n w' with
  | h entry ih =>
  obtain ⟨m, inner, children, w₁, -, hinner, hchildren, rfl, rfl⟩ := readLayer_eq_ok_iff.mp h
  have hin := takes_of_readLayers (fun e he w c w' hc => ih m inner hinner e he hc) hchildren
  rw [Node.postorder_eq]
  exact hin.append (.cons rfl (.nil _))

end Taking

/-- **Weights reach their layer and no other.** The calls are accepted unless there is a bare path
among them. What is loaded from them, if all layers have different names, gives each node at any
depth exactly the variables that were registered under its name, and of those what was registered
last. -/
theorem load_weights (config : Json) (shapes : Entries (List Int)) (calls : List WeightCall) :
    ((∃ c, addWeights { config, shapes } calls = .ok c) ↔
      ∀ path t, .path path t ∈ calls → ¬ Bare path) ∧
    (∀ e, addWeights { config, shapes } calls = .error e → ∃ path t cs, .path path t ∈ calls ∧
      Before path cs ∧ '/' ∉ cs ∧
        e = .load (.invalidConfig (.missingLayerPrefix (String.ofList cs)))) ∧
    ∀ c, addWeights { config, shapes } calls = .ok c → c.config = config ∧ c.shapes = shapes ∧
      ∀ net, c.load = .ok net → ((postorder net.nodes).map Node.name).Nodup →
        ∀ n ∈ postorder net.nodes, (n.weights.map Prod.fst).Nodup ∧
          ∀ v t, n.weights.value? v = some t ↔ LastRegistered calls n.name v t := by
  refine ⟨addWeights_isOk_iff, fun e => addWeights_eq_error, fun c hc => ?_⟩
  obtain ⟨hconfig, hshapes, hvars⟩ := heldBy_addWeights hc
  refine ⟨hconfig, hshapes, fun net hnet hd n hn => ?_⟩
  obtain ⟨model, layers, nodes, w, -, -, hnodes, rfl⟩ := load_eq_ok_iff.mp hnet
  have htakes : Takes c.weights (postorder nodes) w :=
    takes_of_readLayers (fun e _ w n w' h => takes_of_readLayer h) hnodes
  rw [htakes.weights_eq hd n hn]
  exact hvars n.name

/-- Weights for the two layers of `LayerGraph.Configuration.blockEntry`, one of them brought in a
second time under a shorter path, and one for a layer that is not there. -/
def blockCalls : List WeightCall := [
  .path "outer/block/relu/alpha:0" ⟨[1], []⟩,
  .named "block" "scale" ⟨[2], []⟩,
  .path "relu/alpha" ⟨[3], []⟩,
  .named "other" "alpha" ⟨[4], []⟩]

def blockWeights : WeightTable := [
  ("relu", [("alpha", ⟨[3], []⟩)]),
  ("block", [("scale", ⟨[2], []⟩)]),
  ("other", [("alpha", ⟨[4], []⟩)])]

/-- The rectifier as it is loaded from there, inside its container. -/
def weighedRectifier : Node :=
  { name := "relu", opType := "ReLU", inbound := some ["in", "in"],
    weights := [("alpha", ⟨[3], []⟩)] }

def weighedBlock : Node :=
  { name := "block", opType := "Model", children := [weighedRectifier],
    weights := [("scale", ⟨[2], []⟩)] }

/-- The second weight of the rectifier counts, and a path without a layer is refused. -/
theorem load_weights_blockEntry :
    (∃ c net, addWeights { config := .arr [blockEntry] } blockCalls = .ok c ∧ c.load = .ok net ∧
      weighedRectifier ∈ postorder net.nodes ∧ LastRegistered blockCalls "relu" "alpha" ⟨[3], []⟩ ∧
      ¬ LastRegistered blockCalls "relu" "alpha" ⟨[1], []⟩) ∧
    ∀ e, addWeights { config := .arr [blockEntry] } [.path "alpha:0" ⟨[], []⟩] = .error e →
      ∃ cs, Before "alpha:0" cs ∧ '/' ∉ cs ∧
        e = .load (.invalidConfig (.missingLayerPrefix (String.ofList cs))) := by
  have hcalls : addWeights { config := .arr [blockEntry] } blockCalls =
      .ok { config := .arr [blockEntry], weights := blockWeights } := by cbv
  have hload : load { config := .arr [blockEntry], weights := blockWeights } =
      .ok ⟨[weighedBlock], []⟩ := by cbv
  have hmem : weighedRectifier ∈ postorder [weighedBlock] := List.mem_cons_self
  have hd : ((postorder [weighedBlock]).map Node.name).Nodup := by decide
  obtain ⟨-, -, hloaded⟩ := load_weights (.arr [blockEntry]) [] blockCalls
  obtain ⟨-, hvars⟩ := (hloaded _ hcalls).2.2 _ hload hd weighedRectifier hmem
  refine ⟨⟨_, _, hcalls, hload, hmem, (hvars _ _).mp rfl, fun h => ?_⟩, fun e he => ?_⟩
  · cases (hvars _ _).mpr h
  · obtain ⟨path, t, cs, hmem, hcs, hslash, rfl⟩ :=
      (load_weights (.arr [blockEntry]) [] [.path "alpha:0" ⟨[], []⟩]).2.1 e he
    cases List.mem_singleton.mp hmem
    exact ⟨cs, hcs, hslash, rfl⟩

end Configuration

end LayerGraph
