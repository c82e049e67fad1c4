import LayerGraph.Proofs.FloatingOrder

/-!
# The common factor of a resize

A resize is an upsampling if its scales agree on one factor. Some of the scales are usually 1,
since batches and channels are not resized; these do not count, and if all are 1 the factor is 1.

The scan for the factor starts with 1, which stands for "none found so far". There is no need to
tell this apart from a factor of 1 that was found: a list of scales has the same common factors
whether a 1 is in it or not (`LayerGraph.CommonFactor.of_mem_iff`). So the start value may count as
one more scale, and what the scan finds is the common factor of the value that it has now and the
scales that are left (`LayerGraph.extendFactor_eq_some_iff`).

Scales that have a common factor are just the uniform ones (`LayerGraph.exists_commonFactor_iff`),
so the scan fails on no others, and two lists of scales, one behind the other, have a common factor
if each has one and these agree, as far as they are factors (`LayerGraph.CommonFactor.append_iff`).
-/

namespace LayerGraph

/-- **A common factor of scales**: no scale is below 1, and those above 1 are the factor. The factor
is 1 if there are none. -/
structure CommonFactor (scales : List ℚ) (factor : ℚ) : Prop where
  one_le : ∀ q ∈ scales, 1 ≤ q
  eq_factor : ∀ q ∈ scales, 1 < q → q = factor
  eq_one : (∀ q ∈ scales, q = 1) → factor = 1

namespace CommonFactor

variable {qs rs : List ℚ} {p q : ℚ}

/-- **Only the scales other than 1 matter**, and not in which order they come or how often. -/
theorem of_mem_iff (h : ∀ r ≠ 1, r ∈ qs ↔ r ∈ rs) (hq : CommonFactor qs q) : CommonFactor rs q where
  one_le := by
    intro r hr
    by_cases h1 : r = 1
    · exact h1.ge
    · exact hq.one_le r ((h r h1).mpr hr)
  eq_factor := fun r hr hlt => hq.eq_factor r ((h r hlt.ne').mpr hr) hlt
  eq_one := by
    intro hall
    refine hq.eq_one fun r hr => ?_
    by_contra h1
    exact h1 (hall r ((h r h1).mp hr))

theorem congr (h : ∀ r ≠ 1, r ∈ qs ↔ r ∈ rs) : CommonFactor qs q ↔ CommonFactor rs q :=
  ⟨of_mem_iff h, of_mem_iff fun r hr => (h r hr).symm⟩

/-- A number that is not below 1 is its own factor, and the only one. -/
theorem singleton_iff (hp : 1 ≤ p) : CommonFactor [p] q ↔ p = q := by
  constructor
  · intro h
    rcases hp.eq_or_lt with rfl | hlt
    · exact (h.eq_one fun r hr => List.mem_singleton.mp hr).symm
    · exact h.eq_factor p List.mem_cons_self hlt
  · rintro rfl
    exact ⟨by simpa using hp, by simp, by simp⟩

/-- Scales that are not below 1 are all 1, or one of them is a factor. -/
theorem forall_eq_one_or (h : ∀ q ∈ qs, 1 ≤ q) : (∀ q ∈ qs, q = 1) ∨ ∃ q ∈ qs, 1 < q := by
  by_cases hall : ∃ q ∈ qs, 1 < q
  · exact .inr hall
  · exact .inl fun q hq => le_antisymm (not_lt.mp fun hlt => hall ⟨q, hq, hlt⟩) (h q hq)

theorem eq_one_or_mem (h : CommonFactor qs q) : q = 1 ∨ (q ∈ qs ∧ 1 < q) := by
  rcases forall_eq_one_or h.one_le with hall | ⟨p, hp, hlt⟩
  · exact .inl (h.eq_one hall)
  · obtain rfl := h.eq_factor p hp hlt
    exact .inr ⟨hp, hlt⟩

theorem one_le_factor (h : CommonFactor qs q) : 1 ≤ q :=
  h.eq_one_or_mem.elim (fun hone => hone.ge) fun hmem => hmem.2.le

theorem forall_eq_one (h : CommonFactor qs 1) : ∀ q ∈ qs, q = 1 := fun q hq =>
  le_antisymm (not_lt.mp fun hlt => hlt.ne' (h.eq_factor q hq hlt)) (h.one_le q hq)

end CommonFactor

/-- **Uniform scales**: no scale is below 1, and those above 1 are all equal. -/
structure Uniform (scales : List ℚ) : Prop where
  one_le : ∀ q ∈ scales, 1 ≤ q
  agree : ∀ p ∈ scales, ∀ q ∈ scales, 1 < p → 1 < q → p = q

section Uniform

variable {qs rs : List ℚ} {q : ℚ}

/-- Some of the scales are uniform if all are. -/
theorem Uniform.of_subset (h : Uniform rs) (hsub : qs ⊆ rs) : Uniform qs where
  one_le q hq := h.one_le q (hsub hq)
  agree p hp q hq := h.agree p (hsub hp) q (hsub hq)

/-- **There is a common factor just for uniform scales.** -/
theorem exists_commonFactor_iff : (∃ q, CommonFactor qs q) ↔ Uniform qs := by
  constructor
  · rintro ⟨q, h⟩
    refine ⟨h.one_le, fun p hp r hr hp1 hr1 => ?_⟩
    exact (h.eq_factor p hp hp1).trans (h.eq_factor r hr hr1).symm
  · intro h
    rcases CommonFactor.forall_eq_one_or h.one_le with hall | ⟨p, hp, hlt⟩
    · exact ⟨1, h.one_le, fun r hr hr1 => absurd (hall r hr) hr1.ne', fun _ => rfl⟩
    · exact ⟨p, h.one_le, fun r hr hr1 => h.agree r hr p hp hr1 hlt, fun hone => hone p hp⟩

/-- **Two lists of scales**, one behind the other, have a common factor if each has one, and these
are the same as far as they are not 1. -/
theorem CommonFactor.append_iff : CommonFactor (qs ++ rs) q ↔
    ∃ p r, CommonFactor qs p ∧ CommonFactor rs r ∧
      ((p = q ∧ r = q) ∨ (p = 1 ∧ r = q) ∨ (p = q ∧ r = 1)) := by
  constructor
  · intro h
    have huni : Uniform (qs ++ rs) := exists_commonFactor_iff.mp ⟨q, h⟩
    obtain ⟨p, hp⟩ := exists_commonFactor_iff.mpr (huni.of_subset (List.subset_append_left qs rs))
    obtain ⟨r, hr⟩ := exists_commonFactor_iff.mpr (huni.of_subset (List.subset_append_right qs rs))
    refine ⟨p, r, hp, hr, ?_⟩
    have hpq : p = 1 ∨ p = q := hp.eq_one_or_mem.imp_right fun hmem =>
      h.eq_factor p (List.mem_append_left _ hmem.1) hmem.2
    have hrq : r = 1 ∨ r = q := hr.eq_one_or_mem.imp_right fun hmem =>
      h.eq_factor r (List.mem_append_right _ hmem.1) hmem.2
    rcases hpq with rfl | rfl
    · rcases hrq with rfl | rfl
      · -- no list has a scale above 1
        have hone : q = 1 :=
          h.eq_one (List.forall_mem_append.mpr ⟨hp.forall_eq_one, hr.forall_eq_one⟩)
        exact .inl ⟨hone.symm, hone.symm⟩
      · exact .inr (.inl ⟨rfl, rfl⟩)
    · exact hrq.elim (fun hone => .inr (.inr ⟨rfl, hone⟩)) fun hr => .inl ⟨rfl, hr⟩
  · rintro ⟨p, r, hp, hr, hq⟩
    have hpq : p = 1 ∨ p = q := hq.elim (fun h => .inr h.1) fun h => h.imp And.left And.left
    have hrq : r = 1 ∨ r = q := hq.elim (fun h => .inr h.2) fun h => h.symm.imp And.right And.right
    refine ⟨List.forall_mem_append.mpr ⟨hp.one_le, hr.one_le⟩,
      List.forall_mem_append.mpr ⟨fun s hs hlt => ?_, fun s hs hlt => ?_⟩, fun hall => ?_⟩
    · have hsp := hp.eq_factor s hs hlt
      exact hsp.trans (hpq.resolve_left fun hone => hlt.ne' (hsp.trans hone))
    · have hsr := hr.eq_factor s hs hlt
      exact hsr.trans (hrq.resolve_left fun hone => hlt.ne' (hsr.trans hone))
    · obtain ⟨hqs, hrs⟩ := List.forall_mem_append.mp hall
      rcases hq with ⟨rfl, -⟩ | ⟨-, rfl⟩ | ⟨rfl, -⟩
      · exact hp.eq_one hqs
      · exact hr.eq_one hrs
      · exact hp.eq_one hqs

end Uniform

/-- Scales have a common factor, as numbers. -/
def HasFactor (scales : List Single) (factor : Single) : Prop :=
  CommonFactor (scales.map Floating.toRat) factor.toRat

/-! ### The scan -/

variable {c s f : Single} {ss : List Single}

/-- The scan goes on if the next scale is not below 1 and, once there is a factor, is 1 or the
factor. -/
theorem extendFactor_cons (hc : c.isFinite = true) (hs : s.isFinite = true) :
    extendFactor c (s :: ss) =
      if s.toRat < 1 ∨ (c.toRat ≠ 1 ∧ 1 < s.toRat ∧ s.toRat ≠ c.toRat) then none
      else extendFactor (if 1 < s.toRat then s else c) ss := by
  have hone : (Floating.one : Single).isFinite = true := by decide
  have hbelow : s.less .one = decide (s.toRat < 1) := by
    rw [Bool.eq_iff_iff, Floating.less_iff hs hone, Floating.toRat_one, decide_eq_true_eq]
  have habove : Floating.one.less s = decide (1 < s.toRat) := by
    rw [Bool.eq_iff_iff, Floating.less_iff hone hs, Floating.toRat_one, decide_eq_true_eq]
  have hfound : c.same .one = decide (c.toRat = 1) := by
    rw [Bool.eq_iff_iff, Floating.same_iff hc hone, Floating.toRat_one, decide_eq_true_eq]
  have hagree : s.same c = decide (s.toRat = c.toRat) := by
    rw [Bool.eq_iff_iff, Floating.same_iff hs hc, decide_eq_true_eq]
  rw [extendFactor, hbelow, habove, hfound, hagree]
  simp only [decide_eq_true_eq, Bool.or_eq_true, Bool.and_eq_true, Bool.not_eq_true',
    decide_eq_false_iff_not, and_assoc, ne_eq]

/-- **What the scan finds** is the common factor of what it has and what is left. -/
theorem extendFactor_eq_some_iff (hc : c.isFinite = true) (hle : 1 ≤ c.toRat)
    (hss : ∀ s ∈ ss, s.isFinite = true) :
    extendFactor c ss = some f ↔ CommonFactor (c.toRat :: ss.map Floating.toRat) f.toRat := by
  induction ss generalizing c with
  | nil =>
    rw [extendFactor, List.map_nil, CommonFactor.singleton_iff hle, Option.some.injEq]
    exact ⟨fun h => h ▸ rfl, Floating.eq_of_toRat_eq (lt_of_lt_of_le one_pos hle)⟩
  | cons s ss ih =>
    obtain ⟨hs, hss⟩ := List.forall_mem_cons.mp hss
    rw [extendFactor_cons hc hs]
    split
    · next hstop =>
      -- the next scale rules out every factor
      refine iff_of_false nofun fun h => ?_
      have hsmem : s.toRat ∈ c.toRat :: (s :: ss).map Floating.toRat := by simp
      rcases hstop with hbelow | ⟨hfound, habove, hne⟩
      · exact absurd (h.one_le _ hsmem) (not_le.mpr hbelow)
      · have hcf := h.eq_factor _ List.mem_cons_self (lt_of_le_of_ne hle (Ne.symm hfound))
        exact hne ((h.eq_factor _ hsmem habove).trans hcf.symm)
    · next hgo =>
      obtain ⟨hbelow, hagree⟩ := not_or.mp hgo
      have hsle : 1 ≤ s.toRat := not_lt.mp hbelow
      by_cases habove : 1 < s.toRat
      · have hsame : c.toRat ≠ 1 → s.toRat = c.toRat := fun hfound =>
          not_not.mp fun hne => hagree ⟨hfound, habove, hne⟩
        rw [if_pos habove, ih hs hsle hss]
        refine CommonFactor.congr fun r hr => ?_
        rw [List.map_cons, List.mem_cons, List.mem_cons, List.mem_cons]
        refine ⟨.inr, fun h => h.elim (fun hrc => .inl ?_) id⟩
        exact hrc.trans (hsame (hrc ▸ hr)).symm
      · have hs1 : s.toRat = 1 := le_antisymm (not_lt.mp habove) hsle
        rw [if_neg habove, ih hc hle hss]
        refine CommonFactor.congr fun r hr => ?_
        rw [List.map_cons, List.mem_cons, List.mem_cons, List.mem_cons, hs1, or_iff_right hr]

/-- **The factor of a list of scales** is their common factor as numbers. -/
theorem upsampleFactor_eq_some_iff (hss : ∀ s ∈ ss, s.isFinite = true) :
    upsampleFactor ss = some f ↔ HasFactor ss f := by
  rw [HasFactor, upsampleFactor, extendFactor_eq_some_iff (by decide) Floating.toRat_one.ge hss,
    Floating.toRat_one]
  exact CommonFactor.congr fun r hr => List.mem_cons.trans (or_iff_right hr)

/-! ### Which lists have a factor -/

variable {tt : List Single}

/-- A common factor as a number is one as a word: it is 1, or it is one of the scales. -/
theorem exists_upsampleFactor {q : ℚ} (hss : ∀ s ∈ ss, s.isFinite = true)
    (hq : CommonFactor (ss.map Floating.toRat) q) :
    ∃ f, upsampleFactor ss = some f ∧ f.toRat = q := by
  obtain ⟨f, rfl⟩ : ∃ f : Single, f.toRat = q := by
    rcases hq.eq_one_or_mem with rfl | ⟨hmem, -⟩
    · exact ⟨.one, Floating.toRat_one⟩
    · exact (List.mem_map.mp hmem).imp fun _ hs => hs.2
  exact ⟨f, (upsampleFactor_eq_some_iff hss).mpr hq, rfl⟩

theorem isSome_upsampleFactor_iff (hss : ∀ s ∈ ss, s.isFinite = true) :
    (upsampleFactor ss).isSome ↔ Uniform (ss.map Floating.toRat) := by
  rw [Option.isSome_iff_exists, ← exists_commonFactor_iff]
  constructor
  · rintro ⟨f, hf⟩
    exact ⟨f.toRat, (upsampleFactor_eq_some_iff hss).mp hf⟩
  · rintro ⟨q, hq⟩
    exact (exists_upsampleFactor hss hq).imp fun _ hf => hf.1

/-- A factor is told by its number. -/
theorem HasFactor.toRat_eq_iff {f' : Single} (h : HasFactor ss f) : f.toRat = f'.toRat ↔ f = f' :=
  ⟨Floating.eq_of_toRat_eq (lt_of_lt_of_le one_pos h.one_le_factor), fun he => he ▸ rfl⟩

theorem HasFactor.eq_one_iff (h : HasFactor ss f) : f.toRat = 1 ↔ f = .one := by
  rw [← h.toRat_eq_iff, Floating.toRat_one]

theorem upsampleFactor_append_eq_some_iff (hss : ∀ s ∈ ss, s.isFinite = true)
    (htt : ∀ t ∈ tt, t.isFinite = true) : upsampleFactor (ss ++ tt) = some f ↔
      ∃ f₁ f₂, upsampleFactor ss = some f₁ ∧ upsampleFactor tt = some f₂ ∧
        ((f₁ = f ∧ f₂ = f) ∨ (f₁ = .one ∧ f₂ = f) ∨ (f₁ = f ∧ f₂ = .one)) := by
  have hfactor : ∀ {f₁ f₂}, HasFactor ss f₁ → HasFactor tt f₂ →
      (((f₁.toRat = f.toRat ∧ f₂.toRat = f.toRat) ∨ (f₁.toRat = 1 ∧ f₂.toRat = f.toRat) ∨
          (f₁.toRat = f.toRat ∧ f₂.toRat = 1)) ↔
        ((f₁ = f ∧ f₂ = f) ∨ (f₁ = .one ∧ f₂ = f) ∨ (f₁ = f ∧ f₂ = .one))) := fun h₁ h₂ => by
    rw [h₁.toRat_eq_iff, h₂.toRat_eq_iff, h₁.eq_one_iff, h₂.eq_one_iff]
  rw [upsampleFactor_eq_some_iff (List.forall_mem_append.mpr ⟨hss, htt⟩), HasFactor,
    List.map_append, CommonFactor.append_iff]
  constructor
  · rintro ⟨p, r, hp, hr, hq⟩
    obtain ⟨f₁, h₁, rfl⟩ := exists_upsampleFactor hss hp
    obtain ⟨f₂, h₂, rfl⟩ := exists_upsampleFactor htt hr
    exact ⟨f₁, f₂, h₁, h₂, (hfactor hp hr).mp hq⟩
  · rintro ⟨f₁, f₂, h₁, h₂, hq⟩
    have hp := (upsampleFactor_eq_some_iff hss).mp h₁
    have hr := (upsampleFactor_eq_some_iff htt).mp h₂
    exact ⟨f₁.toRat, f₂.toRat, hp, hr, (hfactor hp hr).mpr hq⟩

/-- **The factor of finite scales.** There is one exactly if the scales are uniform, and it is the
common one; so it is the same for all lists of the same numbers, in whatever order and however often
they come. Two lists, one behind the other, have a factor exactly if each has one and the two are
equal or one of them is 1. -/
theorem upsampleFactor_exact (ss tt : List Single) (hss : ∀ s ∈ ss, s.isFinite = true)
    (htt : ∀ t ∈ tt, t.isFinite = true) :
    (∀ f, upsampleFactor ss = some f ↔ HasFactor ss f) ∧
    ((upsampleFactor ss).isSome ↔ Uniform (ss.map Floating.toRat)) ∧
    ((∀ q, q ∈ ss.map Floating.toRat ↔ q ∈ tt.map Floating.toRat) →
      upsampleFactor ss = upsampleFactor tt) ∧
    ((upsampleFactor (ss ++ tt)).isSome ↔
      ∃ f₁ f₂, upsampleFactor ss = some f₁ ∧ upsampleFactor tt = some f₂ ∧
        (f₁ = f₂ ∨ f₁ = .one ∨ f₂ = .one)) := by
  refine ⟨fun f => upsampleFactor_eq_some_iff hss, isSome_upsampleFactor_iff hss,
    fun hsame => ?_, ?_⟩
  · refine Option.ext fun f => ?_
    rw [upsampleFactor_eq_some_iff hss, upsampleFactor_eq_some_iff htt]
    exact CommonFactor.congr fun q _ => hsame q
  · rw [Option.isSome_iff_exists]
    simp only [upsampleFactor_append_eq_some_iff hss htt]
    constructor
    · rintro ⟨f, f₁, f₂, h₁, h₂, ⟨rfl, rfl⟩ | ⟨hone, -⟩ | ⟨-, hone⟩⟩
      · exact ⟨_, _, h₁, h₂, .inl rfl⟩
      · exact ⟨f₁, f₂, h₁, h₂, .inr (.inl hone)⟩
      · exact ⟨f₁, f₂, h₁, h₂, .inr (.inr hone)⟩
    · rintro ⟨f₁, f₂, h₁, h₂, heq | hone | hone⟩
      · exact ⟨f₂, f₁, f₂, h₁, h₂, .inl ⟨heq, rfl⟩⟩
      · exact ⟨f₂, f₁, f₂, h₁, h₂, .inr (.inl ⟨hone, rfl⟩)⟩
      · exact ⟨f₁, f₁, f₂, h₁, h₂, .inr (.inr ⟨rfl, hone⟩)⟩

/-- Twos between ones have the factor 2, and so has a list that is just a two and a one. With more
ones behind them there still is a factor, with a three behind them there is none. -/
theorem upsampleFactor_spacedTwos :
    HasFactor [.one, .ofInt 2, .one, .ofInt 2] (.ofInt 2) ∧
      (upsampleFactor ([.one, .ofInt 2, .one, .ofInt 2] ++ [.one, .one])).isSome ∧
      upsampleFactor [.one, .ofInt 2, .one, .ofInt 2] = upsampleFactor [.ofInt 2, .one] ∧
      upsampleFactor ([.one, .ofInt 2, .one, .ofInt 2] ++ [.ofInt 3]) = none := by
  have hfin : ∀ s ∈ [Floating.one, .ofInt 2, .one, .ofInt 2], s.isFinite = true := by decide
  have htwo : upsampleFactor [.one, .ofInt 2, .one, .ofInt 2] = some (.ofInt 2) := by decide
  obtain ⟨hfactor, -, -, hones⟩ :=
    upsampleFactor_exact [.one, .ofInt 2, .one, .ofInt 2] [.one, .one] hfin (by decide)
  obtain ⟨-, -, hsame, -⟩ :=
    upsampleFactor_exact [.one, .ofInt 2, .one, .ofInt 2] [.ofInt 2, .one] hfin (by decide)
  obtain ⟨-, -, -, hthree⟩ :=
    upsampleFactor_exact [.one, .ofInt 2, .one, .ofInt 2] [.ofInt 3] hfin (by decide)
  refine ⟨(hfactor _).mp htwo, hones.mpr ⟨_, .one, htwo, by decide, .inr (.inr rfl)⟩,
    hsame fun q => ⟨fun hq => ?_, fun hq => ?_⟩, ?_⟩
  · exact List.map_subset Floating.toRat (by decide) hq
  · exact List.map_subset Floating.toRat (by decide) hq
  · rw [← Option.not_isSome_iff_eq_none, hthree]
    rintro ⟨f₁, f₂, h₁, h₂, h⟩
    obtain rfl := Option.some.inj (htwo.symm.trans h₁)
    have hf₂ : f₂ = .ofInt 3 := Option.some.inj (h₂.symm.trans (by decide))
    rw [hf₂] at h
    exact absurd h (by decide)

end LayerGraph
