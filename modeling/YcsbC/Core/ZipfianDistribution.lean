import YcsbC.Core.ZipfianGenerator

/-!
# What the zipfian generator returns

A generator for `n` items returns rank 0 or 1 as long as the draw, times the partial zeta sum of `n`
terms, is below the sum of one or of two terms. There the closed formula takes over: it starts at
rank 2, grows with the draw and never reaches `n`. The formula adds `base_` to its rank; the two
special cases do not, so they leave the range when it starts above them.

## Main results

* `Tuned.value_first`, `value_second`, `value_formula`: the three branches.
* `le_formulaRank`, `formulaRank_lt`, `formulaRank_mono`: the closed formula.
* `Tuned.exists_value_eq`: every rank is returned for some draw.
* `zipfian_in_range_iff`: when a value lies in the range.
* `zipfian_inverse_distribution`: the values as a function of the draw.
-/

namespace YcsbC

noncomputable section

namespace ZipfianGenerator

variable {base min max : UInt64} {θ u u' : ℝ} {n : ℕ} {g : ZipfianGenerator}

/-! ### The closed formula -/

theorem three_le (hn : 2 ≤ n) (hu : u < 1) (hstop : zetaSum θ 2 ≤ u * zetaSum θ n) : 3 ≤ n := by
  have hlt : zetaSum θ 2 < zetaSum θ n :=
    hstop.trans_lt (mul_lt_of_lt_one_left (zetaSum_pos (by omega)) hu)
  exact (zetaSum_strictMono θ).lt_iff_lt.1 hlt

theorem stop_le (hn : 2 ≤ n) (hu : u < 1) (hstop : zetaSum θ 2 ≤ u * zetaSum θ n) :
    zetaSum θ 2 / zetaSum θ n ≤ u ∧ zetaSum θ 2 / zetaSum θ n < 1 := by
  have hle := (div_le_iff₀ (zetaSum_pos (by omega))).2 hstop
  exact ⟨hle, hle.trans_lt hu⟩

theorem two_div_lt_one (hn : 3 ≤ n) : (2 : ℝ) / n < 1 := by
  have hn' : (3 : ℝ) ≤ n := by exact_mod_cast hn
  rw [div_lt_one (by linarith)]
  linarith

section Formula

variable (hθ : 0 < θ ∧ θ < 1) (hn : 2 ≤ n) (hu : u < 1) (hstop : zetaSum θ 2 ≤ u * zetaSum θ n)

include hθ hn hu hstop

theorem le_formulaRank : 2 ≤ formulaRank θ n u := by
  have h3 := three_le hn hu hstop
  obtain ⟨hle, hlt⟩ := stop_le hn hu hstop
  have hpos : (0 : ℝ) < n := by exact_mod_cast (by omega : 0 < n)
  have hcurve := le_powerCurve (by positivity) (two_div_lt_one h3).le (sub_pos.2 hθ.2) hlt hle
  refine Nat.le_floor ?_
  calc ((2 : ℕ) : ℝ) = n * (2 / n) := by
        rw [mul_div_cancel₀ _ hpos.ne', Nat.cast_ofNat]
    _ ≤ _ := mul_le_mul_of_nonneg_left hcurve hpos.le

theorem formulaRank_lt : formulaRank θ n u < n := by
  have h3 := three_le hn hu hstop
  obtain ⟨hle, hlt⟩ := stop_le hn hu hstop
  have hpos : (0 : ℝ) < n := by exact_mod_cast (by omega : 0 < n)
  have hcurve := powerCurve_lt_one (by positivity) (two_div_lt_one h3) (sub_pos.2 hθ.2) hlt hle hu
  exact (Nat.floor_lt' (by omega)).2 (mul_lt_of_lt_one_right hpos hcurve)

theorem formulaRank_mono (huu' : u ≤ u') : formulaRank θ n u ≤ formulaRank θ n u' := by
  have h3 := three_le hn hu hstop
  obtain ⟨hle, hlt⟩ := stop_le hn hu hstop
  refine Nat.floor_le_floor (mul_le_mul_of_nonneg_left ?_ (Nat.cast_nonneg n))
  exact powerCurve_mono (by positivity) (two_div_lt_one h3).le (sub_pos.2 hθ.2) hlt hle huu'

end Formula

/-! ### The three branches -/

theorem Tuned.value_first (h : g.Tuned base θ n n) (hu : u * zetaSum θ n < 1) :
    g.value g.numItems u = 0 := by
  rw [value, h.zetaN, if_pos hu]

theorem Tuned.value_second (h : g.Tuned base θ n n) (hu : 1 ≤ u * zetaSum θ n)
    (hu' : u * zetaSum θ n < zetaSum θ 2) : g.value g.numItems u = 1 := by
  rw [value, h.zetaN, h.theta, ← zetaSum_two, if_neg hu.not_gt, if_pos hu']

theorem one_lt_zetaSum_two (θ : ℝ) : 1 < zetaSum θ 2 := by
  rw [zetaSum_two]
  exact lt_add_of_pos_right _ (Real.rpow_pos_of_pos (by norm_num) θ)

/-- The third branch adds `base_` to the rank of the closed formula. -/
theorem Tuned.value_formula (h : g.Tuned base θ n n) (hθ : 0 < θ ∧ θ < 1) (hn : 2 ≤ n)
    (hrange : base.toNat + n ≤ 2 ^ 64) (hu : u < 1) (hstop : zetaSum θ 2 ≤ u * zetaSum θ n) :
    (g.value g.numItems u).toNat = base.toNat + formulaRank θ n u := by
  have hle := le_formulaRank hθ hn hu hstop
  have hlt := formulaRank_lt hθ hn hu hstop
  have hfloor : ⌊(base.toNat : ℝ) + n * powerCurve (powerSlope (2 / n) (1 - θ)
      (zetaSum θ 2 / zetaSum θ n)) (1 - θ) u⌋₊ = base.toNat + formulaRank θ n u := by
    rw [add_comm, Nat.floor_add_natCast (Nat.pos_of_floor_pos (zero_lt_two.trans_le hle)).le,
      add_comm, formulaRank]
  rw [value, h.zetaN, h.theta, ← zetaSum_two, if_neg ((one_lt_zetaSum_two θ).le.trans hstop).not_gt,
    if_neg hstop.not_gt, closedForm, h.base, h.numItems, h.eta, h.alpha, ← powerCurve, hfloor,
    UInt64.toNat_ofNat', Nat.mod_eq_of_lt (by omega)]

/-- The branches, with what they return. -/
theorem Tuned.value_cases (h : g.Tuned base θ n n) (hθ : 0 < θ ∧ θ < 1) (hn : 2 ≤ n)
    (hrange : base.toNat + n ≤ 2 ^ 64) (hu : u < 1) :
    (u * zetaSum θ n < 1 ∧ g.value g.numItems u = 0) ∨
      (1 ≤ u * zetaSum θ n ∧ u * zetaSum θ n < zetaSum θ 2 ∧ g.value g.numItems u = 1) ∨
      (zetaSum θ 2 ≤ u * zetaSum θ n ∧
        (g.value g.numItems u).toNat = base.toNat + formulaRank θ n u ∧
        2 ≤ formulaRank θ n u ∧ formulaRank θ n u < n) := by
  obtain hfirst | hfirst := lt_or_ge (u * zetaSum θ n) 1
  · exact .inl ⟨hfirst, h.value_first hfirst⟩
  obtain hstop | hstop := lt_or_ge (u * zetaSum θ n) (zetaSum θ 2)
  · exact .inr (.inl ⟨hfirst, hstop, h.value_second hfirst hstop⟩)
  · exact .inr (.inr ⟨hstop, h.value_formula hθ hn hrange hu hstop,
      le_formulaRank hθ hn hu hstop, formulaRank_lt hθ hn hu hstop⟩)

/-! ### Items from zero on -/

section FromZero

variable (h : g.Tuned 0 θ n n) (hθ : 0 < θ ∧ θ < 1) (hn : 2 ≤ n) (hrange : n ≤ 2 ^ 64)

include h hθ hn hrange

theorem Tuned.value_cases_zero (hu : u < 1) :
    (u * zetaSum θ n < 1 ∧ (g.value g.numItems u).toNat = 0) ∨
      (1 ≤ u * zetaSum θ n ∧ u * zetaSum θ n < zetaSum θ 2 ∧
        (g.value g.numItems u).toNat = 1) ∨
      (zetaSum θ 2 ≤ u * zetaSum θ n ∧ (g.value g.numItems u).toNat = formulaRank θ n u ∧
        2 ≤ formulaRank θ n u ∧ formulaRank θ n u < n) := by
  have hzero : (0 : UInt64).toNat = 0 := rfl
  have hone : (1 : UInt64).toNat = 1 := rfl
  have hcases := h.value_cases hθ hn (by rwa [hzero, Nat.zero_add]) hu
  simpa only [← UInt64.toNat_inj, hzero, hone, Nat.zero_add] using hcases

theorem Tuned.value_mono (huu' : u ≤ u') (hu' : u' < 1) :
    (g.value g.numItems u).toNat ≤ (g.value g.numItems u').toNat := by
  have hu := huu'.trans_lt hu'
  have hmul : u * zetaSum θ n ≤ u' * zetaSum θ n :=
    mul_le_mul_of_nonneg_right huu' (zetaSum_pos (by omega)).le
  obtain ⟨-, hv⟩ | ⟨hone, -, hv⟩ | ⟨hstop, hv, -, -⟩ := h.value_cases_zero hθ hn hrange hu
  · rw [hv]
    exact Nat.zero_le _
  · obtain ⟨hone', -⟩ | ⟨-, -, hv'⟩ | ⟨-, hv', hlow, -⟩ := h.value_cases_zero hθ hn hrange hu'
    · exact absurd hone' (hone.trans hmul).not_gt
    · rw [hv, hv']
    · rw [hv, hv']
      exact one_le_two.trans hlow
  · rw [hv]
    obtain ⟨hone', -⟩ | ⟨-, hstop', -⟩ | ⟨-, hv', -, -⟩ := h.value_cases_zero hθ hn hrange hu'
    · exact absurd (hone'.trans (one_lt_zetaSum_two θ)) (hstop.trans hmul).not_gt
    · exact absurd hstop' (hstop.trans hmul).not_gt
    · rw [hv']
      exact formulaRank_mono hθ hn hu hstop huu'

theorem Tuned.value_eq_zero_iff (hu : u < 1) :
    (g.value g.numItems u).toNat = 0 ↔ u * zetaSum θ n < 1 := by
  refine ⟨fun hv => ?_, fun hfirst => by rw [h.value_first hfirst]; rfl⟩
  obtain ⟨hfirst, -⟩ | ⟨-, -, hv'⟩ | ⟨-, hv', hlow, -⟩ := h.value_cases_zero hθ hn hrange hu
  · exact hfirst
  all_goals omega

theorem Tuned.value_eq_one_iff (hu : u < 1) :
    (g.value g.numItems u).toNat = 1 ↔
      1 ≤ u * zetaSum θ n ∧ u * zetaSum θ n < 1 + (0.5 : ℝ) ^ θ := by
  rw [← zetaSum_two]
  refine ⟨fun hv => ?_, fun hsecond => by rw [h.value_second hsecond.1 hsecond.2]; rfl⟩
  obtain ⟨-, hv'⟩ | ⟨hone, hstop, -⟩ | ⟨-, hv', hlow, -⟩ := h.value_cases_zero hθ hn hrange hu
  · omega
  · exact ⟨hone, hstop⟩
  · omega

/-- Every rank is returned for some draw. -/
theorem Tuned.exists_value_eq {v : ℕ} (hv : v < n) :
    ∃ u, 0 ≤ u ∧ u < 1 ∧ (g.value g.numItems u).toNat = v := by
  have hpos : 0 < zetaSum θ n := zetaSum_pos (by omega)
  have htwo : zetaSum θ 2 ≤ zetaSum θ n := (zetaSum_strictMono θ).monotone hn
  have hstop := one_lt_zetaSum_two θ
  obtain rfl | rfl | hv2 : v = 0 ∨ v = 1 ∨ 2 ≤ v := by omega
  · refine ⟨0, le_rfl, one_pos, (h.value_eq_zero_iff hθ hn hrange one_pos).2 ?_⟩
    rw [zero_mul]
    exact one_pos
  · have hu : 1 / zetaSum θ n < 1 := (div_lt_one hpos).2 (hstop.trans_le htwo)
    refine ⟨1 / zetaSum θ n, (one_div_pos.2 hpos).le, hu,
      (h.value_eq_one_iff hθ hn hrange hu).2 ?_⟩
    rw [div_mul_cancel₀ _ hpos.ne', ← zetaSum_two]
    exact ⟨le_rfl, hstop⟩
  · have hn3 : 3 ≤ n := by omega
    have hn0 : (0 : ℝ) < n := by exact_mod_cast (by omega : 0 < n)
    have hβ : 0 < 1 - θ := sub_pos.2 hθ.2
    have hlt : zetaSum θ 2 / zetaSum θ n < 1 := (div_lt_one hpos).2 (zetaSum_strictMono θ hn3)
    have hslope := powerSlope_pos (by positivity) (two_div_lt_one hn3) hβ hlt
    have hheight : (2 : ℝ) / n ≤ v / n :=
      div_le_div_of_nonneg_right (by exact_mod_cast hv2) hn0.le
    have hle := le_powerInverse (by positivity) (two_div_lt_one hn3) hheight hβ hlt
    have hu := powerInverse_lt_one (b := v / n) (by positivity)
      ((div_lt_one hn0).2 (by exact_mod_cast hv)) hβ hslope
    refine ⟨_, le_trans (by positivity) hle, hu, ?_⟩
    have hformula := h.value_formula hθ hn (by rwa [UInt64.toNat_zero, Nat.zero_add]) hu
      ((div_le_iff₀ hpos).1 hle)
    rw [hformula, UInt64.toNat_zero, Nat.zero_add, formulaRank,
      powerCurve_powerInverse (by positivity) hβ hslope, mul_div_cancel₀ _ hn0.ne',
      Nat.floor_natCast]

end FromZero

end ZipfianGenerator

open ZipfianGenerator

variable {min max : UInt64} {θ : ℝ} {n : ℕ}

/-- **When a value lies in the range.** For every range of at least two items, after the constructor
and any draws, the value for a draw `u` lies in the range iff the range starts at zero, or it starts
at one and the first rank is not hit, or neither special case is hit. -/
theorem zipfian_in_range_iff (hle : min ≤ max) (hn : max.toNat - min.toNat + 1 = n) (h2 : 2 ≤ n)
    (hmax : n < kMaxNumItems.toNat) (hθ : 0 < θ ∧ θ < 1) (u₀ : ℝ) (draws : List ℝ) :
    ∃ g, (construct min max θ u₀).bind (afterDraws draws) = some g ∧
      ∀ u, 0 ≤ u → u < 1 → ∃ v g', g.next u = some (v, g') ∧
        ((min ≤ v ∧ v ≤ max) ↔
          min = 0 ∨ (min = 1 ∧ 1 ≤ u * zetaSum θ n) ∨ 1 + (0.5 : ℝ) ^ θ ≤ u * zetaSum θ n) := by
  obtain ⟨g, hg, htuned⟩ := tuned_construct hle hn h2 hmax θ u₀ draws
  refine ⟨g, hg, fun u _ hu => ⟨_, _, htuned.next h2 hmax u, ?_⟩⟩
  have hle' := UInt64.le_iff_toNat_le.1 hle
  have hrange : min.toNat + n ≤ 2 ^ 64 := by
    have := max.toNat_lt
    omega
  have hone : (1 : UInt64).toNat = 1 := rfl
  have hzero : (0 : UInt64).toNat = 0 := rfl
  have hstop := one_lt_zetaSum_two θ
  rw [← zetaSum_two, UInt64.le_iff_toNat_le, UInt64.le_iff_toNat_le, ← UInt64.toNat_inj,
    ← UInt64.toNat_inj, hone, hzero]
  obtain ⟨hfirst, hv⟩ | ⟨hfirst, hsecond, hv⟩ | ⟨hformula, hv, hlow, hhigh⟩ :=
    htuned.value_cases hθ h2 hrange hu
  · have hno : ¬ zetaSum θ 2 ≤ u * zetaSum θ n := (hfirst.trans hstop).not_ge
    rw [hv, hzero]
    simp only [hfirst.not_ge, hno, and_false, or_false]
    omega
  · rw [hv, hone]
    simp only [hfirst, hsecond.not_ge, and_true, or_false]
    omega
  · rw [hv]
    simp only [hformula, or_true, iff_true]
    omega

/-- The lengths from 1 to 10, with the default constant: a draw of zero returns zero. -/
theorem zipfian_in_range_iff_ten :
    ∃ g, (construct 1 10 0.99 0).bind (afterDraws []) = some g ∧
      ∃ v g', g.next 0 = some (v, g') ∧ ¬ (1 ≤ v ∧ v ≤ 10) := by
  obtain ⟨g, hg, hvalues⟩ := zipfian_in_range_iff (show (1 : UInt64) ≤ 10 by decide) rfl
    (by decide) (by decide) (show (0 : ℝ) < 0.99 ∧ (0.99 : ℝ) < 1 by norm_num) 0 []
  obtain ⟨v, g', hnext, hiff⟩ := hvalues 0 le_rfl zero_lt_one
  refine ⟨g, hg, v, g', hnext, fun hv => ?_⟩
  obtain h | ⟨-, h⟩ | h := hiff.1 hv
  · cases h
  · norm_num at h
  · rw [← zetaSum_two, zero_mul] at h
    exact absurd (one_lt_zetaSum_two _) (h.trans zero_le_one).not_gt

/-- The range starts at 1, and 0 is returned. -/
theorem zipfian_returns_zero :
    ¬ ∀ g, construct 1 10 0.99 0 = some g → ∀ v g', g.next 0 = some (v, g') → 1 ≤ v ∧ v ≤ 10 := by
  intro hclaim
  obtain ⟨g, hg, htuned⟩ := tuned_construct (n := 10) (show (1 : UInt64) ≤ 10 by decide) rfl
    (by decide) (by decide) 0.99 0 []
  rw [show afterDraws [] = some from rfl, Option.bind_fun_some] at hg
  have hvalue := htuned.value_first (u := 0) (by norm_num)
  have hv := hclaim g hg _ _ (htuned.next (by decide) (by decide) 0)
  rw [hvalue] at hv
  exact absurd hv.1 (by decide)

/-- **The values as a function of the draw.** For `n` items from zero on, the value does not fall as
the draw grows. It is 0 as long as the draw times the partial sum is below one term, 1 as long as it
is below two; beyond, it is the rank of the closed formula, between 2 and `n - 1`. With two items
this is never reached. -/
theorem zipfian_inverse_distribution (h2 : 2 ≤ n) (hmax : n < kMaxNumItems.toNat)
    (hθ : 0 < θ ∧ θ < 1) (u₀ : ℝ) (draws : List ℝ) :
    ∃ g, (construct 0 (.ofNat (n - 1)) θ u₀).bind (afterDraws draws) = some g ∧
      ∃ v : ℝ → ℕ, (∀ u, ∃ g', ∃ r : UInt64, g.next u = some (r, g') ∧ r.toNat = v u) ∧
        MonotoneOn v (Set.Ico 0 1) ∧ ∀ u ∈ Set.Ico 0 1,
          (v u = 0 ↔ u * zetaSum θ n < 1) ∧
          (v u = 1 ↔ 1 ≤ u * zetaSum θ n ∧ u * zetaSum θ n < 1 + (0.5 : ℝ) ^ θ) ∧
          (1 + (0.5 : ℝ) ^ θ ≤ u * zetaSum θ n →
            v u = formulaRank θ n u ∧ 2 ≤ v u ∧ v u ≤ n - 1) ∧
          (n = 2 → u * zetaSum θ n < 1 + (0.5 : ℝ) ^ θ) := by
  have hbound : kMaxNumItems.toNat < 2 ^ 64 := kMaxNumItems.toNat_lt
  have hlast : (UInt64.ofNat (n - 1)).toNat = n - 1 := by
    rw [UInt64.toNat_ofNat', Nat.mod_eq_of_lt (by omega)]
  have hzero : (0 : UInt64).toNat = 0 := rfl
  have hitems : (UInt64.ofNat (n - 1)).toNat - (0 : UInt64).toNat + 1 = n := by
    rw [hlast, hzero]
    omega
  have hrange : n ≤ 2 ^ 64 := by omega
  obtain ⟨g, hg, htuned⟩ := tuned_construct UInt64.zero_le hitems h2 hmax θ u₀ draws
  refine ⟨g, hg, fun u => (g.value g.numItems u).toNat,
    fun u => ⟨_, _, htuned.next h2 hmax u, rfl⟩,
    fun u _ u' hu' huu' => htuned.value_mono hθ h2 hrange huu' hu'.2, fun u hu =>
    ⟨htuned.value_eq_zero_iff hθ h2 hrange hu.2, htuned.value_eq_one_iff hθ h2 hrange hu.2, ?_, ?_⟩⟩
  · rw [← zetaSum_two]
    intro hstop
    have hlow := le_formulaRank hθ h2 hu.2 hstop
    have hhigh := formulaRank_lt hθ h2 hu.2 hstop
    have hv := htuned.value_formula hθ h2 (by rwa [hzero, Nat.zero_add]) hu.2 hstop
    rw [hzero, Nat.zero_add] at hv
    exact ⟨hv, hlow.trans_eq hv.symm, Nat.le_sub_one_of_lt (hv.trans_lt hhigh)⟩
  · rintro rfl
    rw [← zetaSum_two]
    exact mul_lt_of_lt_one_left (zetaSum_pos one_le_two) hu.2

/-- Three items: the value 2 is reached. -/
theorem zipfian_inverse_distribution_three :
    ∃ g, (construct 0 (.ofNat (3 - 1)) 0.99 0).bind (afterDraws []) = some g ∧
      ∃ v : ℝ → ℕ, MonotoneOn v (Set.Ico 0 1) ∧
        ∀ u ∈ Set.Ico 0 1, zetaSum 0.99 2 ≤ u * zetaSum 0.99 3 → v u = 2 := by
  obtain ⟨g, hg, v, -, hmono, hvalues⟩ := zipfian_inverse_distribution (n := 3) (by decide)
    (by decide) (show (0 : ℝ) < 0.99 ∧ (0.99 : ℝ) < 1 by norm_num) 0 []
  refine ⟨g, hg, v, hmono, fun u hu hstop => ?_⟩
  obtain ⟨-, -, hformula, -⟩ := hvalues u hu
  obtain ⟨-, hlow, hhigh⟩ := hformula (by rwa [← zetaSum_two])
  omega

end

end YcsbC
