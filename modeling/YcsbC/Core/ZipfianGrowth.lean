import YcsbC.Core.ZipfianDistribution

/-!
# A zipfian generator that grows

`Next(num)` may be called for more items than the generator was built for. It extends the partial
sum `zeta_n_`, and computes `eta_` again; but `Eta` reads `num_items_`, which keeps the number of
the constructor. So the sum is that of a new generator for `num` items, and the slope is not.

## Main definitions

* `ZipfianGenerator.afterCalls`: the generator after calls of `Next(num)`.
* `ZipfianGenerator.SameParameters`: what two generators share.

## Main results

* `Tuned.nextOf`, `tuned_afterCalls`: the members after calls of `Next(num)`.
* `Tuned.grown_cases`: the three branches.
* `zipfian_growth_iff`: when a generator that has grown is like a new one.
-/

namespace YcsbC

noncomputable section

namespace ZipfianGenerator

/-- The generator after calls of `Next(num)` with the given numbers and draws. -/
def afterCalls (calls : List (UInt64 × ℝ)) (g : ZipfianGenerator) : Option ZipfianGenerator :=
  calls.foldlM (fun g c => (g.nextOf c.1 c.2).map Prod.snd) g

/-- The parameters of the distribution are the same. -/
structure SameParameters (g f : ZipfianGenerator) : Prop where
  zetaN : g.zetaN = f.zetaN
  eta : g.eta = f.eta
  nForZeta : g.nForZeta = f.nForZeta

variable {base num : UInt64} {θ u : ℝ} {m n k : ℕ} {g f : ZipfianGenerator}

/-! ### Calls of `Next(num)` -/

/-- `Next(num)` for no fewer items than before: the sum has `num` terms, whatever is drawn. -/
theorem Tuned.nextOf (h : g.Tuned base θ m k) (hk : k ≤ num.toNat) (h2 : 2 ≤ num)
    (hmax : num < kMaxNumItems) :
    ∃ g' : ZipfianGenerator, g'.Tuned base θ m num.toNat ∧
      ∀ u, g.nextOf num u = some (g'.value num u, { g' with lastValue := g'.value num u }) := by
  by_cases hgrow : g.nForZeta < num
  · obtain ⟨g', hg', htuned⟩ := h.toSummed.retune (UInt64.le_of_lt hgrow)
    refine ⟨g', htuned, fun u => ?_⟩
    rw [ZipfianGenerator.nextOf, if_pos ⟨h2, hmax⟩, if_pos hgrow, hg', Option.map_some]
  · have hsame : k = num.toNat := by
      rw [UInt64.lt_iff_toNat_lt, h.nForZeta] at hgrow
      omega
    refine ⟨g, hsame ▸ h, fun u => ?_⟩
    rw [ZipfianGenerator.nextOf, if_pos ⟨h2, hmax⟩, if_neg hgrow, Option.map_some]

theorem tuned_afterCalls {a : UInt64} (ha : 2 ≤ a) {calls : List (UInt64 × ℝ)}
    (hsorted : (calls.map Prod.fst ++ [num]).Pairwise (· ≤ ·))
    (hle : ∀ c ∈ calls, a ≤ c.1) (hmax : num < kMaxNumItems) (h : g.Tuned base θ m k)
    (hk : ∀ c ∈ calls.map Prod.fst ++ [num], k ≤ c.toNat) :
    ∃ (g' : ZipfianGenerator) (l : ℕ), afterCalls calls g = some g' ∧ g'.Tuned base θ m l ∧
      l ≤ num.toNat := by
  induction calls generalizing g k with
  | nil => exact ⟨g, k, rfl, h, hk num (List.mem_singleton_self num)⟩
  | cons c calls ih =>
    obtain ⟨hfirst, hsorted⟩ := List.pairwise_cons.1 hsorted
    have hnum : c.1 ≤ num := hfirst num (List.mem_append_right _ (List.mem_singleton_self num))
    have h2 : 2 ≤ c.1 := UInt64.le_trans ha (hle c List.mem_cons_self)
    obtain ⟨g', htuned, hnext⟩ :=
      h.nextOf (hk c.1 List.mem_cons_self) h2 (UInt64.lt_of_le_of_lt hnum hmax)
    obtain ⟨g'', l, hafter, htuned', hl⟩ := ih hsorted
      (fun c' hc' => hle c' (List.mem_cons_of_mem _ hc')) (htuned.withLast (g'.value c.1 c.2))
      fun num' hnum' => UInt64.le_iff_toNat_le.1 (hfirst num' hnum')
    refine ⟨g'', l, ?_, htuned', hl⟩
    rw [afterCalls, List.foldlM_cons, hnext]
    exact hafter

/-! ### The three branches -/

/-- After growth the formula may reach `n`, but not more. -/
theorem grownRank_le (hθ : 0 < θ ∧ θ < 1) (hm : 2 ≤ m) (hmn : m ≤ n) (hu : u < 1)
    (hstop : zetaSum θ 2 ≤ u * zetaSum θ n) : grownRank θ m n u ≤ n := by
  obtain ⟨hle, hlt⟩ := stop_le (hm.trans hmn) hu hstop
  have hpos : (0 : ℝ) < m := by exact_mod_cast (by omega : 0 < m)
  have hstart : (2 : ℝ) / m ≤ 1 := by
    rw [div_le_one hpos]
    exact_mod_cast hm
  have hcurve := powerCurve_le_one (by positivity) hstart (sub_pos.2 hθ.2) hlt hle hu.le
  refine Nat.floor_le_of_le ?_
  exact mul_le_of_le_one_right (Nat.cast_nonneg n) hcurve

/-- The branches of `Next(num)` after growth, with what they return. -/
theorem Tuned.grown_cases (h : g.Tuned 0 θ m n) (hnum : num.toNat = n) (hθ : 0 < θ ∧ θ < 1)
    (hm : 2 ≤ m) (hmn : m ≤ n) (hu : u < 1) :
    (u * zetaSum θ n < 1 ∧ (g.value num u).toNat = 0) ∨
      (1 ≤ u * zetaSum θ n ∧ u * zetaSum θ n < zetaSum θ 2 ∧ (g.value num u).toNat = 1) ∨
      (zetaSum θ 2 ≤ u * zetaSum θ n ∧ (g.value num u).toNat = grownRank θ m n u) := by
  obtain hfirst | hfirst := lt_or_ge (u * zetaSum θ n) 1
  · refine .inl ⟨hfirst, ?_⟩
    rw [value, h.zetaN, if_pos hfirst]
    rfl
  obtain hstop | hstop := lt_or_ge (u * zetaSum θ n) (zetaSum θ 2)
  · refine .inr (.inl ⟨hfirst, hstop, ?_⟩)
    rw [value, h.zetaN, h.theta, ← zetaSum_two, if_neg hfirst.not_gt, if_pos hstop]
    rfl
  · refine .inr (.inr ⟨hstop, ?_⟩)
    have hle := grownRank_le hθ hm hmn hu hstop
    have hbound := num.toNat_lt
    have hzero : ((0 : UInt64).toNat : ℝ) = 0 := Nat.cast_zero
    rw [value, h.zetaN, h.theta, ← zetaSum_two, if_neg hfirst.not_gt, if_neg hstop.not_gt,
      closedForm, h.base, h.eta, h.alpha, hnum, hzero, zero_add, ← powerCurve, ← grownRank,
      UInt64.toNat_ofNat', Nat.mod_eq_of_lt (by omega)]

/-- For some draw, the formula skips a rank after growth. -/
theorem exists_grownRank_ne (hθ : 0 < θ ∧ θ < 1) (hm : 2 ≤ m) (hmn : m < n) :
    ∃ u, 0 ≤ u ∧ u < 1 ∧ zetaSum θ 2 ≤ u * zetaSum θ n ∧ formulaRank θ n u = 2 ∧
      3 ≤ grownRank θ m n u := by
  have hβ : 0 < 1 - θ := sub_pos.2 hθ.2
  have hzeta : 0 < zetaSum θ n := zetaSum_pos (by omega)
  have hstop : zetaSum θ 2 / zetaSum θ n < 1 := by
    rw [div_lt_one hzeta]
    exact zetaSum_strictMono θ (by omega)
  have hstop0 : 0 ≤ zetaSum θ 2 / zetaSum θ n :=
    div_nonneg (zetaSum_pos one_le_two).le hzeta.le
  have hn : (0 : ℝ) < n := by exact_mod_cast (by omega : 0 < n)
  have hm' : (0 : ℝ) < m := by exact_mod_cast (by omega : 0 < m)
  by_cases hwide : 3 * m ≤ 2 * n
  · -- the two curves already differ where the special cases stop
    refine ⟨zetaSum θ 2 / zetaSum θ n, hstop0, hstop, ?_, ?_, ?_⟩
    · rw [div_mul_cancel₀ _ hzeta.ne']
    · rw [formulaRank, powerCurve_start (by positivity) hβ hstop, mul_div_cancel₀ _ hn.ne']
      exact Nat.floor_ofNat 2
    · rw [grownRank, powerCurve_start (by positivity) hβ hstop]
      refine Nat.le_floor ?_
      rw [mul_div_assoc', le_div_iff₀ hm', mul_comm (n : ℝ)]
      exact_mod_cast hwide
  · -- where the curve of the grown generator reaches rank 3, the other one is still below it
    have hslope : 0 < powerSlope (2 / m) (1 - θ) (zetaSum θ 2 / zetaSum θ n) :=
      powerSlope_pos (by positivity) (two_div_lt_one (by omega)) hβ hstop
    have hab : (2 : ℝ) / m ≤ 3 / n := by
      rw [div_le_div_iff₀ hm' hn]
      exact_mod_cast (by omega : 2 * n ≤ 3 * m)
    have hb1 : (3 : ℝ) / n < 1 := by
      rw [div_lt_one hn]
      exact_mod_cast (by omega : 3 < n)
    have hle := le_powerInverse (by positivity) (two_div_lt_one (by omega : 3 ≤ m)) hab hβ hstop
    have hlt := powerInverse_lt_one (by positivity) hb1 hβ hslope
    have hstop' := (div_le_iff₀ hzeta).1 hle
    refine ⟨_, hstop0.trans hle, hlt, hstop', ?_, ?_⟩
    · have hlow := le_formulaRank hθ (by omega) hlt hstop'
      have hcurve := powerCurve_lt_powerCurve (a := (2 : ℝ) / n) (by positivity)
        (div_lt_div_of_pos_left two_pos hm' (by exact_mod_cast hmn))
        (two_div_lt_one (by omega : 3 ≤ m)).le hβ hstop hle hlt
      rw [powerCurve_powerInverse (by positivity) hβ hslope, lt_div_iff₀' hn] at hcurve
      have hhigh : formulaRank θ n (powerInverse (powerSlope (2 / m) (1 - θ)
          (zetaSum θ 2 / zetaSum θ n)) (1 - θ) (3 / n)) < 3 :=
        (Nat.floor_lt' three_ne_zero).2 hcurve
      omega
    · rw [grownRank, powerCurve_powerInverse (by positivity) hβ hslope, mul_div_cancel₀ _ hn.ne']
      exact (Nat.floor_ofNat 3).ge

theorem Tuned.value_congr (h : g.Tuned base θ m n) (h' : f.Tuned base θ m n) (num : UInt64)
    (u : ℝ) : g.value num u = f.value num u := by
  simp only [value, closedForm, h.zetaN, h'.zetaN, h.theta, h'.theta, h.base, h'.base, h.eta,
    h'.eta, h.alpha, h'.alpha]

/-- The slopes agree only when the generator has not grown. -/
theorem Tuned.eta_eq_iff (h : g.Tuned base θ m n) (h' : f.Tuned base θ n n) (hθ : θ < 1)
    (hm : 2 ≤ m) (hmn : m ≤ n) : g.eta = f.eta ↔ m = n := by
  rw [h.eta, h'.eta]
  refine ⟨fun heta => ?_, fun hmn => by rw [hmn]⟩
  by_contra hne
  have hlt : m < n := by omega
  have hm' : (0 : ℝ) < m := by exact_mod_cast (by omega : 0 < m)
  have hstop : zetaSum θ 2 / zetaSum θ n < 1 := by
    rw [div_lt_one (zetaSum_pos (by omega))]
    exact zetaSum_strictMono θ (by omega)
  have hstart : (2 : ℝ) / n < 2 / m :=
    div_lt_div_of_pos_left two_pos hm' (by exact_mod_cast hlt)
  exact (powerSlope_lt_powerSlope (by positivity) hstart (sub_pos.2 hθ) hstop).ne heta

theorem Tuned.sameParameters_iff (h : g.Tuned base θ m n) (h' : f.Tuned base θ n n) (hθ : θ < 1)
    (hm : 2 ≤ m) (hmn : m ≤ n) : g.SameParameters f ↔ m = n := by
  rw [← h.eta_eq_iff h' hθ hm hmn]
  exact ⟨fun hsame => hsame.eta, fun heta => ⟨h.zetaN.trans h'.zetaN.symm, heta,
    UInt64.toNat_inj.1 (h.nForZeta.trans h'.nForZeta.symm)⟩⟩

theorem Tuned.exists_value_ne (h : g.Tuned 0 θ m n) (h' : f.Tuned 0 θ n n) (hnum : num.toNat = n)
    (hθ : 0 < θ ∧ θ < 1) (hm : 2 ≤ m) (hmn : m < n) :
    ∃ u, 0 ≤ u ∧ u < 1 ∧ g.value num u ≠ f.value num u := by
  obtain ⟨u, hu0, hu1, hstop, hlow, hhigh⟩ := exists_grownRank_ne hθ hm hmn
  have hbranch : ∀ {g : ZipfianGenerator} {m : ℕ}, g.Tuned 0 θ m n → 2 ≤ m → m ≤ n →
      (g.value num u).toNat = grownRank θ m n u := by
    intro g m h hm hmn
    obtain ⟨hlt, -⟩ | ⟨-, hlt, -⟩ | ⟨-, hv⟩ := h.grown_cases hnum hθ hm hmn hu1
    · exact absurd (hlt.trans (one_lt_zetaSum_two θ)) hstop.not_gt
    · exact absurd hlt hstop.not_gt
    · exact hv
  have hgrown := hbranch h hm hmn.le
  have hfresh : (f.value num u).toNat = formulaRank θ n u := hbranch h' (hm.trans hmn.le) le_rfl
  refine ⟨u, hu0, hu1, fun heq => ?_⟩
  rw [heq] at hgrown
  omega

end ZipfianGenerator

open ZipfianGenerator

/-- **When growth equals a new start.** A generator that was built for `a` items is called for more
and more items, the last time for `num`. The partial sum and its number of terms are those of a new
generator for `num` items. The slope is that of a new generator, and so are all values, iff `num` is
`a`, that is, iff the generator has not grown. -/
theorem zipfian_growth_iff {θ : ℝ} (hθ : 0 < θ ∧ θ < 1) {a num : UInt64} (ha : 2 ≤ a)
    {calls : List (UInt64 × ℝ)} (hsorted : (calls.map Prod.fst ++ [num]).Pairwise (· ≤ ·))
    (hle : ∀ c ∈ calls.map Prod.fst ++ [num], a ≤ c) (hmax : num < kMaxNumItems) (u₀ u₁ : ℝ) :
    ∃ g f, (construct 0 (a - 1) θ u₀).bind (afterCalls calls) = some g ∧
      construct 0 (num - 1) θ u₁ = some f ∧
      ((∀ u, 0 ≤ u → u < 1 → ∃ v g' v' f', g.nextOf num u = some (v, g') ∧
          f.next u = some (v', f') ∧ g'.SameParameters f' ∧ v = v') ↔ num = a) ∧
      ((∀ u, 0 ≤ u → u < 1 → (g.nextOf num u).map Prod.fst = (f.next u).map Prod.fst) ↔
        num = a) ∧
      ∀ u, ∃ v g' v' f', g.nextOf num u = some (v, g') ∧ f.next u = some (v', f') ∧
        g'.zetaN = f'.zetaN ∧ g'.nForZeta = f'.nForZeta ∧ (g'.eta = f'.eta ↔ num = a) := by
  have hnum : a ≤ num := hle num (List.mem_append_right _ (List.mem_singleton_self num))
  have h2 : 2 ≤ num := UInt64.le_trans ha hnum
  have hm : 2 ≤ a.toNat := UInt64.le_iff_toNat_le.1 ha
  have hmn : a.toNat ≤ num.toNat := UInt64.le_iff_toNat_le.1 hnum
  have hsame : num = a ↔ a.toNat = num.toNat := by rw [UInt64.toNat_inj, eq_comm]
  obtain ⟨g₀, hg₀, htuned₀⟩ := tuned_fresh ha (UInt64.lt_of_le_of_lt hnum hmax) θ u₀
  obtain ⟨f, hf, hfresh⟩ := tuned_fresh h2 hmax θ u₁
  obtain ⟨g, l, hg, htuned, hl⟩ := tuned_afterCalls ha hsorted
    (fun c hc => hle c.1 (List.mem_append_left _ (List.mem_map_of_mem hc))) hmax htuned₀
    fun c hc => UInt64.le_iff_toNat_le.1 (hle c hc)
  obtain ⟨g', hgrown, hnext⟩ := htuned.nextOf hl h2 hmax
  have hnext' := hfresh.next (UInt64.le_iff_toNat_le.1 h2) (UInt64.lt_iff_toNat_lt.1 hmax)
  have hitems : f.numItems = num := UInt64.toNat_inj.1 hfresh.numItems
  rw [hitems] at hnext'
  have hparams : g'.SameParameters f ↔ num = a := by
    rw [hsame]
    exact hgrown.sameParameters_iff hfresh hθ.2 hm hmn
  have hvalues : num = a → ∀ u, g'.value num u = f.value num u := fun h u => by
    rw [hsame] at h
    exact Tuned.value_congr (h ▸ hgrown) hfresh num u
  refine ⟨g, f, by rw [hg₀]; exact hg, hf, ⟨fun h => ?_, fun h u _ _ => ?_⟩,
    ⟨fun h => ?_, fun h u _ _ => ?_⟩, fun u => ?_⟩
  · obtain ⟨v, g'', v', f', hg'', hf', hsame', -⟩ := h 0 le_rfl zero_lt_one
    cases (hnext 0).symm.trans hg''
    cases (hnext' 0).symm.trans hf'
    exact hparams.1 ⟨hsame'.zetaN, hsame'.eta, hsame'.nForZeta⟩
  · have hparams' := hparams.2 h
    exact ⟨_, _, _, _, hnext u, hnext' u, ⟨hparams'.zetaN, hparams'.eta, hparams'.nForZeta⟩,
      hvalues h u⟩
  · by_contra hne
    rw [hsame] at hne
    obtain ⟨u, hu0, hu1, hvalue⟩ := hgrown.exists_value_ne hfresh rfl hθ hm (by omega)
    have hmap := h u hu0 hu1
    rw [hnext, hnext', Option.map_some, Option.map_some] at hmap
    exact hvalue (Option.some.inj hmap)
  · rw [hnext, hnext', Option.map_some, Option.map_some, hvalues h u]
  · have heta := hgrown.eta_eq_iff hfresh hθ.2 hm hmn
    rw [← hsame] at heta
    exact ⟨_, _, _, _, hnext u, hnext' u, hgrown.zetaN.trans hfresh.zetaN.symm,
      UInt64.toNat_inj.1 (hgrown.nForZeta.trans hfresh.nForZeta.symm), heta⟩

/-- A generator for two items that is called for three and then for four. -/
theorem zipfian_growth_iff_two_to_four :
    ∃ g f, (construct 0 (2 - 1) 0.99 0).bind (afterCalls [(3, 0)]) = some g ∧
      construct 0 (4 - 1) 0.99 0 = some f ∧
      ¬ ∀ u, 0 ≤ u → u < 1 → (g.nextOf 4 u).map Prod.fst = (f.next u).map Prod.fst := by
  have hθ : (0 : ℝ) < 0.99 ∧ (0.99 : ℝ) < 1 := by norm_num
  have htwo : (2 : UInt64) ≤ 2 := by decide
  have hmax : (4 : UInt64) < kMaxNumItems := by decide
  have hsorted : ([((3 : UInt64), (0 : ℝ))].map Prod.fst ++ [4]).Pairwise (· ≤ ·) := by decide
  have hle : ∀ c ∈ [(3 : UInt64), 4], 2 ≤ c :=
    List.forall_mem_cons.2 ⟨by decide, List.forall_mem_singleton.2 (by decide)⟩
  obtain ⟨g, f, hg, hf, -, hvalues, -⟩ := zipfian_growth_iff hθ htwo hsorted hle hmax 0 0
  exact ⟨g, f, hg, hf, fun h => absurd (hvalues.1 h) (by decide)⟩

/-- A generator for two items that is called for three: its slope is not that of a new generator for
three items, and for some draw it returns another value. -/
theorem zipfian_grows_apart :
    ∃ g f, construct 0 (2 - 1) 0.99 0 = some g ∧ construct 0 (3 - 1) 0.99 0 = some f ∧
      ∃ u, 0 ≤ u ∧ u < 1 ∧ ∃ v g' v' f', g.nextOf 3 u = some (v, g') ∧
        f.next u = some (v', f') ∧ g'.eta ≠ f'.eta ∧ v ≠ v' := by
  have hθ : (0 : ℝ) < 0.99 ∧ (0.99 : ℝ) < 1 := by norm_num
  obtain ⟨g, hg, htuned⟩ := tuned_fresh (a := 2) (by decide) (by decide) 0.99 0
  obtain ⟨f, hf, hfresh⟩ := tuned_fresh (a := 3) (by decide) (by decide) 0.99 0
  have hle : (2 : UInt64).toNat ≤ (3 : UInt64).toNat := by decide
  obtain ⟨g', hgrown, hnext⟩ := htuned.nextOf hle (by decide) (by decide)
  have hnext' := hfresh.next (by decide) (by decide)
  obtain ⟨u, hu0, hu1, hvalue⟩ :=
    hgrown.exists_value_ne hfresh rfl hθ (by decide) (by decide)
  have heta := hgrown.eta_eq_iff hfresh hθ.2 (by decide) (by decide)
  rw [show f.numItems = 3 from UInt64.toNat_inj.1 hfresh.numItems] at hnext'
  exact ⟨g, f, hg, hf, u, hu0, hu1, _, _, _, _, hnext u, hnext' u,
    fun h => absurd (heta.1 h) (by decide), hvalue⟩

end

end YcsbC
