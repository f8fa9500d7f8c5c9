import Mathlib.Algebra.BigOperators.Fin
import Mathlib.Analysis.SpecialFunctions.Pow.Real

/-!
# Power laws

Two facts about real powers. The partial sums of the zeta series grow with the number of terms. And
a power of a linear function interpolates between two points: with the right slope it starts at the
height `a` and reaches `1` at the end of the unit interval, and it grows on the way and takes every
height in between.

## Main definitions

* `zetaSum`: the partial sums of the zeta series.
* `powerSlope`, `powerCurve`: the slope, and the curve with that slope.
* `powerInverse`: where the curve has a given height.

## Main results

* `zetaSum_strictMono`: the partial sums grow.
* `powerCurve_mono`, `le_powerCurve`, `powerCurve_lt_one`: the curve between its two ends.
* `powerCurve_lt_powerCurve`: two curves that start at different heights.
* `powerCurve_powerInverse`, `le_powerInverse`: every height is taken.
-/

namespace YcsbC

noncomputable section

/-! ### Partial sums of the zeta series -/

/-- The sum of `1 / i ^ θ` for `i` from `1` to `n`. -/
def zetaSum (θ : ℝ) (n : ℕ) : ℝ := ∑ i ∈ Finset.range n, 1 / ((i + 1 : ℕ) : ℝ) ^ θ

variable {θ : ℝ} {m n : ℕ}

@[simp] theorem zetaSum_zero (θ : ℝ) : zetaSum θ 0 = 0 := Finset.sum_range_zero _

theorem zetaSum_succ (θ : ℝ) (n : ℕ) :
    zetaSum θ (n + 1) = zetaSum θ n + 1 / ((n + 1 : ℕ) : ℝ) ^ θ :=
  Finset.sum_range_succ ..

theorem zetaSum_strictMono (θ : ℝ) : StrictMono (zetaSum θ) := by
  refine strictMono_nat_of_lt_succ fun n => ?_
  rw [zetaSum_succ]
  have hpos : (0 : ℝ) < ((n + 1 : ℕ) : ℝ) := by exact_mod_cast n.succ_pos
  exact lt_add_of_pos_right _ (one_div_pos.2 (Real.rpow_pos_of_pos hpos θ))

theorem zetaSum_two (θ : ℝ) : zetaSum θ 2 = 1 + (0.5 : ℝ) ^ θ := by
  have hhalf : (0.5 : ℝ) ^ θ = 1 / 2 ^ θ := by
    rw [one_div, ← Real.inv_rpow zero_le_two]
    norm_num
  rw [zetaSum_succ, zetaSum_succ, zetaSum_zero, hhalf]
  norm_num [Real.one_rpow]

theorem zetaSum_pos (hn : 1 ≤ n) : 0 < zetaSum θ n := by
  rw [← zetaSum_zero θ]
  exact zetaSum_strictMono θ hn

/-! ### A curve between two points -/

/-- The slope of the linear function that leads from `a ^ β` at `u₀` to `1` at `1`. -/
def powerSlope (a β u₀ : ℝ) : ℝ := (1 - a ^ β) / (1 - u₀)

/-- The power `1 / β` of the linear function with slope `η` that is `1` at `1`. -/
def powerCurve (η β u : ℝ) : ℝ := (η * u - η + 1) ^ (1 / β)

variable {a β u₀ u u' : ℝ}

theorem powerSlope_start (hu₀ : u₀ < 1) :
    powerSlope a β u₀ * u₀ - powerSlope a β u₀ + 1 = a ^ β := by
  have hne : 1 - u₀ ≠ 0 := sub_ne_zero.2 hu₀.ne'
  have hslope : powerSlope a β u₀ * (1 - u₀) = 1 - a ^ β := div_mul_cancel₀ _ hne
  linarith

theorem powerSlope_nonneg (ha : 0 ≤ a) (ha1 : a ≤ 1) (hβ : 0 < β) (hu₀ : u₀ < 1) :
    0 ≤ powerSlope a β u₀ :=
  div_nonneg (sub_nonneg.2 (Real.rpow_le_one ha ha1 hβ.le)) (sub_nonneg.2 hu₀.le)

theorem powerSlope_pos (ha : 0 ≤ a) (ha1 : a < 1) (hβ : 0 < β) (hu₀ : u₀ < 1) :
    0 < powerSlope a β u₀ :=
  div_pos (sub_pos.2 (Real.rpow_lt_one ha ha1 hβ)) (sub_pos.2 hu₀)

theorem linear_nonneg (ha : 0 ≤ a) (ha1 : a ≤ 1) (hβ : 0 < β) (hu₀ : u₀ < 1) (hu : u₀ ≤ u) :
    0 ≤ powerSlope a β u₀ * u - powerSlope a β u₀ + 1 := by
  have hstart := powerSlope_start (a := a) (β := β) hu₀
  have hmul := mul_le_mul_of_nonneg_left hu (powerSlope_nonneg ha ha1 hβ hu₀)
  have hpow := Real.rpow_nonneg ha β
  linarith

theorem powerCurve_start (ha : 0 ≤ a) (hβ : 0 < β) (hu₀ : u₀ < 1) :
    powerCurve (powerSlope a β u₀) β u₀ = a := by
  rw [powerCurve, powerSlope_start hu₀, one_div, Real.rpow_rpow_inv ha hβ.ne']

theorem powerCurve_mono (ha : 0 ≤ a) (ha1 : a ≤ 1) (hβ : 0 < β) (hu₀ : u₀ < 1) (hu : u₀ ≤ u)
    (huu' : u ≤ u') :
    powerCurve (powerSlope a β u₀) β u ≤ powerCurve (powerSlope a β u₀) β u' := by
  refine Real.rpow_le_rpow (linear_nonneg ha ha1 hβ hu₀ hu) ?_ (one_div_pos.2 hβ).le
  have hmul := mul_le_mul_of_nonneg_left huu' (powerSlope_nonneg ha ha1 hβ hu₀)
  linarith

/-- From `u₀` on, the curve does not fall below `a`. -/
theorem le_powerCurve (ha : 0 ≤ a) (ha1 : a ≤ 1) (hβ : 0 < β) (hu₀ : u₀ < 1) (hu : u₀ ≤ u) :
    a ≤ powerCurve (powerSlope a β u₀) β u :=
  (powerCurve_start ha hβ hu₀).ge.trans (powerCurve_mono ha ha1 hβ hu₀ le_rfl hu)

theorem powerCurve_le_one (ha : 0 ≤ a) (ha1 : a ≤ 1) (hβ : 0 < β) (hu₀ : u₀ < 1) (hu : u₀ ≤ u)
    (hu1 : u ≤ 1) : powerCurve (powerSlope a β u₀) β u ≤ 1 := by
  have hmul := mul_le_mul_of_nonneg_left hu1 (powerSlope_nonneg ha ha1 hβ hu₀)
  exact Real.rpow_le_one (linear_nonneg ha ha1 hβ hu₀ hu) (by linarith) (one_div_pos.2 hβ).le

/-- A curve that starts below `1` stays below `1` before the end. -/
theorem powerCurve_lt_one (ha : 0 ≤ a) (ha1 : a < 1) (hβ : 0 < β) (hu₀ : u₀ < 1) (hu : u₀ ≤ u)
    (hu1 : u < 1) : powerCurve (powerSlope a β u₀) β u < 1 := by
  have hmul := mul_lt_mul_of_pos_left hu1 (powerSlope_pos ha ha1 hβ hu₀)
  exact Real.rpow_lt_one (linear_nonneg ha ha1.le hβ hu₀ hu) (by linarith) (one_div_pos.2 hβ)

/-- From a higher start the way to the end is less steep. -/
theorem powerSlope_lt_powerSlope {a' : ℝ} (ha : 0 ≤ a) (haa' : a < a') (hβ : 0 < β)
    (hu₀ : u₀ < 1) : powerSlope a' β u₀ < powerSlope a β u₀ :=
  div_lt_div_of_pos_right (sub_lt_sub_left (Real.rpow_lt_rpow ha haa' hβ) 1) (sub_pos.2 hu₀)

/-- A curve that starts higher lies higher. -/
theorem powerCurve_lt_powerCurve {a' : ℝ} (ha : 0 ≤ a) (haa' : a < a') (ha' : a' ≤ 1) (hβ : 0 < β)
    (hu₀ : u₀ < 1) (hu : u₀ ≤ u) (hu1 : u < 1) :
    powerCurve (powerSlope a β u₀) β u < powerCurve (powerSlope a' β u₀) β u := by
  have hslope := powerSlope_lt_powerSlope ha haa' hβ hu₀
  refine Real.rpow_lt_rpow (linear_nonneg ha (haa'.le.trans ha') hβ hu₀ hu) ?_ (one_div_pos.2 hβ)
  have hmul := mul_lt_mul_of_pos_right hslope (sub_pos.2 hu1)
  linarith

/-! ### The way back -/

/-- Where the curve with the slope `η` has the height `b`. -/
def powerInverse (η β b : ℝ) : ℝ := 1 - (1 - b ^ β) / η

variable {b η : ℝ}

theorem powerCurve_powerInverse (hb : 0 ≤ b) (hβ : 0 < β) (hη : 0 < η) :
    powerCurve η β (powerInverse η β b) = b := by
  have hlinear : η * powerInverse η β b - η + 1 = b ^ β := by
    have hcancel : η * ((1 - b ^ β) / η) = 1 - b ^ β := mul_div_cancel₀ _ hη.ne'
    rw [powerInverse, mul_sub, hcancel]
    ring
  rw [powerCurve, hlinear, one_div, Real.rpow_rpow_inv hb hβ.ne']

theorem powerInverse_lt_one (hb : 0 ≤ b) (hb1 : b < 1) (hβ : 0 < β) (hη : 0 < η) :
    powerInverse η β b < 1 :=
  sub_lt_self 1 (div_pos (sub_pos.2 (Real.rpow_lt_one hb hb1 hβ)) hη)

/-- A height above the start is reached after the start. -/
theorem le_powerInverse (ha : 0 ≤ a) (ha1 : a < 1) (hab : a ≤ b) (hβ : 0 < β) (hu₀ : u₀ < 1) :
    u₀ ≤ powerInverse (powerSlope a β u₀) β b := by
  have hpow := Real.rpow_le_rpow ha hab hβ.le
  have hone : 0 < 1 - a ^ β := sub_pos.2 (Real.rpow_lt_one ha ha1 hβ)
  rw [powerInverse, powerSlope, le_sub_comm, div_div_eq_mul_div, div_le_iff₀ hone, mul_comm]
  exact mul_le_mul_of_nonneg_left (sub_le_sub_left hpow 1) (sub_pos.2 hu₀).le

end

end YcsbC
