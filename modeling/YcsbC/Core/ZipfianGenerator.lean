import YcsbC.Foundation.PowerLaw

/-!
# The zipfian generator

`ZipfianGenerator` turns a draw below one into a number of a range, small numbers being more
frequent (`core/zipfian_generator.h`). The two most frequent ranks are special cases; for the others
a closed formula inverts the distribution. The partial sum `zeta_n_` is extended when `Next` is
called for more items than before. The arithmetic is exact here, over the reals.

## Main definitions

* `ZipfianGenerator`, `ZipfianGenerator.construct`, `next`: the generator.
* `ZipfianGenerator.Summed`, `Tuned`: what the members of a generator hold.
* `ZipfianGenerator.formulaRank`, `grownRank`: the rank of the closed formula, also after growth.

## Main results

* `zeta_eq`: the incremental sum is the partial sum of the zeta series.
* `tuned_construct`, `tuned_fresh`: the members after the constructor.
* `Tuned.next`: the members after calls of `Next()`.
-/

namespace YcsbC

noncomputable section

/-- `ZipfianGenerator`; its `double`s are reals. -/
structure ZipfianGenerator where
  numItems : UInt64
  base : UInt64
  theta : ℝ
  zetaN : ℝ
  eta : ℝ
  alpha : ℝ
  zeta2 : ℝ
  nForZeta : UInt64
  lastValue : UInt64

namespace ZipfianGenerator

/-- `kZipfianConst`. -/
def kZipfianConst : ℝ := 0.99

theorem kZipfianConst_mem : 0 < kZipfianConst ∧ kZipfianConst < 1 := by norm_num [kZipfianConst]

/-- `kMaxNumItems`. -/
def kMaxNumItems : UInt64 := (0xffffffffffffffff : UInt64) >>> (24 : UInt64)

/-- The loop of `Zeta`: `k` terms from the `i`-th on. -/
def zetaLoop (theta : ℝ) : ℕ → ℕ → ℝ → ℝ
  | 0, _, zeta => zeta
  | k + 1, i, zeta => zetaLoop theta k (i + 1) (zeta + 1 / (i : ℝ) ^ theta)

/-- `Zeta`, which goes on from the sum `lastZeta` of the terms up to `lastNum`. -/
def zeta (lastNum curNum : UInt64) (theta lastZeta : ℝ) : ℝ :=
  zetaLoop theta (curNum.toNat - lastNum.toNat) (lastNum.toNat + 1) lastZeta

/-- `RaiseZeta`: `none` when its assertion fails. -/
def raiseZeta (num : UInt64) (g : ZipfianGenerator) : Option ZipfianGenerator :=
  if g.nForZeta ≤ num then
    some { g with zetaN := zeta g.nForZeta num g.theta g.zetaN, nForZeta := num }
  else none

/-- `Eta`. For two items it is `0 / 0` before the generator has grown; that quotient is not a number
in the source, and zero here. -/
def etaOf (g : ZipfianGenerator) : ℝ :=
  (1 - (2 / (g.numItems.toNat : ℝ)) ^ (1 - g.theta)) / (1 - g.zeta2 / g.zetaN)

/-- `RaiseZeta`, and the new `eta_`. -/
def retune (num : UInt64) (g : ZipfianGenerator) : Option ZipfianGenerator :=
  (g.raiseZeta num).map fun g => { g with eta := g.etaOf }

/-- The third branch of `Next`: `base_ + num * pow(eta_ * u - eta_ + 1, alpha_)`, converted to
`uint64_t`. -/
def closedForm (num : UInt64) (u : ℝ) (g : ZipfianGenerator) : UInt64 :=
  .ofNat ⌊(g.base.toNat : ℝ) + num.toNat * (g.eta * u - g.eta + 1) ^ g.alpha⌋₊

/-- What `Next` returns for the value `u` of `RandomDouble()`. -/
def value (num : UInt64) (u : ℝ) (g : ZipfianGenerator) : UInt64 :=
  if u * g.zetaN < 1 then 0
  else if u * g.zetaN < 1 + (0.5 : ℝ) ^ g.theta then 1
  else g.closedForm num u

/-- `Next(num)`: `none` when an assertion fails. -/
def nextOf (num : UInt64) (u : ℝ) (g : ZipfianGenerator) : Option (UInt64 × ZipfianGenerator) :=
  if 2 ≤ num ∧ num < kMaxNumItems then
    (if g.nForZeta < num then g.retune num else some g).map fun g =>
      (g.value num u, { g with lastValue := g.value num u })
  else none

/-- `Next()`. -/
def next (u : ℝ) (g : ZipfianGenerator) : Option (UInt64 × ZipfianGenerator) :=
  g.nextOf g.numItems u

/-- `Last`. -/
def last (g : ZipfianGenerator) : UInt64 := g.lastValue

/-- The members before the constructor's `RaiseZeta`; `eta_` and `last_value_` have no value yet. -/
def initial (min numItems : UInt64) (zipfianConst : ℝ) : ZipfianGenerator where
  numItems := numItems
  base := min
  theta := zipfianConst
  zetaN := 0
  eta := 0
  alpha := 1 / (1 - zipfianConst)
  zeta2 := zeta 0 2 zipfianConst 0
  nForZeta := 0
  lastValue := 0

/-- The constructor, which draws once: `none` when an assertion fails. -/
def construct (min max : UInt64) (zipfianConst u : ℝ) : Option ZipfianGenerator :=
  let numItems := max - min + 1
  if 2 ≤ numItems ∧ numItems < kMaxNumItems then do
    let g ← (initial min numItems zipfianConst).retune numItems
    let r ← g.next u
    some r.2
  else none

/-- The generator after calls of `Next()` with the given draws. -/
def afterDraws (draws : List ℝ) (g : ZipfianGenerator) : Option ZipfianGenerator :=
  draws.foldlM (fun g u => (g.next u).map Prod.snd) g

/-! ### The incremental sum -/

theorem zetaLoop_eq (θ : ℝ) (k m : ℕ) :
    zetaLoop θ k (m + 1) (zetaSum θ m) = zetaSum θ (m + k) := by
  induction k generalizing m with
  | zero => rfl
  | succ k ih => rw [zetaLoop, ← zetaSum_succ, ih, Nat.add_right_comm, Nat.add_assoc]

/-- `Zeta` extends a partial sum of the zeta series to a longer one. -/
theorem zeta_eq {lastNum curNum : UInt64} (h : lastNum ≤ curNum) (θ : ℝ) :
    zeta lastNum curNum θ (zetaSum θ lastNum.toNat) = zetaSum θ curNum.toNat := by
  rw [zeta, zetaLoop_eq, Nat.add_sub_cancel' (UInt64.le_iff_toNat_le.1 h)]

theorem zeta_two (θ : ℝ) : zeta 0 2 θ 0 = zetaSum θ 2 := by
  have h := zeta_eq (show (0 : UInt64) ≤ 2 by decide) θ
  rwa [show (0 : UInt64).toNat = 0 from rfl, zetaSum_zero] at h

/-! ### The members -/

/-- The members of a generator that was built for `m` items and whose sum has `n` terms, but for
`eta_`. -/
structure Summed (base : UInt64) (θ : ℝ) (m n : ℕ) (g : ZipfianGenerator) : Prop where
  numItems : g.numItems.toNat = m
  base : g.base = base
  theta : g.theta = θ
  zetaN : g.zetaN = zetaSum θ n
  alpha : g.alpha = 1 / (1 - θ)
  zeta2 : g.zeta2 = zetaSum θ 2
  nForZeta : g.nForZeta.toNat = n

/-- The members with `eta_`: a slope for the point at which the special cases stop. -/
structure Tuned (base : UInt64) (θ : ℝ) (m n : ℕ) (g : ZipfianGenerator) : Prop
    extends g.Summed base θ m n where
  eta : g.eta = powerSlope (2 / m) (1 - θ) (zetaSum θ 2 / zetaSum θ n)

/-- The rank that the closed formula gives to the draw `u`, for `n` items. -/
def formulaRank (θ : ℝ) (n : ℕ) (u : ℝ) : ℕ :=
  ⌊n * powerCurve (powerSlope (2 / n) (1 - θ) (zetaSum θ 2 / zetaSum θ n)) (1 - θ) u⌋₊

/-- The rank that the closed formula of a generator built for `m` items gives to the draw `u`, for
`n` items. -/
def grownRank (θ : ℝ) (m n : ℕ) (u : ℝ) : ℕ :=
  ⌊n * powerCurve (powerSlope (2 / m) (1 - θ) (zetaSum θ 2 / zetaSum θ n)) (1 - θ) u⌋₊

variable {base num min max : UInt64} {θ u : ℝ} {m n : ℕ} {g : ZipfianGenerator}

theorem Tuned.withLast (h : g.Tuned base θ m n) (v : UInt64) :
    Tuned base θ m n { g with lastValue := v } :=
  ⟨⟨h.numItems, h.base, h.theta, h.zetaN, h.alpha, h.zeta2, h.nForZeta⟩, h.eta⟩

theorem Summed.retune (h : g.Summed base θ m n) (hnum : g.nForZeta ≤ num) :
    ∃ g', g.retune num = some g' ∧ g'.Tuned base θ m num.toNat := by
  have hzeta : zeta g.nForZeta num g.theta g.zetaN = zetaSum θ num.toNat := by
    rw [h.theta, h.zetaN, ← h.nForZeta]
    exact zeta_eq hnum θ
  rw [ZipfianGenerator.retune, raiseZeta, if_pos hnum]
  refine ⟨_, rfl, ⟨h.numItems, h.base, h.theta, hzeta, h.alpha, h.zeta2, rfl⟩, ?_⟩
  simp only [etaOf, h.numItems, h.theta, h.zeta2, powerSlope, ← hzeta]

theorem Tuned.next (h : g.Tuned base θ n n) (h2 : 2 ≤ n) (hmax : n < kMaxNumItems.toNat) (u : ℝ) :
    g.next u = some (g.value g.numItems u, { g with lastValue := g.value g.numItems u }) := by
  have hnum : 2 ≤ g.numItems ∧ g.numItems < kMaxNumItems := by
    rw [UInt64.le_iff_toNat_le, UInt64.lt_iff_toNat_lt, h.numItems]
    exact ⟨h2, hmax⟩
  have hgrow : ¬ g.nForZeta < g.numItems := by
    rw [UInt64.lt_iff_toNat_lt, h.numItems, h.nForZeta]
    exact lt_irrefl n
  rw [ZipfianGenerator.next, ZipfianGenerator.nextOf, if_pos hnum, if_neg hgrow, Option.map_some]

/-- The members after the constructor and some draws. -/
theorem tuned_construct (hle : min ≤ max) (hn : max.toNat - min.toNat + 1 = n) (h2 : 2 ≤ n)
    (hmax : n < kMaxNumItems.toNat) (θ u₀ : ℝ) (draws : List ℝ) :
    ∃ g, (construct min max θ u₀).bind (afterDraws draws) = some g ∧ g.Tuned min θ n n := by
  have hitems : (max - min + 1).toNat = n := by
    have hone : (1 : UInt64).toNat = 1 := rfl
    have hbound : kMaxNumItems.toNat < 2 ^ 64 := kMaxNumItems.toNat_lt
    rw [UInt64.toNat_add, UInt64.toNat_sub_of_le _ _ hle, hone, hn, Nat.mod_eq_of_lt (by omega)]
  have hassert : 2 ≤ max - min + 1 ∧ max - min + 1 < kMaxNumItems := by
    rw [UInt64.le_iff_toNat_le, UInt64.lt_iff_toNat_lt, hitems]
    exact ⟨h2, hmax⟩
  have hdraws : ∀ {g : ZipfianGenerator}, g.Tuned min θ n n →
      ∃ g', afterDraws draws g = some g' ∧ g'.Tuned min θ n n := by
    induction draws with
    | nil => exact fun {g} hg => ⟨g, rfl, hg⟩
    | cons u draws ih =>
      intro g hg
      obtain ⟨g', hg', htuned⟩ := ih (hg.withLast (g.value g.numItems u))
      refine ⟨g', ?_, htuned⟩
      rw [afterDraws, List.foldlM_cons, hg.next h2 hmax]
      exact hg'
  have hinitial : Summed min θ n 0 (initial min (max - min + 1) θ) :=
    ⟨hitems, rfl, rfl, (zetaSum_zero θ).symm, rfl, zeta_two θ, rfl⟩
  obtain ⟨g, hg, htuned⟩ := hinitial.retune UInt64.zero_le
  rw [hitems] at htuned
  obtain ⟨g', hg', htuned'⟩ := hdraws (htuned.withLast (g.value g.numItems u₀))
  refine ⟨g', ?_, htuned'⟩
  simp only [construct, if_pos hassert, hg, htuned.next h2 hmax, Option.bind_eq_bind,
    Option.bind_some]
  exact hg'

/-- A new generator for the numbers from zero on. -/
theorem tuned_fresh {a : UInt64} (ha : 2 ≤ a) (hmax : a < kMaxNumItems) (θ u₀ : ℝ) :
    ∃ g, construct 0 (a - 1) θ u₀ = some g ∧ g.Tuned 0 θ a.toNat a.toNat := by
  have htwo : 2 ≤ a.toNat := UInt64.le_iff_toNat_le.1 ha
  have hone : (1 : UInt64).toNat = 1 := rfl
  have hzero : (0 : UInt64).toNat = 0 := rfl
  have hitems : (a - 1).toNat - (0 : UInt64).toNat + 1 = a.toNat := by
    rw [UInt64.toNat_sub_of_le _ _ (UInt64.le_iff_toNat_le.2 (by omega)), hone, hzero]
    omega
  obtain ⟨g, hg, htuned⟩ := tuned_construct UInt64.zero_le hitems htwo
    (UInt64.lt_iff_toNat_lt.1 hmax) θ u₀ []
  rw [show afterDraws [] = some from rfl, Option.bind_fun_some] at hg
  exact ⟨g, hg, htuned⟩

/-- The constructor's assertion. -/
theorem of_construct (hg : construct min max θ u = some g) :
    2 ≤ max - min + 1 ∧ max - min + 1 < kMaxNumItems := by
  by_contra hassert
  rw [construct, if_neg hassert] at hg
  cases hg

end ZipfianGenerator

end

end YcsbC
