import YcsbC.Core.CoreWorkload
import YcsbC.Core.ZipfianGrowth

/-!
# The latest distribution

`SkewedLatestGenerator` returns numbers that are close to the last one of a counter, the closest
ones most often (`core/skewed_latest_generator.h`). It subtracts from the last number of the counter
what a zipfian generator returns for that many items. The zipfian generator is built for the numbers
that there are at first and grows with the counter. What it returns never exceeds the number of
items, so the difference does not wrap around, and the rejection loop of `NextTransactionKey` takes
it.

## Main definitions

* `SkewedLatestGenerator`, `SkewedLatestGenerator.construct`, `next`: the generator.
* `SkewedLatestGenerator.Reached`: the generator after steps of its counter and calls of `Next`.
* `SkewedLatestGenerator.Grown`: what its zipfian generator holds.

## Main results

* `ZipfianGenerator.Tuned.value_le`: what a zipfian generator returns after growth.
* `latest_never_underflows`: the numbers that are returned.
-/

namespace YcsbC

open ZipfianGenerator

noncomputable section

/-- `SkewedLatestGenerator`, without its reference to the counter. -/
structure SkewedLatestGenerator where
  zipfian : ZipfianGenerator
  last : UInt64

namespace SkewedLatestGenerator

/-- `Next`, with the counter `basis_`: `none` when an assertion fails. -/
def next (basis : CounterGenerator) (u : ℝ) (g : SkewedLatestGenerator) :
    Option (UInt64 × SkewedLatestGenerator) :=
  let max := basis.last
  (g.zipfian.nextOf max u).map fun r => (max - r.1, ⟨r.2, max - r.1⟩)

/-- The constructor, which draws twice; `last_` has no value before the second draw. -/
def construct (basis : CounterGenerator) (zipfianConst u₀ u₁ : ℝ) :
    Option SkewedLatestGenerator := do
  let zipfian ← ZipfianGenerator.construct 0 (basis.last - 1) zipfianConst u₀
  let r ← next basis u₁ ⟨zipfian, 0⟩
  some r.2

/-- The counter and the generator after a history: the generator is built when the counter has
handed out two numbers at least; then the counter grows, and `Next` is called. -/
inductive Reached (θ : ℝ) : CounterGenerator → SkewedLatestGenerator → Prop
  | construct {basis : CounterGenerator} {g : SkewedLatestGenerator} {u₀ u₁ : ℝ}
      (h2 : 2 ≤ basis.last) (hmax : basis.last < kMaxNumItems)
      (hg : construct basis θ u₀ u₁ = some g) : Reached θ basis g
  | grow {basis basis' : CounterGenerator} {g : SkewedLatestGenerator} (h : Reached θ basis g)
      (hle : basis.last ≤ basis'.last) (hmax : basis'.last < kMaxNumItems) : Reached θ basis' g
  | next {basis : CounterGenerator} {g g' : SkewedLatestGenerator} {v : UInt64} {u : ℝ}
      (h : Reached θ basis g) (hnext : g.next basis u = some (v, g')) : Reached θ basis g'

end SkewedLatestGenerator

/-- What a zipfian generator returns for `n` items is at most `n`, however much it has grown. -/
theorem ZipfianGenerator.Tuned.value_le {g : ZipfianGenerator} {num : UInt64} {θ u : ℝ} {m : ℕ}
    (h : g.Tuned 0 θ m num.toNat) (hθ : 0 < θ ∧ θ < 1) (hm : 2 ≤ m) (hmn : m ≤ num.toNat)
    (hu : u < 1) : g.value num u ≤ num := by
  rw [UInt64.le_iff_toNat_le]
  obtain ⟨-, hv⟩ | ⟨-, -, hv⟩ | ⟨hstop, hv⟩ := h.grown_cases rfl hθ hm hmn hu
  · omega
  · omega
  · rw [hv]
    exact grownRank_le hθ hm hmn hu hstop

namespace SkewedLatestGenerator

variable {θ : ℝ} {basis : CounterGenerator} {g : SkewedLatestGenerator}

/-- The zipfian generator is built for some number of items and has grown with the counter. -/
structure Grown (θ : ℝ) (basis : CounterGenerator) (g : SkewedLatestGenerator) : Prop where
  lt : basis.last < kMaxNumItems
  tuned : ∃ m l, g.zipfian.Tuned 0 θ m l ∧ 2 ≤ m ∧ m ≤ l ∧ l ≤ basis.last.toNat

theorem Grown.next (h : g.Grown θ basis) :
    ∃ (z : ZipfianGenerator) (m : ℕ), z.Tuned 0 θ m basis.last.toNat ∧ 2 ≤ m ∧
      m ≤ basis.last.toNat ∧
      ∀ u, g.zipfian.nextOf basis.last u =
        some (z.value basis.last u, { z with lastValue := z.value basis.last u }) := by
  obtain ⟨m, l, htuned, hm, hml, hl⟩ := h.tuned
  have h2 : 2 ≤ basis.last := UInt64.le_iff_toNat_le.2 (hm.trans (hml.trans hl))
  obtain ⟨z, hz, hnext⟩ := htuned.nextOf hl h2 h.lt
  exact ⟨z, m, hz, hm, hml.trans hl, hnext⟩

theorem Grown.of_next {v : UInt64} {g' : SkewedLatestGenerator} {u : ℝ} (h : g.Grown θ basis)
    (hnext : g.next basis u = some (v, g')) : g'.Grown θ basis := by
  obtain ⟨z, m, hz, hm, hle, hzipfian⟩ := h.next
  rw [SkewedLatestGenerator.next, hzipfian, Option.map_some] at hnext
  cases hnext
  exact ⟨h.lt, m, _, hz.withLast _, hm, hle, le_rfl⟩

/-- The constructor passes its assertions as soon as the counter has handed out two numbers. -/
theorem exists_construct (h2 : 2 ≤ basis.last) (hmax : basis.last < kMaxNumItems) (θ u₀ u₁ : ℝ) :
    ∃ g, construct basis θ u₀ u₁ = some g ∧ g.Grown θ basis := by
  obtain ⟨zipfian, hzipfian, htuned⟩ := tuned_fresh h2 hmax θ u₀
  have hstart : Grown θ basis ⟨zipfian, 0⟩ :=
    ⟨hmax, _, _, htuned, UInt64.le_iff_toNat_le.1 h2, le_rfl, le_rfl⟩
  obtain ⟨z, m, hz, hm, hle, hnext⟩ := hstart.next
  rw [construct, hzipfian]
  simp only [SkewedLatestGenerator.next, hnext, Option.map_some, Option.bind_eq_bind,
    Option.bind_some]
  exact ⟨_, rfl, hmax, m, _, hz.withLast _, hm, hle, le_rfl⟩

/-- Every generator that is reached has grown with its counter. -/
theorem Reached.grown (h : Reached θ basis g) : g.Grown θ basis := by
  induction h with
  | construct h2 hmax hg =>
    obtain ⟨g', hg', hgrown⟩ := exists_construct h2 hmax θ _ _
    rw [hg'] at hg
    cases hg
    exact hgrown
  | grow _ hle hmax ih =>
    obtain ⟨m, l, htuned, hm, hml, hl⟩ := ih.tuned
    exact ⟨hmax, m, l, htuned, hm, hml, hl.trans (UInt64.le_iff_toNat_le.1 hle)⟩
  | next _ hnext ih => exact ih.of_next hnext

end SkewedLatestGenerator

open SkewedLatestGenerator

/-- **The latest distribution does not underflow.** After any history of growth and of calls, `Next`
passes the assertions; what it subtracts is at most the last number of the counter, so the
difference does not wrap around and is at most that number. A workload with this generator returns
its key after one round of the rejection loop, also when the counter has grown in the meantime. -/
theorem latest_never_underflows {θ : ℝ} (hθ : 0 < θ ∧ θ < 1) {basis : CounterGenerator}
    {g : SkewedLatestGenerator} (h : Reached θ basis g) {u : ℝ} (hu : 0 ≤ u ∧ u < 1) :
    ∃ z g', (∃ zipfian, g.zipfian.nextOf basis.last u = some (z, zipfian)) ∧
      g.next basis u = some (basis.last - z, g') ∧ z ≤ basis.last ∧
      (basis.last - z).toNat = basis.last.toNat - z.toNat ∧
      (∀ basis' : CounterGenerator, basis.last ≤ basis'.last → basis.last - z ≤ basis'.last) ∧
      ∀ (w : CoreWorkload) (draws : Stream' UInt64) (fuel : ℕ), w.insertKeySequence = basis →
        w.draws.keyChooser = .latest draws → draws.head = z →
        (CoreWorkload.nextTransactionKey (fuel + 1)).run w =
          (some (w.buildKeyName (basis.last - z)), w.keyDrawn) := by
  obtain ⟨z, m, hz, hm, hle, hnext⟩ := h.grown.next
  have hvalue := hz.value_le hθ hm hle hu.2
  have hsub := UInt64.toNat_sub_of_le _ _ hvalue
  have hdiff : basis.last - z.value basis.last u ≤ basis.last := by
    rw [UInt64.le_iff_toNat_le, hsub]
    exact Nat.sub_le _ _
  refine ⟨z.value basis.last u,
    ⟨{ z with lastValue := z.value basis.last u }, basis.last - z.value basis.last u⟩,
    ⟨_, hnext u⟩, ?_, hvalue, hsub,
    fun basis' hbasis' => UInt64.le_trans hdiff hbasis', fun w draws fuel hw hchooser hdraw => ?_⟩
  · rw [SkewedLatestGenerator.next, hnext, Option.map_some]
  · have hget : w.draws.keyChooser.get w.insertKeySequence.last 0 =
        basis.last - z.value basis.last u := by
      rw [hchooser, hw, ← hdraw]
      rfl
    rw [CoreWorkload.run_nextTransactionKey_succ, hget, hw, if_neg (UInt64.not_lt.2 hdiff)]

/-- The generator that is built for two items returns, when the counter has handed out a third, a
number that is at most three. -/
theorem latest_never_underflows_two_to_three :
    ∃ (g g' : SkewedLatestGenerator) (z : UInt64),
      SkewedLatestGenerator.construct ⟨3⟩ kZipfianConst 0 0 = some g ∧
        g.next ⟨4⟩ 0 = some (CounterGenerator.last ⟨4⟩ - z, g') ∧
          z ≤ CounterGenerator.last ⟨4⟩ := by
  have htwo : 2 ≤ CounterGenerator.last ⟨3⟩ := by decide
  have hmax : CounterGenerator.last ⟨3⟩ < kMaxNumItems := by decide
  obtain ⟨g, hg, -⟩ := exists_construct htwo hmax kZipfianConst 0 0
  have hreached : Reached kZipfianConst ⟨4⟩ g :=
    .grow (.construct htwo hmax hg) (by decide) (by decide)
  obtain ⟨z, g', -, hnext, hz, -⟩ :=
    latest_never_underflows kZipfianConst_mem hreached ⟨le_rfl, one_pos⟩
  exact ⟨g, g', z, hg, hnext, hz⟩

end

end YcsbC
