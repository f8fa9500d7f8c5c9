import YcsbC.Core.CoreWorkload
import YcsbC.Core.ZipfianDistribution

/-!
# The scrambled zipfian distribution

`ScrambledZipfianGenerator` spreads the ranks of a zipfian generator over its range: it returns the
hash of a rank, modulo the number of items (`core/scrambled_zipfian_generator.h`). `Init` builds it
for more items than there are records, to leave room for the keys that will be inserted, and
`NextTransactionKey` draws again as long as the number is not that of a record. Every rank is drawn
for some value of `RandomDouble`; so the loop can end iff the hash takes some rank to a record.

## Main definitions

* `ScrambledZipfianGenerator`, `construct`, `next`: the generator.
* `CoreWorkload.newKeys`: the number of new keys that `Init` makes room for, with the rounding of
  `double`.
* `CoreWorkload.initZipfian`: the generator that `Init` builds.
* `ScrambledZipfianGenerator.Returns`: the numbers that the calls of `Next` return.
* `ScrambledZipfianGenerator.CanLeaveLoop`: some draws end the rejection loop.

## Main results

* `canLeaveLoop_iff`: the loop can end iff some rank is taken to an accepted number.
* `rejection_loop_can_end_iff`: this for the generator that `Init` builds.
-/

namespace YcsbC

open ZipfianGenerator (kZipfianConst kZipfianConst_mem kMaxNumItems)

noncomputable section

/-- `ScrambledZipfianGenerator`. -/
structure ScrambledZipfianGenerator where
  base : UInt64
  numItems : UInt64
  generator : ZipfianGenerator

namespace ScrambledZipfianGenerator

/-- `Scramble`. -/
def scramble (value : UInt64) (g : ScrambledZipfianGenerator) : UInt64 :=
  g.base + Utils.fnvHash64 value % g.numItems

/-- `Next`, for the value `u` of `RandomDouble()`: `none` when an assertion fails. -/
def next (u : ℝ) (g : ScrambledZipfianGenerator) : Option (UInt64 × ScrambledZipfianGenerator) :=
  (g.generator.next u).map fun r => (g.scramble r.1, { g with generator := r.2 })

/-- The constructor; that of `generator_` draws once. -/
def construct (min max : UInt64) (zipfianConst u : ℝ) : Option ScrambledZipfianGenerator :=
  (ZipfianGenerator.construct min max zipfianConst u).map fun generator =>
    ⟨min, max - min + 1, generator⟩

/-- The generator after calls of `Next` with the given draws. -/
def afterDraws (draws : List ℝ) (g : ScrambledZipfianGenerator) :
    Option ScrambledZipfianGenerator :=
  draws.foldlM (fun g u => (g.next u).map Prod.snd) g

/-- The numbers that the calls of `Next` return for the values `us` of `RandomDouble()`. -/
def Returns (us : Stream' ℝ) (draws : Stream' UInt64) (g : ScrambledZipfianGenerator) : Prop :=
  ∃ gs : Stream' ScrambledZipfianGenerator, gs.get 0 = g ∧
    ∀ i, (gs.get i).next (us.get i) = some (draws.get i, gs.get (i + 1))

/-- For some values of `RandomDouble()`, `NextTransactionKey` returns. -/
def CanLeaveLoop (w : CoreWorkload) (g : ScrambledZipfianGenerator) : Prop :=
  ∃ us draws, (∀ i, 0 ≤ us.get i ∧ us.get i < 1) ∧ g.Returns us draws ∧
    ∃ fuel, ((CoreWorkload.nextTransactionKey fuel).run
      { w with draws := { w.draws with keyChooser := .zipfian draws } }).1.isSome

end ScrambledZipfianGenerator

/-- A `double` that is cast to `int`: `none` when its integral part is no `int`. -/
def doubleToInt (x : Float) : Option ℤ :=
  -- the infinities are taken to integers that are no `int`
  let n := x.toModel.unpack.toInt (-2 ^ 31 - 1) (2 ^ 31)
  if x.isNaN = false ∧ -2 ^ 31 ≤ n ∧ n < 2 ^ 31 then some n else none

theorem doubleToInt_bounds {x : Float} {n : ℤ} (h : doubleToInt x = some n) :
    -2 ^ 31 ≤ n ∧ n < 2 ^ 31 := by
  rw [doubleToInt] at h
  split_ifs at h with hint
  obtain rfl := Option.some.inj h
  exact hint.2

namespace CoreWorkload

/-- `new_keys` of `Init`: both products are those of `double`, which round. -/
def newKeys (opCount : ℤ) (insertProportion : Float) : Option ℤ :=
  doubleToInt (Float.ofInt opCount * insertProportion * 2)

/-- The branch of `Init` for the request distribution `zipfian`: `none` when `new_keys` is no `int`
or an assertion fails. -/
def initZipfian (recordCount : UInt64) (opCount : ℤ) (insertProportion : Float) (u : ℝ) :
    Option ScrambledZipfianGenerator :=
  (newKeys opCount insertProportion).bind fun newKeys =>
    ScrambledZipfianGenerator.construct 0 (recordCount + UInt64.ofInt newKeys - 1) kZipfianConst u

-- the first product is rounded to 28.999999999999996
example : newKeys 100 0.29 = some 57 := by decide +kernel

end CoreWorkload

namespace ScrambledZipfianGenerator

variable {g g' : ScrambledZipfianGenerator} {u u₀ : ℝ} {n : ℕ} {max v : UInt64}

/-- A generator for the numbers from zero on that has not grown. -/
structure Fresh (n : ℕ) (g : ScrambledZipfianGenerator) : Prop where
  two_le : 2 ≤ n
  lt : n < kMaxNumItems.toNat
  base : g.base = 0
  numItems : g.numItems.toNat = n
  tuned : g.generator.Tuned 0 kZipfianConst n n

/-- The generator after `Next` has drawn the rank `v`. -/
def drawn (v : UInt64) (g : ScrambledZipfianGenerator) : ScrambledZipfianGenerator :=
  { g with generator := { g.generator with lastValue := v } }

/-- The rank that is drawn for the value `u`. -/
def rank (u : ℝ) (g : ScrambledZipfianGenerator) : UInt64 :=
  g.generator.value g.generator.numItems u

theorem Fresh.drawn (h : g.Fresh n) (v : UInt64) : (g.drawn v).Fresh n :=
  ⟨h.two_le, h.lt, h.base, h.numItems, h.tuned.withLast v⟩

theorem Fresh.next (h : g.Fresh n) (u : ℝ) :
    g.next u = some (g.scramble (g.rank u), g.drawn (g.rank u)) := by
  rw [ScrambledZipfianGenerator.next, h.tuned.next h.two_le h.lt, Option.map_some]
  rfl

theorem Fresh.afterDraws (h : g.Fresh n) (us : List ℝ) :
    ∃ g', g.afterDraws us = some g' ∧ g'.Fresh n ∧ g'.numItems = g.numItems := by
  induction us generalizing g with
  | nil => exact ⟨g, rfl, h, rfl⟩
  | cons u us ih =>
    obtain ⟨g', hg', hfresh, hitems⟩ := ih (h.drawn (g.rank u))
    refine ⟨g', ?_, hfresh, hitems⟩
    rw [ScrambledZipfianGenerator.afterDraws, List.foldlM_cons, h.next]
    exact hg'

theorem Fresh.scramble (h : g.Fresh n) (v : UInt64) :
    g.scramble v = Utils.fnvHash64 v % g.numItems := by
  rw [ScrambledZipfianGenerator.scramble, h.base, UInt64.zero_add]

theorem Fresh.exists_rank_eq_iff (h : g.Fresh n) (v : UInt64) :
    (∃ u, 0 ≤ u ∧ u < 1 ∧ g.rank u = v) ↔ v < g.numItems := by
  have hrange : n ≤ 2 ^ 64 := (h.lt.trans kMaxNumItems.toNat_lt).le
  have htwo := h.two_le
  rw [UInt64.lt_iff_toNat_lt, h.numItems]
  constructor
  · rintro ⟨u, -, hu, rfl⟩
    rw [rank]
    obtain ⟨-, hv⟩ | ⟨-, -, hv⟩ | ⟨-, hv, -, hlt⟩ :=
      h.tuned.value_cases_zero kZipfianConst_mem h.two_le hrange hu
    all_goals omega
  · intro hv
    obtain ⟨u, hu0, hu1, hvalue⟩ :=
      h.tuned.exists_value_eq kZipfianConst_mem h.two_le hrange hv
    exact ⟨u, hu0, hu1, UInt64.toNat_inj.1 hvalue⟩

/-- The numbers that are returned are those of the ranks that are drawn. -/
theorem Fresh.get_of_returns (h : g.Fresh n) {us : Stream' ℝ} {draws : Stream' UInt64}
    (hreturns : g.Returns us draws) (i : ℕ) :
    draws.get i = g.scramble (g.rank (us.get i)) := by
  obtain ⟨gs, hstart, hnext⟩ := hreturns
  -- the calls of `Next` change `last_value_` only
  have hlast : ∀ i, ∃ l, gs.get i = g.drawn l := by
    intro i
    induction i with
    | zero => exact ⟨g.generator.lastValue, hstart⟩
    | succ i ih =>
      obtain ⟨l, hl⟩ := ih
      have hi := hnext i
      rw [hl, (h.drawn l).next] at hi
      exact ⟨_, (Prod.ext_iff.1 (Option.some.inj hi)).2.symm⟩
  obtain ⟨l, hl⟩ := hlast i
  have hi := hnext i
  rw [hl, (h.drawn l).next] at hi
  exact (Prod.ext_iff.1 (Option.some.inj hi)).1.symm

/-- The same rank can be drawn again and again. -/
theorem Fresh.returns_const (h : g.Fresh n) (hrank : g.rank u = v) :
    g.Returns (.const u) (.const (g.scramble v)) := by
  refine ⟨.cons g (.const (g.drawn v)), rfl, fun i => ?_⟩
  subst hrank
  cases i with
  | zero => exact h.next u
  | succ i => exact (h.drawn _).next u

/-- The rejection loop can end iff some rank is taken to an accepted number. -/
theorem Fresh.canLeaveLoop_iff (h : g.Fresh n) (w : CoreWorkload) :
    g.CanLeaveLoop w ↔
      ∃ v < g.numItems, Utils.fnvHash64 v % g.numItems ≤ w.insertKeySequence.last := by
  constructor
  · rintro ⟨us, draws, hus, hreturns, fuel, hsome⟩
    obtain ⟨i, -, haccept⟩ := (CoreWorkload.isSome_nextTransactionKey fuel _).1 hsome
    refine ⟨g.rank (us.get i), (h.exists_rank_eq_iff _).1 ⟨_, (hus i).1, (hus i).2, rfl⟩, ?_⟩
    rw [← h.scramble, ← h.get_of_returns hreturns]
    exact haccept
  · rintro ⟨v, hv, haccept⟩
    obtain ⟨u, hu0, hu1, hrank⟩ := (h.exists_rank_eq_iff v).2 hv
    refine ⟨.const u, .const (g.scramble v), fun _ => ⟨hu0, hu1⟩, h.returns_const hrank, 1, ?_⟩
    rw [CoreWorkload.isSome_nextTransactionKey]
    exact ⟨0, one_pos, (h.scramble v).trans_le haccept⟩

end ScrambledZipfianGenerator

open ScrambledZipfianGenerator CoreWorkload

theorem fresh_initZipfian {recordCount : UInt64} {opCount : ℤ} {insertProportion : Float} {u₀ : ℝ}
    {g : ScrambledZipfianGenerator}
    (hinit : initZipfian recordCount opCount insertProportion u₀ = some g) :
    ∃ k, newKeys opCount insertProportion = some k ∧ g.Fresh g.numItems.toNat ∧
      g.numItems = recordCount + UInt64.ofInt k := by
  obtain ⟨k, hk, hinit⟩ := Option.bind_eq_some_iff.1 hinit
  refine ⟨k, hk, ?_⟩
  rw [construct, Option.map_eq_some_iff] at hinit
  obtain ⟨generator, hgenerator, rfl⟩ := hinit
  generalize recordCount + UInt64.ofInt k = a at hgenerator ⊢
  have hitems : a - 1 - 0 + 1 = a := by rw [UInt64.sub_zero, UInt64.sub_add_cancel]
  obtain ⟨htwo, hmax⟩ := ZipfianGenerator.of_construct hgenerator
  rw [hitems] at htwo hmax
  obtain ⟨generator', hgenerator', htuned⟩ :=
    ZipfianGenerator.tuned_fresh htwo hmax kZipfianConst u₀
  cases hgenerator'.symm.trans hgenerator
  rw [← hitems] at htuned
  exact ⟨⟨hitems.symm ▸ UInt64.le_iff_toNat_le.1 htwo,
    hitems.symm ▸ UInt64.lt_iff_toNat_lt.1 hmax, rfl, rfl, htuned⟩, hitems⟩

/-- The number of items, as an integer: the assertions exclude a sum that is negative. -/
theorem numItems_initZipfian {p : Properties} (hp : 1 ≤ p.recordCount ∧ p.recordCount < 2 ^ 31)
    {opCount : ℤ} {insertProportion : Float} {u₀ : ℝ} {g : ScrambledZipfianGenerator}
    (hinit : initZipfian (UInt64.ofInt p.recordCount) opCount insertProportion u₀ = some g) :
    ∃ k, newKeys opCount insertProportion = some k ∧ g.Fresh g.numItems.toNat ∧
      (g.numItems.toNat : ℤ) = p.recordCount + k := by
  obtain ⟨k, hk, hfresh, hitems⟩ := fresh_initZipfian hinit
  have hint := doubleToInt_bounds hk
  refine ⟨k, hk, hfresh, ?_⟩
  have hmax : g.numItems.toNat < 2 ^ 40 := hfresh.lt.trans (by decide)
  rw [hitems, ← UInt64.ofInt_add, UInt64.ofInt, UInt64.toNat_ofNat'] at hmax ⊢
  omega

/-- **When the rejection loop can end.** `Init` accepts the settings and builds the generator for as
many items as there are records and new keys. After any calls of `Next`, some sequence of draws lets
`NextTransactionKey` return iff the hash takes some rank, modulo the number of items, to the number
of a record. Without new keys it always does. -/
theorem rejection_loop_can_end_iff {p : Properties}
    (hp : 1 ≤ p.recordCount ∧ p.recordCount < 2 ^ 31) {opCount : ℤ} {insertProportion : Float}
    {u₀ : ℝ} {g₀ : ScrambledZipfianGenerator}
    (hinit : initZipfian (UInt64.ofInt p.recordCount) opCount insertProportion u₀ = some g₀)
    (us : List ℝ) :
    ∃ g k, g₀.afterDraws us = some g ∧ newKeys opCount insertProportion = some k ∧
      (g.numItems.toNat : ℤ) = p.recordCount + k ∧
      2 ≤ g.numItems.toNat ∧ ∀ w : CoreWorkload, w.Configured p →
        (g.CanLeaveLoop w ↔ ∃ v < g.numItems,
          ((Utils.fnvHash64 v % g.numItems).toNat : ℤ) ≤ p.recordCount - 1) ∧
        (k ≤ 0 → g.CanLeaveLoop w) := by
  obtain ⟨k, hk, hfresh₀, hcount⟩ := numItems_initZipfian hp hinit
  obtain ⟨g, hg, hfresh, hitems⟩ := hfresh₀.afterDraws us
  have htwo := hfresh.two_le
  rw [← hitems] at hcount htwo
  refine ⟨g, k, hg, hk, hcount, htwo, fun w hw => ?_⟩
  have hone : 1 ≤ UInt64.ofInt p.recordCount := by
    rw [UInt64.le_iff_toNat_le, UInt64.ofInt, UInt64.toNat_ofNat', UInt64.toNat_one]
    omega
  have hlast : ∀ x : UInt64,
      x ≤ w.insertKeySequence.last ↔ (x.toNat : ℤ) ≤ p.recordCount - 1 := by
    intro x
    rw [hw.last, UInt64.le_iff_toNat_le, UInt64.toNat_sub_of_le _ _ hone, UInt64.toNat_one,
      UInt64.ofInt, UInt64.toNat_ofNat']
    omega
  have hiff : g.CanLeaveLoop w ↔ ∃ v < g.numItems,
      ((Utils.fnvHash64 v % g.numItems).toNat : ℤ) ≤ p.recordCount - 1 := by
    simp only [hfresh.canLeaveLoop_iff, hlast]
  refine ⟨hiff, fun hnone => hiff.2 ⟨0, ?_, ?_⟩⟩
  · rw [UInt64.lt_iff_toNat_lt, UInt64.toNat_zero]
    omega
  · have hmod := Nat.mod_lt (Utils.fnvHash64 0).toNat (zero_lt_two.trans_le htwo)
    rw [UInt64.toNat_mod]
    omega

/-- Five records and, with 18 operations and an insert proportion of a half, 18 new keys. -/
theorem initZipfian_five :
    ∃ g, initZipfian (UInt64.ofInt 5) 18 0.5 0 = some g ∧ g.Fresh 23 ∧ g.numItems = 23 := by
  have hkeys : newKeys 18 0.5 = some 18 := by decide +kernel
  obtain ⟨generator, hgenerator, htuned⟩ :=
    ZipfianGenerator.tuned_fresh (a := 23) (by decide) (by decide) kZipfianConst 0
  refine ⟨⟨0, 23, generator⟩, ?_, ⟨by decide, by decide, rfl, rfl, htuned⟩, rfl⟩
  rw [initZipfian, hkeys, Option.bind_some, construct]
  exact Option.map_eq_some_iff.2 ⟨generator, hgenerator, rfl⟩

/-- With five records and 18 new keys, the loop ends for some draws iff the hash takes one of the 23
ranks to one of the five records. -/
theorem rejection_loop_can_end_iff_five :
    ∃ g₀, initZipfian (UInt64.ofInt 5) 18 0.5 0 = some g₀ ∧ ∃ g, g₀.afterDraws [] = some g ∧
      (g.CanLeaveLoop (init ⟨[], 10, 5, 0, true, false, true⟩ default) ↔
        ∃ v < g.numItems, ((Utils.fnvHash64 v % g.numItems).toNat : ℤ) ≤ 5 - 1) := by
  obtain ⟨g₀, hinit, -⟩ := initZipfian_five
  obtain ⟨g, _, hg, -, -, -, hends⟩ :=
    rejection_loop_can_end_iff (p := ⟨[], 10, 5, 0, true, false, true⟩) (by decide) hinit []
  exact ⟨g₀, hinit, g, hg, (hends _ (configured_init _ _)).1⟩

/-- The hash takes none of the 23 ranks to one of the five records, so no sequence of draws lets
`NextTransactionKey` return. -/
theorem rejection_loop_never_ends :
    ∃ g, initZipfian (UInt64.ofInt 5) 18 0.5 0 = some g ∧ g.numItems = 23 ∧
      (¬ ∃ v < (23 : UInt64), g.scramble v ≤ 5 - 1) ∧
      ∀ (p : Properties) (w : CoreWorkload), p.recordCount = 5 → w.Configured p →
        ¬ g.CanLeaveLoop w := by
  have hranks : ∀ v < 23, 5 ≤ (Utils.fnvHash64 (.ofNat v) % 23).toNat := by decide
  have hnone : ¬ ∃ v < (23 : UInt64), Utils.fnvHash64 v % 23 ≤ 5 - 1 := by
    rintro ⟨v, hv, haccept⟩
    have hrank := hranks v.toNat (UInt64.lt_iff_toNat_lt.1 hv)
    rw [UInt64.ofNat_toNat] at hrank
    exact absurd (hrank.trans (UInt64.le_iff_toNat_le.1 haccept)) (by decide)
  obtain ⟨g, hinit, hfresh, hitems⟩ := initZipfian_five
  refine ⟨g, hinit, hitems, ?_, fun p w hp hw hends => hnone ?_⟩
  · simpa only [hfresh.scramble, hitems] using hnone
  · rw [hfresh.canLeaveLoop_iff, hw.last, hp, hitems] at hends
    exact hends

end

end YcsbC
