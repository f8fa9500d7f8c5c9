import Mathlib.Algebra.Order.BigOperators.Group.List
import Mathlib.MeasureTheory.Measure.Lebesgue.Basic

/-!
# Intervals laid end to end

A list of lengths divides a segment into intervals. A point is found by walking along the list and
subtracting the lengths from it until it is smaller than the next one; the walk ends in the one
interval that contains the point. Over the reals an interval has its length as its measure, so a
uniform draw ends in it as often as its length says.

## Main definitions

* `leftEnd`: where the `i`-th interval starts.
* `Within`: a point lies in the `i`-th interval.
* `walk`: the value at the interval in which a walk ends.

## Main results

* `exists_within`, `Within.unique`: each point of the segment lies in one interval.
* `Within.walk`: the walk ends there.
* `volume_within`, `volume_walk`: the measure of the points of an interval and of a value.
-/

namespace YcsbC

variable {K V : Type*} [AddCommGroup K] {ws : List K} {ps : List (V × K)} {i j : ℕ} {c w : K}
  {v : V}

/-- Where the `i`-th interval starts. -/
def leftEnd (ws : List K) (i : ℕ) : K := (ws.take i).sum

@[simp] theorem leftEnd_zero (ws : List K) : leftEnd ws 0 = 0 := rfl

@[simp] theorem leftEnd_cons_succ (w : K) (ws : List K) (i : ℕ) :
    leftEnd (w :: ws) (i + 1) = w + leftEnd ws i := by
  rw [leftEnd, List.take_succ_cons, List.sum_cons, leftEnd]

theorem leftEnd_succ (ws : List K) {i : ℕ} (hi : i < ws.length) :
    leftEnd ws (i + 1) = leftEnd ws i + ws[i] :=
  List.sum_take_succ ws i hi

variable [LinearOrder K]

/-- The point `c` lies in the `i`-th interval. -/
def Within (ws : List K) (i : ℕ) (c : K) : Prop :=
  i < ws.length ∧ leftEnd ws i ≤ c ∧ c < leftEnd ws (i + 1)

/-- The value at the interval in which a walk from the first interval ends. -/
def walk : List (V × K) → K → Option V
  | [], _ => none
  | (v, w) :: ps, c => if c < w then some v else walk ps (c - w)

theorem within_cons_zero : Within (w :: ws) 0 c ↔ 0 ≤ c ∧ c < w := by
  simp [Within]

variable [IsOrderedAddMonoid K]

/-- Past the first interval, the rest of a point lies in one of the others. -/
theorem within_cons_succ : Within (w :: ws) (i + 1) c ↔ Within ws i (c - w) := by
  simp only [Within, List.length_cons, Nat.add_lt_add_iff_right, leftEnd_cons_succ,
    le_sub_iff_add_le', sub_lt_iff_lt_add']

theorem leftEnd_mono (hws : ∀ w ∈ ws, 0 ≤ w) (hij : i ≤ j) : leftEnd ws i ≤ leftEnd ws j := by
  have hsub : (ws.take i).Sublist (ws.take j) := by
    rw [← Nat.min_eq_left hij, ← List.take_take]
    exact List.take_sublist i (ws.take j)
  exact hsub.sum_le_sum fun w hw => hws w (List.mem_of_mem_take hw)

/-- A point lies in one interval at most. -/
theorem Within.unique (hws : ∀ w ∈ ws, 0 ≤ w) (hi : Within ws i c) (hj : Within ws j c) :
    i = j := by
  have hle : ∀ {i j}, Within ws i c → Within ws j c → i ≤ j := by
    intro i j hi hj
    by_contra hlt
    exact absurd (hj.2.2.trans_le (leftEnd_mono hws (by omega : j + 1 ≤ i))) hi.2.1.not_gt
  exact (hle hi hj).antisymm (hle hj hi)

/-- Every point of the segment lies in an interval. -/
theorem exists_within (h0 : 0 ≤ c) (hc : c < ws.sum) : ∃ i, Within ws i c := by
  induction ws generalizing c with
  | nil => exact absurd hc h0.not_gt
  | cons w ws ih =>
    by_cases hw : c < w
    · exact ⟨0, within_cons_zero.2 ⟨h0, hw⟩⟩
    · rw [List.sum_cons, ← sub_lt_iff_lt_add'] at hc
      obtain ⟨i, hi⟩ := ih (sub_nonneg.2 (not_lt.1 hw)) hc
      exact ⟨i + 1, within_cons_succ.2 hi⟩

/-- The walk ends in the interval of its point. -/
theorem Within.walk (hps : ∀ p ∈ ps, 0 ≤ p.2) (h : Within (ps.map Prod.snd) i c) :
    walk ps c = (ps[i]?).map Prod.fst := by
  induction ps generalizing i c with
  | nil => exact absurd h.1 i.not_lt_zero
  | cons p ps ih =>
    obtain ⟨v, w⟩ := p
    have hps' : ∀ p ∈ ps, 0 ≤ p.2 := fun p hp => hps p (List.mem_cons_of_mem _ hp)
    cases i with
    | zero => exact if_pos (within_cons_zero.1 h).2
    | succ i =>
      have hrest := within_cons_succ.1 h
      have hw : ¬ c < w := by
        refine not_lt.2 (sub_nonneg.1 (le_trans ?_ hrest.2.1))
        exact leftEnd_mono (List.forall_mem_map.2 hps') i.zero_le
      rw [YcsbC.walk, if_neg hw, ih hps' hrest, List.getElem?_cons_succ]

/-- A walk that ends in some interval started before the end of the segment. -/
theorem lt_sum_of_walk (hps : ∀ p ∈ ps, 0 ≤ p.2) (h : walk ps c = some v) :
    c < (ps.map Prod.snd).sum := by
  induction ps generalizing c with
  | nil => cases h
  | cons p ps ih =>
    obtain ⟨v', w⟩ := p
    have hps' : ∀ p ∈ ps, 0 ≤ p.2 := fun p hp => hps p (List.mem_cons_of_mem _ hp)
    rw [List.map_cons, List.sum_cons]
    rw [YcsbC.walk] at h
    split_ifs at h with hc
    · exact hc.trans_le (le_add_of_nonneg_right (List.sum_nonneg (List.forall_mem_map.2 hps')))
    · exact sub_lt_iff_lt_add'.1 (ih hps' h)

/-! ### Measures -/

section Volume

open MeasureTheory

theorem volume_within (ws : List ℝ) {i : ℕ} (hi : i < ws.length) :
    volume {c | Within ws i c} = ENNReal.ofReal ws[i] := by
  have hset : {c | Within ws i c} = Set.Ico (leftEnd ws i) (leftEnd ws (i + 1)) := by
    ext c
    exact and_iff_right hi
  rw [hset, Real.volume_Ico, leftEnd_succ ws hi, add_sub_cancel_left]

/-- The points from which a walk ends at a value: as many as the lengths of its intervals say. -/
theorem volume_walk [DecidableEq V] {ps : List (V × ℝ)} (hps : ∀ p ∈ ps, 0 ≤ p.2) (v : V) :
    volume {c | 0 ≤ c ∧ walk ps c = some v} =
      ENNReal.ofReal ((ps.filter fun p => p.1 = v).map Prod.snd).sum := by
  induction ps with
  | nil => simp [walk]
  | cons p ps ih =>
    obtain ⟨v', w⟩ := p
    have hw : 0 ≤ w := hps (v', w) List.mem_cons_self
    have hps' : ∀ p ∈ ps, 0 ≤ p.2 := fun p hp => hps p (List.mem_cons_of_mem _ hp)
    have hrest : 0 ≤ ((ps.filter fun p => p.1 = v).map Prod.snd).sum :=
      List.sum_nonneg (List.forall_mem_map.2 fun p hp => hps' p (List.mem_of_mem_filter hp))
    -- the first interval, and the others moved by its length
    have hset : {c | 0 ≤ c ∧ walk ((v', w) :: ps) c = some v} =
        {c | c ∈ Set.Ico 0 w ∧ v' = v} ∪
          Set.preimage (fun c => c + -w) {c | 0 ≤ c ∧ walk ps c = some v} := by
      ext c
      simp only [walk, Set.mem_union, Set.mem_preimage, Set.mem_ofPred_eq, Set.mem_Ico,
        ← sub_eq_add_neg, sub_nonneg]
      by_cases hc : c < w
      · simp [hc, hc.not_ge]
      · have hc' : 0 ≤ c := hw.trans (not_lt.1 hc)
        simp [hc, hc', not_lt.1 hc]
    have hdisjoint : Disjoint {c | c ∈ Set.Ico 0 w ∧ v' = v}
        (Set.preimage (fun c => c + -w) {c | 0 ≤ c ∧ walk ps c = some v}) := by
      rw [Set.disjoint_left]
      rintro c ⟨hc, -⟩ ⟨hc', -⟩
      have hwc : w ≤ c := sub_nonneg.1 (sub_eq_add_neg c w ▸ hc')
      exact absurd hwc hc.2.not_ge
    by_cases hv : v' = v
    · have hfirst : {c | c ∈ Set.Ico 0 w ∧ v' = v} = Set.Ico 0 w := by
        ext c
        exact and_iff_left hv
      rw [hfirst] at hset hdisjoint
      rw [hset, measure_union' hdisjoint measurableSet_Ico, Real.volume_Ico, sub_zero,
        measure_preimage_add_right, ih hps', ← ENNReal.ofReal_add hw hrest]
      simp [hv]
    · have hfirst : {c | c ∈ Set.Ico 0 w ∧ v' = v} = ∅ := by
        ext c
        simp [hv]
      rw [hset, hfirst, Set.empty_union, measure_preimage_add_right, ih hps']
      simp [hv]

end Volume

end YcsbC
