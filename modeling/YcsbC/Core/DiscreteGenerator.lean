import Mathlib.Algebra.Order.Field.Basic
import YcsbC.Core.CoreWorkload
import YcsbC.Foundation.Intervals

/-!
# The discrete generator

`DiscreteGenerator` holds values with weights and returns each of them as often as its weight says
(`core/discrete_generator.h`); `CoreWorkload::Init` gives it the operations with their proportions.
`Next` draws a number below one and walks along the normalised weights, which it subtracts from the
number; `assert(false)` stands behind the loop. The arithmetic is exact here, over an ordered field.

## Main definitions

* `DiscreteGenerator`, `DiscreteGenerator.addValue`, `next`: the generator.
* `DiscreteGenerator.ofPairs`: a generator to which a list of values has been added.
* `CoreWorkload.opChooser`: the chooser of the operations.

## Main results

* `DiscreteGenerator.next_of_within`: a draw in the interval of a value returns the value.
* `discrete_generator_exact`: every draw chooses one value, in proportion to the weights.
-/

namespace YcsbC

variable {V K : Type}

/-- `DiscreteGenerator`; `last_` has no value before the first `AddValue`. -/
structure DiscreteGenerator (V K : Type) where
  values : List (V × K)
  sum : K
  last : Option V

namespace DiscreteGenerator

/-- The constructor. -/
def new [Zero K] : DiscreteGenerator V K := ⟨[], 0, none⟩

/-- `AddValue`. -/
def addValue [Add K] (value : V) (weight : K) (g : DiscreteGenerator V K) :
    DiscreteGenerator V K where
  values := g.values ++ [(value, weight)]
  sum := g.sum + weight
  last := if g.values = [] then some value else g.last

/-- The loop of `Next`: `none` when it is left at its end. -/
def nextLoop [Sub K] [Div K] [LT K] [DecidableLT K] (sum : K) : List (V × K) → K → Option V
  | [], _ => none
  | p :: ps, chooser =>
    if chooser < p.2 / sum then some p.1 else nextLoop sum ps (chooser - p.2 / sum)

/-- `Next` for the value `chooser` of `RandomDouble()`; `none` when `assert(false)` is reached. -/
def next [Sub K] [Div K] [LT K] [DecidableLT K] (chooser : K) (g : DiscreteGenerator V K) :
    Option V × DiscreteGenerator V K :=
  match nextLoop g.sum g.values chooser with
  | none => (none, g)
  | some value => (some value, { g with last := some value })

/-- The generator after `AddValue` for each pair of a list. -/
def ofPairs [Zero K] [Add K] (pairs : List (V × K)) : DiscreteGenerator V K :=
  pairs.foldl (fun g p => g.addValue p.1 p.2) new

end DiscreteGenerator

/-- The proportions of the operations, which `Init` reads. -/
structure Proportions (K : Type) where
  read : K
  update : K
  insert : K
  scan : K
  readModifyWrite : K

/-- `op_chooser_` as `Init` fills it: the operations whose proportions are positive. -/
def CoreWorkload.opChooser [Zero K] [Add K] [LT K] [DecidableLT K] (p : Proportions K) :
    DiscreteGenerator Operation K :=
  .ofPairs (([(.READ, p.read), (.UPDATE, p.update), (.INSERT, p.insert), (.SCAN, p.scan),
    (.READMODIFYWRITE, p.readModifyWrite)] : List (Operation × K)).filter fun e => 0 < e.2)

namespace DiscreteGenerator

/-! ### The walk along the weights -/

section Exact

variable [Field K] {pairs : List (V × K)}

theorem foldl_addValue (g : DiscreteGenerator V K) :
    (pairs.foldl (fun g p => g.addValue p.1 p.2) g).values = g.values ++ pairs ∧
      (pairs.foldl (fun g p => g.addValue p.1 p.2) g).sum =
        g.sum + (pairs.map Prod.snd).sum := by
  induction pairs generalizing g with
  | nil => exact ⟨(List.append_nil _).symm, (add_zero _).symm⟩
  | cons p pairs ih =>
    obtain ⟨hvalues, hsum⟩ := ih (g.addValue p.1 p.2)
    rw [List.foldl_cons, hvalues, hsum, List.map_cons, List.sum_cons]
    exact ⟨List.append_assoc .., add_assoc ..⟩

theorem values_ofPairs (pairs : List (V × K)) : (ofPairs pairs).values = pairs :=
  (foldl_addValue new).1

theorem sum_ofPairs (pairs : List (V × K)) :
    (ofPairs pairs).sum = (pairs.map Prod.snd).sum :=
  (foldl_addValue new).2.trans (zero_add _)

/-- The weights, divided by their sum. -/
def normalised (pairs : List (V × K)) : List (V × K) :=
  pairs.map fun p => (p.1, p.2 / (pairs.map Prod.snd).sum)

theorem map_snd_normalised (pairs : List (V × K)) : (normalised pairs).map Prod.snd =
    (pairs.map Prod.snd).map (· / (pairs.map Prod.snd).sum) := by
  simp only [normalised, List.map_map, Function.comp_def]

theorem sum_map_div (ws : List K) (k : K) : (ws.map (· / k)).sum = ws.sum / k := by
  simp only [div_eq_mul_inv, List.sum_map_mul_right, List.map_id']

/-- The `i`-th interval starts at the normalised sum of the weights before. -/
theorem leftEnd_normalised (pairs : List (V × K)) (i : ℕ) :
    leftEnd ((normalised pairs).map Prod.snd) i =
      ((pairs.take i).map Prod.snd).sum / (pairs.map Prod.snd).sum := by
  rw [leftEnd, map_snd_normalised, ← List.map_take, sum_map_div, List.map_take]

variable [LinearOrder K]

theorem nextLoop_eq_walk (sum : K) (ps : List (V × K)) (c : K) :
    nextLoop sum ps c = walk (ps.map fun p => (p.1, p.2 / sum)) c := by
  induction ps generalizing c with
  | nil => rfl
  | cons p ps ih => rw [nextLoop, List.map_cons, walk, ih]

theorem next_fst (c : K) (g : DiscreteGenerator V K) :
    (g.next c).1 = nextLoop g.sum g.values c := by
  rw [next]
  cases nextLoop g.sum g.values c <;> rfl

theorem next_snd (c : K) (g : DiscreteGenerator V K) :
    (g.next c).2.values = g.values ∧ (g.next c).2.sum = g.sum := by
  rw [next]
  cases nextLoop g.sum g.values c <;> exact ⟨rfl, rfl⟩

/-- The generator after earlier calls of `Next`, with their draws. -/
def afterDraws (pairs : List (V × K)) (earlier : List K) : DiscreteGenerator V K :=
  earlier.foldl (fun g c => (g.next c).2) (ofPairs pairs)

theorem afterDraws_eq (pairs : List (V × K)) (earlier : List K) :
    (afterDraws pairs earlier).values = pairs ∧
      (afterDraws pairs earlier).sum = (pairs.map Prod.snd).sum := by
  have hkeep : ∀ (earlier : List K) (g : DiscreteGenerator V K),
      (earlier.foldl (fun g c => (g.next c).2) g).values = g.values ∧
        (earlier.foldl (fun g c => (g.next c).2) g).sum = g.sum := by
    intro earlier
    induction earlier with
    | nil => exact fun g => ⟨rfl, rfl⟩
    | cons c earlier ih =>
      intro g
      obtain ⟨hvalues, hsum⟩ := ih (g.next c).2
      obtain ⟨hvalues', hsum'⟩ := next_snd c g
      exact ⟨hvalues.trans hvalues', hsum.trans hsum'⟩
  obtain ⟨hvalues, hsum⟩ := hkeep earlier (ofPairs pairs)
  exact ⟨hvalues.trans (values_ofPairs pairs), hsum.trans (sum_ofPairs pairs)⟩

theorem next_afterDraws (pairs : List (V × K)) (earlier : List K) (c : K) :
    ((afterDraws pairs earlier).next c).1 = walk (normalised pairs) c := by
  obtain ⟨hvalues, hsum⟩ := afterDraws_eq pairs earlier
  rw [next_fst, hvalues, hsum, nextLoop_eq_walk, normalised]

/-- `Next` returns what `Last` returns afterwards. -/
theorem last_next {g : DiscreteGenerator V K} {c : K} {v : V} (h : (g.next c).1 = some v) :
    (g.next c).2.last = some v := by
  rw [next] at h ⊢
  cases hloop : nextLoop g.sum g.values c with
  | none =>
    rw [hloop] at h
    cases h
  | some value =>
    rw [hloop] at h
    exact h

variable [IsStrictOrderedRing K]

theorem sum_pos (hne : pairs ≠ []) (hpos : ∀ p ∈ pairs, 0 < p.2) :
    0 < (pairs.map Prod.snd).sum :=
  List.sum_pos _ (List.forall_mem_map.2 hpos) (by simpa using hne)

theorem normalised_nonneg (hpos : ∀ p ∈ pairs, 0 < p.2) : ∀ p ∈ normalised pairs, 0 ≤ p.2 := by
  have hsum : 0 ≤ (pairs.map Prod.snd).sum :=
    List.sum_nonneg (List.forall_mem_map.2 fun p hp => (hpos p hp).le)
  exact List.forall_mem_map.2 fun p hp => div_nonneg (hpos p hp).le hsum

theorem sum_normalised (hne : pairs ≠ []) (hpos : ∀ p ∈ pairs, 0 < p.2) :
    ((normalised pairs).map Prod.snd).sum = 1 := by
  rw [map_snd_normalised, sum_map_div, div_self (sum_pos hne hpos).ne']

/-- A draw in the interval of a value returns the value. -/
theorem next_of_within (hpos : ∀ p ∈ pairs, 0 < p.2) (earlier : List K) {i : ℕ} {c : K}
    (h : Within ((normalised pairs).map Prod.snd) i c) :
    ((afterDraws pairs earlier).next c).1 = (pairs[i]?).map Prod.fst := by
  rw [next_afterDraws, h.walk (normalised_nonneg hpos), normalised, List.getElem?_map,
    Option.map_map]
  rfl

end Exact

end DiscreteGenerator

open DiscreteGenerator MeasureTheory

/-- The draw `c` lies between the normalised sums of the weights before and up to the `i`-th one. -/
def Chosen {V K : Type} [Field K] [LinearOrder K] (pairs : List (V × K)) (i : ℕ) (c : K) : Prop :=
  ((pairs.take i).map Prod.snd).sum / (pairs.map Prod.snd).sum ≤ c ∧
    c < ((pairs.take (i + 1)).map Prod.snd).sum / (pairs.map Prod.snd).sum

theorem within_iff_chosen [Field K] [LinearOrder K] {pairs : List (V × K)} {i : ℕ} {c : K}
    (hi : i < pairs.length) :
    Within ((normalised pairs).map Prod.snd) i c ↔ Chosen pairs i c := by
  rw [Within, leftEnd_normalised, leftEnd_normalised, List.length_map, normalised, List.length_map]
  exact and_iff_right hi

/-- A draw in `[0, 1)` chooses one place of the list, and `Next` returns the value there. -/
theorem next_chosen [Field K] [LinearOrder K] [IsStrictOrderedRing K] {pairs : List (V × K)}
    (hne : pairs ≠ []) (hpos : ∀ p ∈ pairs, 0 < p.2) (earlier : List K) {c : K} (h0 : 0 ≤ c)
    (h1 : c < 1) :
    ∃ i value, (pairs[i]?).map Prod.fst = some value ∧ Chosen pairs i c ∧
      (∀ j < pairs.length, Chosen pairs j c → j = i) ∧
      ((afterDraws pairs earlier).next c).1 = some value ∧
      ((afterDraws pairs earlier).next c).2.last = some value := by
  obtain ⟨i, hi⟩ := exists_within h0 (h1.trans_eq (sum_normalised hne hpos).symm)
  have hlt : i < pairs.length := by simpa [normalised] using hi.1
  have hvalue : (pairs[i]?).map Prod.fst = some pairs[i].1 := by
    rw [List.getElem?_eq_getElem hlt, Option.map_some]
  have hnext := (next_of_within hpos earlier hi).trans hvalue
  refine ⟨i, pairs[i].1, hvalue, (within_iff_chosen hlt).1 hi, fun j hj hchosen => ?_, hnext,
    last_next hnext⟩
  exact ((within_iff_chosen hj).2 hchosen).unique
    (List.forall_mem_map.2 (normalised_nonneg hpos)) hi

/-- The draws that choose one place of the list, and the draws for which one value is returned. -/
theorem volume_chosen [DecidableEq V] {pairs : List (V × ℝ)} (hne : pairs ≠ [])
    (hpos : ∀ p ∈ pairs, 0 < p.2) (earlier : List ℝ) :
    (∀ i (hi : i < pairs.length), volume {c | Chosen pairs i c} =
        ENNReal.ofReal (pairs[i].2 / (pairs.map Prod.snd).sum)) ∧
      ∀ v, volume {c | c ∈ Set.Ico 0 1 ∧ ((afterDraws pairs earlier).next c).1 = some v} =
        ENNReal.ofReal (((pairs.filter fun p => p.1 = v).map Prod.snd).sum /
          (pairs.map Prod.snd).sum) := by
  have hnonneg := normalised_nonneg hpos
  refine ⟨fun i hi => ?_, fun v => ?_⟩
  · have hset : {c | Chosen pairs i c} = {c | Within ((normalised pairs).map Prod.snd) i c} := by
      ext c
      exact (within_iff_chosen hi).symm
    rw [hset, volume_within _ (by simpa [normalised] using hi)]
    simp only [normalised, List.getElem_map]
  · have hset : {c | c ∈ Set.Ico 0 1 ∧ ((afterDraws pairs earlier).next c).1 = some v} =
        {c | 0 ≤ c ∧ walk (normalised pairs) c = some v} := by
      ext c
      simp only [Set.mem_ofPred_eq, next_afterDraws, Set.mem_Ico]
      refine ⟨fun h => ⟨h.1.1, h.2⟩, fun h => ⟨⟨h.1, ?_⟩, h.2⟩⟩
      exact (lt_sum_of_walk hnonneg h.2).trans_eq (sum_normalised hne hpos)
    have hfilter : ((normalised pairs).filter fun p => p.1 = v).map Prod.snd =
        ((pairs.filter fun p => p.1 = v).map Prod.snd).map (· / (pairs.map Prod.snd).sum) := by
      simp only [normalised, List.filter_map, List.map_map, Function.comp_def]
    rw [hset, volume_walk hnonneg, hfilter, sum_map_div]

/-- As soon as one proportion is positive, the chooser of the operations returns an operation. -/
theorem opChooser_next [Field K] [LinearOrder K] [IsStrictOrderedRing K] {p : Proportions K}
    (hp : 0 < p.read ∨ 0 < p.update ∨ 0 < p.insert ∨ 0 < p.scan ∨ 0 < p.readModifyWrite) {c : K}
    (h0 : 0 ≤ c) (h1 : c < 1) : ∃ op, ((CoreWorkload.opChooser p).next c).1 = some op := by
  let operations : List (Operation × K) := [(.READ, p.read), (.UPDATE, p.update),
    (.INSERT, p.insert), (.SCAN, p.scan), (.READMODIFYWRITE, p.readModifyWrite)]
  have hne : operations.filter (fun e => 0 < e.2) ≠ [] := by
    intro hnil
    have hnone : ∀ e ∈ operations, ¬ 0 < e.2 := fun e he => by
      simpa using List.filter_eq_nil_iff.1 hnil e he
    simp only [operations, List.forall_mem_cons] at hnone
    tauto
  have hpos : ∀ e ∈ operations.filter (fun e => 0 < e.2), 0 < e.2 := fun e he => by
    simpa using (List.mem_filter.1 he).2
  obtain ⟨-, op, -, -, -, hop, -⟩ := next_chosen hne hpos [] h0 h1
  exact ⟨op, hop⟩

/-- **The discrete chooser is exact.** With positive weights, over any ordered field and after any
earlier draws, a draw in `[0, 1)` lies between the normalised sums of weights at one place of the
list; `Next` returns the value there, so it does not reach `assert(false)`, and `Last` returns the
same value. Over the reals a place is chosen, and a value returned, in proportion to the weights. -/
theorem discrete_generator_exact {V : Type} [DecidableEq V] :
    (∀ (K : Type) [Field K] [LinearOrder K] [IsStrictOrderedRing K] (pairs : List (V × K)),
      pairs ≠ [] → (∀ p ∈ pairs, 0 < p.2) → ∀ (earlier : List K) (c : K), 0 ≤ c → c < 1 →
        ∃ i value, (pairs[i]?).map Prod.fst = some value ∧ Chosen pairs i c ∧
          (∀ j < pairs.length, Chosen pairs j c → j = i) ∧
          ((afterDraws pairs earlier).next c).1 = some value ∧
          ((afterDraws pairs earlier).next c).2.last = some value) ∧
    ∀ pairs : List (V × ℝ), pairs ≠ [] → (∀ p ∈ pairs, 0 < p.2) → ∀ earlier : List ℝ,
      (∀ i (hi : i < pairs.length), volume {c | Chosen pairs i c} =
        ENNReal.ofReal (pairs[i].2 / (pairs.map Prod.snd).sum)) ∧
      ∀ v, volume {c | c ∈ Set.Ico 0 1 ∧ ((afterDraws pairs earlier).next c).1 = some v} =
        ENNReal.ofReal (((pairs.filter fun p => p.1 = v).map Prod.snd).sum /
          (pairs.map Prod.snd).sum) :=
  ⟨fun _ _ _ _ _ hne hpos earlier _ h0 h1 => next_chosen hne hpos earlier h0 h1,
    fun _ hne hpos earlier => volume_chosen hne hpos earlier⟩

/-- Reads and updates in the proportion of 95 to 5, with the draw 19/20: an update. -/
theorem discrete_generator_exact_reads_and_updates :
    let pairs : List (Operation × ℚ) := [(.READ, 95), (.UPDATE, 5)]
    ∃ i value, (pairs[i]?).map Prod.fst = some value ∧ Chosen pairs i (19 / 20) ∧
      ((ofPairs pairs).next (19 / 20)).1 = some value := by
  intro pairs
  have hpos : ∀ p ∈ pairs, 0 < p.2 := by decide
  obtain ⟨i, value, hvalue, hchosen, -, hnext, -⟩ := discrete_generator_exact.1 ℚ pairs
    (List.cons_ne_nil _ _) hpos [] (19 / 20) (by norm_num) (by norm_num)
  exact ⟨i, value, hvalue, hchosen, hnext⟩

end YcsbC
