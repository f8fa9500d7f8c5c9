import Mathlib.Data.Finmap

/-!
# Finite maps overridden by lists of entries

Settings arrive one after the other and the last one for a key counts. So a list of entries
overrides a finite map: a key that occurs in the list has the value of its last entry, and every
other key has the value it had before.

## Main definitions

* `lastValue`: the value of the last entry for a key.
* `overrideBy`: a map after the entries of a list have been set in order.

## Main results

* `lastValue_eq_some_iff`, `lastValue_eq_none_iff`: which value that is.
* `lookup_overrideBy`: the values after an override.
* `overrideBy_append`: one list after another.
-/

namespace YcsbC

variable {K V : Type*} [DecidableEq K]

/-- The value of the last entry for `k`. -/
def lastValue (k : K) (es : List (K × V)) : Option V := es.reverse.lookup k

/-- `m` after the entries of `es` have been set, the first one first. -/
def overrideBy (m : Finmap fun _ : K => V) (es : List (K × V)) : Finmap fun _ : K => V :=
  es.foldl (fun m e => m.insert e.1 e.2) m

@[simp] theorem lastValue_nil (k : K) : lastValue k ([] : List (K × V)) = none := rfl

theorem lastValue_append (k : K) (es es' : List (K × V)) :
    lastValue k (es ++ es') = (lastValue k es').or (lastValue k es) := by
  rw [lastValue, List.reverse_append, List.lookup_append]
  rfl

theorem lastValue_singleton (k : K) (e : K × V) :
    lastValue k [e] = if k = e.1 then some e.2 else none := by
  obtain ⟨k', v⟩ := e
  by_cases h : k = k'
  · simp [lastValue, h]
  · simp [lastValue, h, List.lookup_cons, beq_eq_false_iff_ne.2 h]

/-- An entry at the end. -/
theorem lastValue_concat (k : K) (es : List (K × V)) (e : K × V) :
    lastValue k (es ++ [e]) = if k = e.1 then some e.2 else lastValue k es := by
  rw [lastValue_append, lastValue_singleton]
  split_ifs <;> rfl

theorem lastValue_eq_none_iff {k : K} {es : List (K × V)} :
    lastValue k es = none ↔ k ∉ es.map Prod.fst := by
  induction es using List.reverseRecOn with
  | nil => simp
  | append_singleton es e ih =>
    rw [lastValue_concat, List.map_append, List.mem_append, not_or, ← ih]
    by_cases h : k = e.1 <;> simp [h]

/-- The last entry is one that no other entry for the key follows. -/
theorem lastValue_eq_some_iff {k : K} {v : V} {es : List (K × V)} :
    lastValue k es = some v ↔ ∃ before after, es = before ++ (k, v) :: after ∧
      k ∉ after.map Prod.fst := by
  constructor
  · intro h
    induction es using List.reverseRecOn with
    | nil => cases h
    | append_singleton es e ih =>
      rw [lastValue_concat] at h
      split_ifs at h with hk
      · cases h
        exact ⟨es, [], by rw [hk], List.not_mem_nil⟩
      · obtain ⟨before, after, rfl, hafter⟩ := ih h
        refine ⟨before, after ++ [e], by simp, ?_⟩
        rw [List.map_append, List.mem_append, not_or]
        exact ⟨hafter, by simpa using hk⟩
  · rintro ⟨before, after, rfl, hafter⟩
    rw [← List.singleton_append, ← List.append_assoc, lastValue_append,
      lastValue_eq_none_iff.2 hafter, lastValue_concat, if_pos rfl]
    rfl

theorem overrideBy_append (m : Finmap fun _ : K => V) (es es' : List (K × V)) :
    overrideBy m (es ++ es') = overrideBy (overrideBy m es) es' :=
  List.foldl_append

/-- A key of the list has the value of its last entry, every other key the value it had before. -/
theorem lookup_overrideBy (m : Finmap fun _ : K => V) (es : List (K × V)) (k : K) :
    (overrideBy m es).lookup k = (lastValue k es).or (m.lookup k) := by
  induction es using List.reverseRecOn with
  | nil => rfl
  | append_singleton es e ih =>
    rw [overrideBy_append, lastValue_concat]
    change ((overrideBy m es).insert e.1 e.2).lookup k = _
    split_ifs with hk
    · rw [hk, Finmap.lookup_insert]
      rfl
    · rw [Finmap.lookup_insert_of_ne _ hk, ih]

end YcsbC
