import Mathlib.Data.Set.Image
import YcsbC.Db.Calls
import YcsbC.Db.Race

/-!
# The reachable states of the store

The clients of a store issue calls one after the other, and now and then any number of them write
at the same time. Reads and scans leave the memory as it is, so they are not among the calls of a
race; a `Delete` that races with a call on the same record releases memory in use.

## Main definitions

* `Reachable`: the stores that clients reach from the empty one, with the names that they have
  written.

## Main results

* `Reachable.wf`: every reachable memory is well formed.
* `Reachable.found`: every entry of `key_table_` belongs to a record that was written.
-/

namespace YcsbC

open Store HashtableDB

/-- The table and the key that a call writes. -/
def Call.written : Call → Set (Str × Str)
  | read _ _ _ _ => ∅
  | update table key _ => {(table, key)}
  | insert table key _ => {(table, key)}
  | delete _ _ => ∅

/-- The stores that clients reach from the empty one; `W` collects the table names and keys of all
calls of `Insert` and `Update`. -/
inductive Reachable (order : IterationOrder VmpString) : Set (Str × Str) → Store → Prop
  | empty : Reachable order ∅ Store.empty
  | call {W : Set (Str × Str)} {s : Store} (c : Call) (h : Reachable order W s) :
      Reachable order (W ∪ c.written) ((c.program (LockStlDB order)).run s).2
  | race {W : Set (Str × Str)} {s s' : Store} {n : ℕ} (ws : Fin n → Write) (r : Fin n → Status)
      (h : Reachable order W s) (hsteps : Config.Steps (race ws s) ⟨s', fun i => pure (r i)⟩) :
      Reachable order (W ∪ Set.range fun i => ((ws i).table, (ws i).key)) s'

variable {order : IterationOrder VmpString} {W : Set (Str × Str)} {s : Store}

/-- A race keeps the memory well formed; what the writers own at its end is leaked. -/
theorem wf_race {ι : Type} [DecidableEq ι] {ws : ι → Write} {s s' : Store} {r : ι → Status}
    (h : s.Wf ∅ ∅) (hsteps : Config.Steps (race ws s) ⟨s', fun i => pure (r i)⟩) :
    s'.Wf ∅ ∅ ∧ s.Evolves ws s' := by
  obtain ⟨g, hinv, -⟩ := race_returns h hsteps fun i => rfl
  exact ⟨hinv.wf.mono (Set.empty_subset _) (Set.empty_subset _), hinv.evolves⟩

/-- **Every reachable memory is well formed.** -/
theorem Reachable.wf (h : Reachable order W s) : s.Wf ∅ ∅ := by
  induction h with
  | empty => exact wf_empty
  | call c _ ih => exact (c.run_spec order ih).1
  | race ws r _ hsteps ih => exact (wf_race ih hsteps).1

/-- The record of a call that does not write is missing afterwards, or it was there before. -/
theorem Call.find_of_not_written {c : Call} (h : s.Wf ∅ ∅) (hc : c.written = ∅) {t : ℕ}
    (ht : ((c.program (LockStlDB order)).run s).2.keyTable.find
      (.wrap (keyIndex c.table c.key)) = some t) :
    s.keyTable.find (.wrap (keyIndex c.table c.key)) = some t := by
  cases c with
  | read table key fields result =>
    have hrun := run_read h order table key fields result
    simpa only [Call.program, LockStlDB, hrun] using ht
  | update table key values => exact absurd hc (Set.singleton_ne_empty _)
  | insert table key values => exact absurd hc (Set.singleton_ne_empty _)
  | delete table key =>
    obtain ⟨s', hrun, -, -, hnone⟩ := run_delete h order table key
    simp only [Call.program, LockStlDB, Program.run_map, hrun] at ht
    cases (record_eq_none.1 hnone).symm.trans ht

/-- **Every entry of `key_table_` belongs to a record that was written.** -/
theorem Reachable.found (h : Reachable order W s) {k : VmpString} {t : ℕ}
    (ht : s.keyTable.find k = some t) : ∃ name ∈ W, .wrap (keyIndex name.1 name.2) = k := by
  induction h generalizing t with
  | empty => simp [Store.empty] at ht
  | @call W s c hs ih =>
    by_cases hk : k = .wrap (keyIndex c.table c.key)
    · rcases Set.eq_empty_or_nonempty c.written with hc | hc
      · subst hk
        obtain ⟨name, hname, heq⟩ := ih (c.find_of_not_written hs.wf hc ht)
        exact ⟨name, .inl hname, heq⟩
      · refine ⟨(c.table, c.key), .inr ?_, hk.symm⟩
        cases c <;> first | exact rfl | exact absurd hc Set.not_nonempty_empty
    · rw [(c.run_spec order hs.wf).2.find k hk] at ht
      obtain ⟨name, hname, heq⟩ := ih ht
      exact ⟨name, .inl hname, heq⟩
  | race ws r hs hsteps ih =>
    rcases (wf_race hs.wf hsteps).2.found k t ht with hold | ⟨i, hi⟩
    · obtain ⟨name, hname, heq⟩ := ih hold
      exact ⟨name, .inl hname, heq⟩
    · exact ⟨_, .inr ⟨i, rfl⟩, hi⟩

end YcsbC
