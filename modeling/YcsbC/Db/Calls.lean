import YcsbC.Db.Operations

/-!
# Runs of one client on the store

A client of the store issues `Read`, `Update`, `Insert` and `Delete` one after the other. A run is
a list of such calls; each call returns a status, and a `Read` its result vector too.

## Main definitions

* `Call`, `Outcome`, `Call.program`, `runCalls`.

## Main results

* `Call.run_spec`: a call keeps the memory well formed and changes no record but its own.
* `wf_runCalls`, `onlyAt_runCalls`: the same for a run.
-/

namespace YcsbC

/-- A call of a client. -/
inductive Call where
  | read (table key : Str) (fields : Option (List Str)) (result : List KVPair)
  | update (table key : Str) (values : List KVPair)
  | insert (table key : Str) (values : List KVPair)
  | delete (table key : Str)

/-- The status of a call with the result vector of a `Read`, which the other calls leave empty. -/
abbrev Outcome := Status × List KVPair

namespace Call

/-- The table that a call names. -/
def table : Call → Str
  | read table _ _ _ => table
  | update table _ _ => table
  | insert table _ _ => table
  | delete table _ => table

/-- The key that a call names. -/
def key : Call → Str
  | read _ key _ _ => key
  | update _ key _ => key
  | insert _ key _ => key
  | delete _ key => key

/-- The pairs that a call writes. -/
def values : Call → List KVPair
  | read _ _ _ _ => []
  | update _ _ values => values
  | insert _ _ values => values
  | delete _ _ => []

/-- The program of a call on a back end. -/
def program {σ : Type} (db : DB σ) : Call → Program σ Outcome
  | read table key fields result => db.read table key fields result
  | update table key values => (·, []) <$> db.update table key values
  | insert table key values => (·, []) <$> db.insert table key values
  | delete table key => (·, []) <$> db.delete table key

end Call

/-- The calls of a run, one after the other, with their outcomes. -/
def runCalls {σ : Type} (db : DB σ) : List Call → Program σ (List Outcome)
  | [] => pure []
  | c :: calls => do
    let out ← c.program db
    let outs ← runCalls db calls
    pure (out :: outs)

open Store HashtableDB

variable {P H : Set ℕ} {s : Store}

/-- A call keeps the memory well formed and changes no record but the one it names. -/
theorem Call.run_spec (order : IterationOrder VmpString) (h : s.Wf P H) (c : Call) :
    ((c.program (LockStlDB order)).run s).2.Wf P H ∧
      s.OnlyAt (.wrap (keyIndex c.table c.key)) ((c.program (LockStlDB order)).run s).2 := by
  cases c with
  | read table key fields result =>
    have hrun := run_read h order table key fields result
    simp only [Call.program, LockStlDB, hrun]
    exact ⟨h, .refl _ s⟩
  | update table key values =>
    obtain ⟨s', hrun, hwf, honly, -, -⟩ := run_update h table key values
    simp only [Call.program, LockStlDB, Program.run_map, hrun]
    exact ⟨hwf, honly⟩
  | insert table key values =>
    obtain ⟨s', hrun, hwf, honly, -, -⟩ := run_insert h table key values
    simp only [Call.program, LockStlDB, Program.run_map, hrun]
    exact ⟨hwf, honly⟩
  | delete table key =>
    obtain ⟨s', hrun, hwf, honly, -⟩ := run_delete h order table key
    simp only [Call.program, LockStlDB, Program.run_map, hrun]
    exact ⟨hwf, honly⟩

/-- A run keeps the memory well formed. -/
theorem wf_runCalls (order : IterationOrder VmpString) (h : s.Wf P H) (calls : List Call) :
    ((runCalls (LockStlDB order) calls).run s).2.Wf P H := by
  induction calls generalizing s with
  | nil => exact h
  | cons c calls ih =>
    simp only [runCalls, Program.run_bind, Program.run_pure]
    exact ih (c.run_spec order h).1

/-- A run that names one record only changes no other one. -/
theorem onlyAt_runCalls (order : IterationOrder VmpString) (h : s.Wf P H) {k₀ : VmpString}
    (calls : List Call) (hcalls : ∀ c ∈ calls, .wrap (keyIndex c.table c.key) = k₀) :
    s.OnlyAt k₀ ((runCalls (LockStlDB order) calls).run s).2 := by
  induction calls generalizing s with
  | nil => exact .refl k₀ s
  | cons c calls ih =>
    simp only [runCalls, Program.run_bind, Program.run_pure]
    obtain ⟨hwf, honly⟩ := c.run_spec order h
    rw [hcalls c List.mem_cons_self] at honly
    exact honly.trans (ih hwf fun c' hc' => hcalls c' (List.mem_cons_of_mem _ hc'))

end YcsbC
