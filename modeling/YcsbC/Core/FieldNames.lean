import YcsbC.Core.Transactions
import YcsbC.Db.Calls

/-!
# The fields that the transactions ask for

A transaction that reads one field asks for the name that `NextFieldName` returns, with another
`"field"` in front of it (`core/client.h`). `BuildValues` and `BuildUpdate` write the names of
`NextFieldName` as they are (`core/core_workload.cc`), so no record has the field that is asked for,
and every such read comes back empty.

## Main definitions

* `DB.requesting`, `requests`: the lists of fields that a transaction passes to `Read` and `Scan`.
* `FieldNames`, `Store.FieldsIn`: the fields that the workload writes, and where they may be found.

## Main results

* `requests_transaction`: what the transactions ask for.
* `Store.FieldsIn.runCalls`: a run of calls writes the fields that they name only.
* `read_misses_of_built`: what calls with the values of the workload have written.
* `single_field_reads_miss`: the reads of one field find nothing.
-/

namespace YcsbC

open Bench Client CoreWorkload HashtableDB

/-! ### The lists that are passed to the back end -/

section Requests

variable {σ : Type}

/-- The state of a back end with the lists of fields that were asked for. -/
def requestedPart (σ : Type) : Program.Part (σ × List (Option (List Str))) σ where
  get s := s.1
  set s s' := (s, s'.2)
  get_set _ _ := rfl
  set_set _ _ _ := rfl
  set_get _ := rfl

/-- A back end that records the lists of fields that are passed to `Read` and `Scan`, the latest
first. -/
def DB.requesting (db : DB σ) : DB (σ × List (Option (List Str))) where
  init isLoading := (db.init isLoading).zoom (requestedPart σ)
  read table key fields result := do
    .atomic fun s => ((), (s.1, fields :: s.2))
    (db.read table key fields result).zoom (requestedPart σ)
  scan table key len fields result := do
    .atomic fun s => ((), (s.1, fields :: s.2))
    (db.scan table key len fields result).zoom (requestedPart σ)
  update table key values := (db.update table key values).zoom (requestedPart σ)
  insert table key values := (db.insert table key values).zoom (requestedPart σ)
  delete table key := (db.delete table key).zoom (requestedPart σ)

/-- What a transaction returns, and the lists of fields that it passes to `Read` and `Scan`. -/
def requests (db : DB σ) (fuel : ℕ) (op : Operation) (b : Bench σ) :
    Option Status × List (Option (List Str)) :=
  let r := (transaction db.requesting fuel op).run ⟨b.workload, (b.db, [])⟩
  (r.1, r.2.db.2)

/-- A transaction that needs a key and returns has asked for what its body asks for. -/
theorem requests_withTransactionKey {fuel : ℕ}
    {body : Str → Str → Program (Bench (σ × List (Option (List Str)))) Status}
    {b : Bench (σ × List (Option (List Str)))} (asked : List (Option (List Str)) → Prop)
    (hreturns : ((withTransactionKey fuel body).run b).1.isSome)
    (hbody : ∀ table key w, b.workload.Used w →
      asked ((body table key).run { b with workload := w }).2.db.2) :
    asked ((withTransactionKey fuel body).run b).2.db.2 := by
  obtain ⟨w, hused, ⟨hrun, -⟩ | ⟨keyNum, -, hrun⟩⟩ := run_withTransactionKey fuel body b
  · rw [hrun] at hreturns
    cases hreturns
  · rw [hrun]
    exact hbody _ _ w hused

theorem requestedFields_of_used {w w' : CoreWorkload} (hread : w.readAllFields = false)
    (hused : w.Used w') :
    ∃ n, (requestedFields.run w').1 = some ["field".toList ++ fieldName n] := by
  obtain ⟨draws, rfl, -⟩ := hused
  rw [run_requestedFields, hread, if_neg Bool.false_ne_true]
  exact ⟨_, rfl⟩

/-- What the transactions ask for. -/
theorem requests_transaction (db : DB σ) (fuel : ℕ) {op : Operation}
    (hop : op = .READ ∨ op = .READMODIFYWRITE ∨ op = .SCAN) {b : Bench σ}
    (hread : b.workload.readAllFields = false)
    (hreturns : (requests db fuel op b).1.isSome) :
    ∃ n, (requests db fuel op b).2 = [some ["field".toList ++ fieldName n]] := by
  let asked : List (Option (List Str)) → Prop := fun l =>
    ∃ n, l = [some ["field".toList ++ fieldName n]]
  obtain rfl | rfl | rfl := hop
  · refine requests_withTransactionKey asked hreturns fun table key w hused => ?_
    obtain ⟨n, hn⟩ := requestedFields_of_used hread hused
    refine ⟨n, ?_⟩
    simp only [DB.requesting, Program.run_bind, run_onWorkload, run_onDB, Program.run_pure, hn,
      Program.run_zoom, Program.run_atomic, requestedPart]
  · refine requests_withTransactionKey asked hreturns fun table key w hused => ?_
    obtain ⟨n, hn⟩ := requestedFields_of_used hread hused
    refine ⟨n, ?_⟩
    simp only [DB.requesting, Program.run_bind, run_onWorkload, run_onDB, hn, Program.run_zoom,
      Program.run_atomic, requestedPart]
  · refine requests_withTransactionKey asked hreturns fun table key w hused => ?_
    obtain ⟨n, hn⟩ := requestedFields_of_used hread (hused.trans (used_nextScanLength w))
    refine ⟨n, ?_⟩
    simp only [DB.requesting, Program.run_bind, run_onWorkload, run_onDB, Program.run_pure, hn,
      Program.run_zoom, Program.run_atomic, requestedPart]

end Requests

/-! ### The fields of the records -/

/-- The names that `BuildValues` and `BuildUpdate` write. -/
def FieldNames : Set VmpString := Set.range fun n => .wrap (fieldName n)

theorem fieldNames_buildValues (w : CoreWorkload) :
    ∀ f ∈ Record.names (buildValues.run w).1, f ∈ FieldNames := by
  intro f hf
  rw [Record.names, ← Function.comp_def VmpString.wrap Prod.fst, ← List.map_map,
    (run_buildValues w).1, List.map_map] at hf
  obtain ⟨n, -, rfl⟩ := List.mem_map.1 hf
  exact ⟨n, rfl⟩

theorem fieldNames_buildUpdate (w : CoreWorkload) :
    ∀ f ∈ Record.names (buildUpdate.run w).1, f ∈ FieldNames := by
  intro f hf
  rw [Record.names, ← Function.comp_def VmpString.wrap Prod.fst, ← List.map_map,
    (run_buildUpdate w).1, List.map_singleton, List.mem_singleton] at hf
  exact ⟨_, hf.symm⟩

/-- The values of a call, if it has any, are those of `BuildValues` or of `BuildUpdate`. -/
def Call.Built (c : Call) : Prop :=
  c.values = [] ∨ ∃ w, c.values = (buildValues.run w).1 ∨ c.values = (buildUpdate.run w).1

theorem Call.Built.fieldNames {c : Call} (h : c.Built) :
    ∀ f ∈ Record.names c.values, f ∈ FieldNames := by
  obtain hnone | ⟨w, hw | hw⟩ := h
  · rw [hnone]
    exact fun f hf => absurd hf List.not_mem_nil
  · rw [hw]
    exact fieldNames_buildValues w
  · rw [hw]
    exact fieldNames_buildUpdate w

/-- What a transaction that reads one field asks for is none of these names. -/
theorem wrap_notMem_fieldNames (n : ℕ) :
    .wrap ("field".toList ++ fieldName n) ∉ FieldNames := by
  rintro ⟨m, hm⟩
  have hfield : NulFree ("field".toList ++ fieldName n) :=
    nulFree_append.2 ⟨by decide, nulFree_fieldName n⟩
  have heq := (VmpString.wrap_inj_of_nulFree (nulFree_fieldName m) hfield).1 hm
  have hdigits : Nat.toDigits 10 m = fieldName n := List.append_cancel_left
    (show "field".toList ++ Nat.toDigits 10 m = "field".toList ++ fieldName n from heq)
  have hdigit : 'f' ∈ Nat.toDigits 10 m := by
    rw [hdigits]
    exact List.mem_cons_self
  have := Nat.isDigit_of_mem_toDigits (by omega) (by omega) hdigit
  exact absurd this (by decide)

namespace Store

/-- Every field of every record is in `A`. -/
def FieldsIn (A : Set VmpString) (s : Store) : Prop :=
  ∀ k r, s.record k = some r → ∀ f, (r f).isSome → f ∈ A

variable {A : Set VmpString} {s s' : Store}

theorem fieldsIn_empty : Store.empty.FieldsIn A := fun k r hr => by
  rw [record_eq_none.2 (UnorderedMap.find_empty k)] at hr
  cases hr

theorem FieldsIn.onlyAt (h : s.FieldsIn A) {k₀ : VmpString} (honly : s.OnlyAt k₀ s')
    (hrec : ∀ r, s'.record k₀ = some r → ∀ f, (r f).isSome → f ∈ A) : s'.FieldsIn A := by
  intro k r hr
  by_cases hk : k = k₀
  · exact hrec r (hk ▸ hr)
  · exact h k r ((honly.record hk).symm.trans hr)

theorem FieldsIn.getD (h : s.FieldsIn A) (k : VmpString) :
    ∀ f, ((s.record k).getD Record.empty f).isSome → f ∈ A := by
  intro f hf
  cases hrec : s.record k with
  | none =>
    rw [hrec] at hf
    cases hf
  | some r =>
    rw [hrec] at hf
    exact h k r hrec f hf

end Store

theorem Record.insertFields_isSome {values : List KVPair} {r : Record} {f : VmpString}
    (hf : ((insertFields values r).2 f).isSome) : (r f).isSome ∨ f ∈ names values := by
  induction values generalizing r with
  | nil => exact .inl hf
  | cons pair values ih =>
    obtain ⟨field, str⟩ := pair
    rw [insertFields] at hf
    split_ifs at hf with hfield
    · exact .inl hf
    · obtain hold | hnew := ih hf
      · obtain rfl | hold := update_isSome.1 hold
        · exact .inr List.mem_cons_self
        · exact .inl hold
      · exact .inr (List.mem_cons_of_mem _ hnew)

open Store

variable {A : Set VmpString} {s : Store}

/-- A call writes the fields that it names only. -/
theorem Call.fieldsIn (order : IterationOrder VmpString) (h : s.FieldsIn A) (hwf : s.Wf ∅ ∅)
    (c : Call) (hc : ∀ f ∈ Record.names c.values, f ∈ A) :
    ((c.program (LockStlDB order)).run s).2.FieldsIn A := by
  cases c with
  | read table key fields result =>
    have hrun := run_read hwf order table key fields result
    simp only [Call.program, LockStlDB, hrun]
    exact h
  | update table key values =>
    obtain ⟨s', hrun, -, honly, hrec, -⟩ := run_update hwf table key values
    simp only [Call.program, LockStlDB, Program.run_map, hrun]
    refine h.onlyAt honly fun r hr f hf => ?_
    cases hr.symm.trans hrec
    cases hold : s.record (.wrap (keyIndex table key)) with
    | none =>
      rw [hold, updatedRecord, Record.addFields_isSome] at hf
      exact hc f (hf.resolve_left Bool.false_ne_true)
    | some r =>
      rw [hold, updatedRecord, Record.setFields_isSome] at hf
      exact hf.elim (h _ _ hold f) (hc f)
  | insert table key values =>
    obtain ⟨s', hrun, -, honly, hrec, -⟩ := run_insert hwf table key values
    simp only [Call.program, LockStlDB, Program.run_map, hrun]
    refine h.onlyAt honly fun r hr f hf => ?_
    cases hr.symm.trans hrec
    exact (Record.insertFields_isSome hf).elim (h.getD _ f) (hc f)
  | delete table key =>
    obtain ⟨s', hrun, -, honly, hnone⟩ := run_delete hwf order table key
    simp only [Call.program, LockStlDB, Program.run_map, hrun]
    refine h.onlyAt honly fun r hr => ?_
    cases hr.symm.trans hnone

theorem Store.FieldsIn.runCalls (order : IterationOrder VmpString) {calls : List Call}
    (hcalls : ∀ c ∈ calls, ∀ f ∈ Record.names c.values, f ∈ A) (h : s.FieldsIn A)
    (hwf : s.Wf ∅ ∅) : ((YcsbC.runCalls (LockStlDB order) calls).run s).2.FieldsIn A := by
  induction calls generalizing s with
  | nil => exact h
  | cons c calls ih =>
    simp only [YcsbC.runCalls, Program.run_bind, Program.run_pure]
    exact ih (fun c' hc' => hcalls c' (List.mem_cons_of_mem _ hc'))
      (c.fieldsIn order h hwf (hcalls c List.mem_cons_self)) (c.run_spec order hwf).1

/-- A read that asks for one field, which no record has. -/
theorem Store.FieldsIn.run_read (h : s.FieldsIn A) (hwf : s.Wf ∅ ∅)
    (order : IterationOrder VmpString) {table key : Str}
    (hrec : (s.record (.wrap (keyIndex table key))).isSome) {field : Str}
    (hfield : .wrap field ∉ A) (result : List KVPair) :
    (read order table key (some [field]) result).run s = ((.kOK, []), s) := by
  obtain ⟨r, hr⟩ := Option.isSome_iff_exists.1 hrec
  obtain ⟨t, ht, hcontent⟩ := Option.map_eq_some_iff.1 hr
  have hnone : s.content t (.wrap field) = none := by
    by_contra hsome
    refine hfield (h _ r hr _ ?_)
    rw [← hcontent]
    exact Option.isSome_iff_ne_none.2 hsome
  rw [HashtableDB.run_read hwf, show s.keyTable.get (keyIndex table key) = some t from ht]
  simp only [project, List.filterMap_cons, hnone, Option.map_none, List.filterMap_nil]

/-- **What the workload has written.** After calls with the values of `BuildValues` and
`BuildUpdate`, a `Read` that asks for one field in the way of the transactions finds nothing. -/
theorem read_misses_of_built (order : IterationOrder VmpString) {calls : List Call}
    (hcalls : ∀ c ∈ calls, c.Built) {table key : Str}
    (hrec : (((runCalls (LockStlDB order) calls).run Store.empty).2.record
      (.wrap (keyIndex table key))).isSome) (n : ℕ) :
    ((read order table key (some ["field".toList ++ fieldName n]) []).run
      ((runCalls (LockStlDB order) calls).run Store.empty).2).1 = (.kOK, []) := by
  have hfields := fieldsIn_empty.runCalls order (fun c hc => (hcalls c hc).fieldNames) wf_empty
  rw [hfields.run_read (wf_runCalls order wf_empty calls) order hrec (wrap_notMem_fieldNames n) []]

/-- **The reads of one field find nothing.** On every workload that does not read all fields, a
`READ`, a `READMODIFYWRITE` or a `SCAN` that returns has asked for one field, which is none of those
that `BuildValues` writes; and in a store that was filled by calls with the names of `BuildValues`
and `BuildUpdate`, a `Read` of a record with that list of fields returns no pair. -/
theorem single_field_reads_miss {p : Properties} {w : CoreWorkload} (hw : Configured p w)
    (hread : p.readAllFields = false) {σ : Type} (db : DB σ) (s : σ) (fuel : ℕ) {op : Operation}
    (hop : op = .READ ∨ op = .READMODIFYWRITE ∨ op = .SCAN)
    (hreturns : (requests db fuel op ⟨w, s⟩).1.isSome) :
    ∃ name, (requests db fuel op ⟨w, s⟩).2 = [some [name]] ∧
      (¬ ∃ j < p.fieldCount.toNat, name = fieldName j) ∧
      ∀ (order : IterationOrder VmpString) (calls : List Call),
        (∀ c ∈ calls, ∀ f ∈ Record.names c.values, f ∈ FieldNames) →
        let store := ((runCalls (LockStlDB order) calls).run Store.empty).2
        ∀ table key, (store.record (.wrap (keyIndex table key))).isSome →
          (read order table key (some [name]) []).run store = ((.kOK, []), store) := by
  have hread : w.readAllFields = false := by
    obtain ⟨draws, key, rfl⟩ := hw
    exact hread
  obtain ⟨n, hn⟩ := requests_transaction db fuel hop hread hreturns
  refine ⟨_, hn, ?_, fun order calls hcalls table key hrec => ?_⟩
  · rintro ⟨j, -, hj⟩
    exact wrap_notMem_fieldNames n ⟨j, congrArg VmpString.wrap hj.symm⟩
  · have hfields := fieldsIn_empty.runCalls order hcalls wf_empty
    exact hfields.run_read (wf_runCalls order wf_empty calls) order hrec
      (wrap_notMem_fieldNames n) []

/-- The settings of a workload with one field and one record that reads single fields. -/
def oneFieldProperties : Properties := { exampleProperties 1 0 true with readAllFields := false }

/-- A workload that has loaded its only record. -/
def oneFieldLoaded : Bench Store :=
  inserted (LockStlDB (.newestFirst _)) ⟨.init oneFieldProperties default, Store.empty⟩

theorem configured_oneFieldLoaded : Configured oneFieldProperties oneFieldLoaded.workload :=
  (configured_init oneFieldProperties default).numberTaken.drawn (used_inserted _ _).drawn

/-- An `Insert` with the values of `BuildValues`, and an `Update` with one of `BuildUpdate`. -/
def builtCalls : List Call :=
  [.insert "usertable".toList "user0".toList (buildValues.run oneFieldLoaded.workload).1,
    .update "usertable".toList "user0".toList (buildUpdate.run oneFieldLoaded.workload).1]

theorem built_builtCalls : ∀ c ∈ builtCalls, c.Built :=
  List.forall_mem_cons.2 ⟨.inr ⟨_, .inl rfl⟩, List.forall_mem_singleton.2 (.inr ⟨_, .inr rfl⟩)⟩

/-- A transaction on the loaded record, and a read of the field after both calls. -/
theorem single_field_reads_miss_loaded :
    ∃ name, (requests (LockStlDB (.newestFirst _)) 1 .READ oneFieldLoaded).2 = [some [name]] ∧
      (¬ ∃ j < 1, name = fieldName j) ∧
      let store := ((runCalls (LockStlDB (.newestFirst _)) builtCalls).run Store.empty).2
      (read (.newestFirst _) "usertable".toList "user0".toList (some [name]) []).run store =
        ((.kOK, []), store) := by
  obtain ⟨name, hname, hmiss, hread⟩ := single_field_reads_miss configured_oneFieldLoaded rfl
    (LockStlDB (.newestFirst _)) oneFieldLoaded.db 1 (.inl rfl) (by decide)
  exact ⟨name, hname, hmiss, hread _ builtCalls (fun c hc => (built_builtCalls c hc).fieldNames)
    _ _ (by decide +kernel)⟩

/-- The transaction asks for the field `fieldfield0`, which is not `field0`; a `Read` of the loaded
record finds the latter and not the former. -/
theorem single_field_read_misses_field0 :
    let asked := (requests (LockStlDB (.newestFirst _)) 1 .READ oneFieldLoaded).2
    let found (name : Str) := ((read (.newestFirst _) "usertable".toList "user0".toList
      (some [name]) []).run oneFieldLoaded.db).1
    (¬ ∃ j < 1, asked = [some [fieldName j]]) ∧
      (∀ name, asked = [some [name]] → found name = (.kOK, [])) ∧
      (found (fieldName 0)).2.length = 1 := by
  intro asked found
  have hasked : asked = [some ["fieldfield0".toList]] := by rfl
  refine ⟨?_, fun name hname => ?_, by decide⟩
  · rw [hasked]
    decide
  · rw [hasked] at hname
    cases hname
    decide

end YcsbC
