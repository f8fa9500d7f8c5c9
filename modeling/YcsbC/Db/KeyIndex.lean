import YcsbC.Db.Reachable

/-!
# One key table for all tables

All tables of the database share one `key_table_`, whose keys are the table name followed by the
key. Two records are separate when these strings differ, which does not follow from the names being
different: `keyIndex` is not injective on pairs. A `Scan` runs through `key_table_` from the record
that it names on, whatever table the next records belong to.

## Main results

* `read_runCalls_of_ne`: calls on one record do not change what is read of another.
* `scan_returns_written`: a scan returns records that have been written.
* `records_separate`: both for every reachable store.
-/

namespace YcsbC

open Store HashtableDB

variable {order : IterationOrder VmpString} {s : Store}

theorem wrap_keyIndex_ne {t₁ k₁ t₂ k₂ : Str} (h₁ : NulFree t₁ ∧ NulFree k₁)
    (h₂ : NulFree t₂ ∧ NulFree k₂) (hne : keyIndex t₁ k₁ ≠ keyIndex t₂ k₂) :
    VmpString.wrap (keyIndex t₂ k₂) ≠ .wrap (keyIndex t₁ k₁) := fun hc =>
  hne ((VmpString.wrap_inj_of_nulFree (nulFree_append.2 h₁) (nulFree_append.2 h₂)).1 hc.symm)

/-- Calls on one record do not change what is read of another, in the order of iteration too. -/
theorem read_runCalls_of_ne (hwf : s.Wf ∅ ∅) {t₁ k₁ t₂ k₂ : Str}
    (hne : VmpString.wrap (keyIndex t₂ k₂) ≠ .wrap (keyIndex t₁ k₁)) {calls : List Call}
    (hcalls : ∀ c ∈ calls, c.table = t₁ ∧ c.key = k₁) (fields : Option (List Str))
    (result : List KVPair) :
    ((HashtableDB.read order t₂ k₂ fields result).run
        ((runCalls (LockStlDB order) calls).run s).2).1 =
      ((HashtableDB.read order t₂ k₂ fields result).run s).1 := by
  have honly : s.OnlyAt (.wrap (keyIndex t₁ k₁))
      ((runCalls (LockStlDB order) calls).run s).2 :=
    onlyAt_runCalls order hwf calls fun c hc => by rw [(hcalls c hc).1, (hcalls c hc).2]
  have hwf' := wf_runCalls order hwf calls
  generalize ((runCalls (LockStlDB order) calls).run s).2 = s' at honly hwf'
  have hfind : s'.keyTable.get (keyIndex t₂ k₂) = s.keyTable.get (keyIndex t₂ k₂) :=
    honly.find _ hne
  rw [run_read hwf', run_read hwf, hfind]
  cases ht : s.keyTable.get (keyIndex t₂ k₂) with
  | none => rfl
  | some t =>
    simp only [project_congr (honly.fields _ hne t ht) (honly.content _ hne t ht)]

/-- What a scan returns is what a read returns of a record that has been written. -/
theorem scan_returns_written {W : Set (Str × Str)} (hs : Reachable order W s) (table key : Str)
    (len : ℤ) (fields : Option (List Str)) (result : List (List KVPair)) {row : List KVPair}
    (hrow : row ∈ ((HashtableDB.scan order table key len fields result).run s).1.2) :
    ∃ name ∈ W,
      ((HashtableDB.read order name.1 name.2 fields []).run s).1 = (.kOK, row) := by
  rw [run_scan hs.wf] at hrow
  obtain ⟨e, he, rfl⟩ := List.mem_map.1 hrow
  have hget := StlHashtable.get_of_mem_entries he
  obtain ⟨name, hname, hk⟩ := hs.found hget
  refine ⟨name, hname, ?_⟩
  have hget' : s.keyTable.get (keyIndex name.1 name.2) = some e.2 := by
    rw [StlHashtable.get, hk]
    exact hget
  rw [run_read hs.wf, hget']

/-- **Records with different strings in `key_table_` never interfere.** Calls on one record do not
change what is read of another one, and a scan returns only records that have been inserted or
updated, all of them under its own table name when the clients use no other. -/
theorem records_separate {W : Set (Str × Str)} (hs : Reachable order W s) :
    (∀ t₁ k₁ t₂ k₂, NulFree t₁ ∧ NulFree k₁ → NulFree t₂ ∧ NulFree k₂ →
      t₁ ++ k₁ ≠ t₂ ++ k₂ → ∀ calls : List Call, (∀ c ∈ calls, c.table = t₁ ∧ c.key = k₁) →
      ∀ fields result,
        ((HashtableDB.read order t₂ k₂ fields result).run
            ((runCalls (LockStlDB order) calls).run s).2).1 =
          ((HashtableDB.read order t₂ k₂ fields result).run s).1) ∧
    ∀ table key len fields result,
      ∀ row ∈ ((HashtableDB.scan order table key len fields result).run s).1.2,
        ∃ name ∈ W, ((HashtableDB.read order name.1 name.2 fields []).run s).1 = (.kOK, row) ∧
          ((∀ name ∈ W, name.1 = table) → name.1 = table) := by
  refine ⟨fun t₁ k₁ t₂ k₂ h₁ h₂ hne calls hcalls fields result => ?_,
    fun table key len fields result row hrow => ?_⟩
  · exact read_runCalls_of_ne hs.wf (wrap_keyIndex_ne h₁ h₂ hne) hcalls fields result
  · obtain ⟨name, hname, hread⟩ := scan_returns_written hs table key len fields result hrow
    exact ⟨name, hname, hread, fun hW => hW name hname⟩

/-- Calls that insert the record of `c`, change it, delete it and insert it again. -/
def callsOnC : List Call :=
  [.insert "a".toList "c".toList [("f".toList, "x".toList)],
    .update "a".toList "c".toList [("f".toList, "y".toList), ("g".toList, "z".toList)],
    .delete "a".toList "c".toList,
    .insert "a".toList "c".toList [("f".toList, "w".toList)]]

/-- The calls make a record of `c`, and what is read of `b` stays as it was. A scan returns the
record of `b`, which is the only one that has been inserted before them. -/
theorem records_separate_after_insert :
    let s := ((Call.program (LockStlDB (.newestFirst _))
      (.insert "a".toList "b".toList [("f".toList, "x".toList)])).run Store.empty).2
    let s' := ((runCalls (LockStlDB (.newestFirst _)) callsOnC).run s).2
    ((HashtableDB.read (.newestFirst _) "a".toList "b".toList none []).run s').1 =
        ((HashtableDB.read (.newestFirst _) "a".toList "b".toList none []).run s).1 ∧
      ((HashtableDB.read (.newestFirst _) "a".toList "c".toList none []).run s).1 =
        (.kErrorNoData, []) ∧
      ((HashtableDB.read (.newestFirst _) "a".toList "c".toList none []).run s').1 =
        (.kOK, [("f".toList, "w".toList)]) ∧
      ∃ row, row ∈ ((HashtableDB.scan (.newestFirst _) "a".toList "b".toList 5 none []).run s).1.2 ∧
        ((HashtableDB.read (.newestFirst _) "a".toList "b".toList none []).run s).1 =
          (.kOK, row) := by
  intro s s'
  have hs : Reachable (.newestFirst _) (∅ ∪ {("a".toList, "b".toList)}) s :=
    .call (.insert "a".toList "b".toList [("f".toList, "x".toList)]) .empty
  obtain ⟨hread, hscan⟩ := records_separate hs
  refine ⟨hread "a".toList "c".toList "a".toList "b".toList (by decide) (by decide) (by decide)
    callsOnC (by decide) none [], by decide, by decide, [("f".toList, "x".toList)], by decide, ?_⟩
  obtain ⟨name, hname, hrow, -⟩ := hscan "a".toList "b".toList 5 none []
    [("f".toList, "x".toList)] (by decide)
  rw [Set.empty_union, Set.mem_singleton_iff] at hname
  rwa [hname] at hrow

/-- The key `bc` of the table `a` and the key `c` of the table `ab` are one record: an insertion of
the first makes the second appear. And a scan of the table `b` runs on into the table `a`, whose
strings in `key_table_` are different ones. -/
theorem tables_interfere :
    Reachable (.newestFirst _) ∅ Store.empty ∧
      (("a".toList, "bc".toList) : Str × Str) ≠ ("ab".toList, "c".toList) ∧
      ((HashtableDB.read (.newestFirst _) "ab".toList "c".toList none []).run Store.empty).1 =
        (.kErrorNoData, []) ∧
      ((HashtableDB.read (.newestFirst _) "ab".toList "c".toList none []).run
        ((runCalls (LockStlDB (.newestFirst _)) [.insert "a".toList "bc".toList
          [("f".toList, "x".toList)]]).run Store.empty).2).1 =
        (.kOK, [("f".toList, "x".toList)]) ∧
      ((HashtableDB.scan (.newestFirst _) "b".toList "k".toList 2 none []).run
        ((runCalls (LockStlDB (.newestFirst _)) [
          .insert "a".toList "k".toList [("f".toList, "x".toList)],
          .insert "b".toList "k".toList [("f".toList, "y".toList)]]).run Store.empty).2).1 =
        (.kOK, [[("f".toList, "y".toList)], [("f".toList, "x".toList)]]) := by
  refine ⟨.empty, ?_, ?_, ?_, ?_⟩ <;> decide

end YcsbC
