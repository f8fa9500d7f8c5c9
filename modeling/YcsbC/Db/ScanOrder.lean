import Mathlib.Algebra.Group.Nat.Defs
import YcsbC.Db.Reachable

/-!
# Scans

`Scan` walks through `key_table_` in its order of iteration, from the entry of a key on, and
projects every record that it comes to as `Read` does. So a scan is a list of reads, and a long scan
is two shorter ones, the second of which starts at the record where the first one has stopped.

## Main definitions

* `Store.recordsFrom`: the records that a scan may come to.
* `scanned`: the result of a scan.

## Main results

* `run_scan_recordsFrom`: a scan in terms of the records from its key on.
* `scan_agrees_with_read`: a scan is a list of reads.
-/

namespace YcsbC

open Store HashtableDB

/-- The entries of `key_table_` at and after a key, in the order of iteration. -/
def Store.recordsFrom (order : IterationOrder VmpString) (s : Store) (k : VmpString) :
    List (VmpString × ℕ) :=
  s.keyTable.iterateFrom order k

/-- The result of a `Scan`. -/
def scanned (order : IterationOrder VmpString) (s : Store) (table key : Str) (len : ℤ)
    (fields : Option (List Str)) : List (List KVPair) :=
  ((scan order table key len fields []).run s).1.2

variable {P H : Set ℕ} {order : IterationOrder VmpString} {W : Set (Str × Str)} {s : Store}

theorem toSizeT_of_nonneg {len : ℤ} (hlen : 0 ≤ len ∧ len < 2 ^ 31) : toSizeT len = len.toNat := by
  rw [toSizeT, Int.emod_eq_of_lt hlen.1 (by omega)]

theorem run_scan_recordsFrom (h : s.Wf P H) (order : IterationOrder VmpString) (table key : Str)
    {len : ℤ} (hlen : 0 ≤ len ∧ len < 2 ^ 31) (fields : Option (List Str))
    (result : List (List KVPair)) :
    (scan order table key len fields result).run s =
      ((.kOK, ((s.recordsFrom order (.wrap (keyIndex table key))).take len.toNat).map
        fun e => s.project order e.2 fields), s) := by
  rw [run_scan h, toSizeT_of_nonneg hlen, StlHashtable.entries, List.map_map]
  rfl

theorem scanned_eq (h : s.Wf P H) (table key : Str) {len : ℤ} (hlen : 0 ≤ len ∧ len < 2 ^ 31)
    (fields : Option (List Str)) :
    scanned order s table key len fields =
      ((s.recordsFrom order (.wrap (keyIndex table key))).take len.toNat).map
        fun e => s.project order e.2 fields := by
  rw [scanned, run_scan_recordsFrom h order table key hlen]

theorem run_read_of_mem_recordsFrom (h : s.Wf P H) {k : VmpString} {e : VmpString × ℕ}
    (he : e ∈ s.recordsFrom order k) {table key : Str} (hkey : .wrap (keyIndex table key) = e.1)
    (fields : Option (List Str)) :
    (read order table key fields []).run s = ((.kOK, s.project order e.2 fields), s) := by
  have hfind : s.keyTable.get (keyIndex table key) = some e.2 := by
    rw [StlHashtable.get, hkey]
    exact UnorderedMap.mem_iterate_of_mem_iterateFrom he
  rw [run_read h, hfind]

theorem scanned_add (h : s.Wf P H) (table key key' : Str) {m n : ℕ} (hlen : m + n < 2 ^ 31)
    (hnext : ((s.recordsFrom order (.wrap (keyIndex table key)))[m]?).map Prod.fst =
      some (.wrap (keyIndex table key'))) (fields : Option (List Str)) :
    scanned order s table key (m + n) fields =
      scanned order s table key m fields ++ scanned order s table key' n fields := by
  obtain ⟨e, he, hkey⟩ := Option.map_eq_some_iff.1 hnext
  have hrest := UnorderedMap.drop_iterateFrom he
  rw [hkey] at hrest
  rw [scanned_eq h table key (by omega), scanned_eq h table key (by omega),
    scanned_eq h table key' (by omega), Int.toNat_natCast, Int.toNat_natCast,
    show ((m : ℤ) + n).toNat = m + n from Int.toNat_natCast (m + n), List.take_add,
    List.map_append, recordsFrom, hrest, recordsFrom]

/-- A scan that has come to the end of the table finds nothing more. -/
theorem scanned_add_of_end (h : s.Wf P H) (table key : Str) {m n : ℕ} (hlen : m + n < 2 ^ 31)
    (hend : (s.recordsFrom order (.wrap (keyIndex table key))).length ≤ m)
    (fields : Option (List Str)) :
    scanned order s table key (m + n) fields = scanned order s table key m fields := by
  rw [scanned_eq h table key (by omega), scanned_eq h table key (by omega), Int.toNat_natCast,
    show ((m : ℤ) + n).toNat = m + n from Int.toNat_natCast (m + n), List.take_of_length_le hend,
    List.take_of_length_le (by omega)]

/-- **A scan is a list of reads.** It succeeds and changes nothing. Without a record for its key it
is empty. Otherwise it has as many rows as it asks for, or as there are records from its key on; the
first of these is that of the key, none comes twice, and each row is what a read of that record
returns. A scan of `m + n` rows is a scan of `m` rows and one of `n` rows from the record that comes
next, if there is one. -/
theorem scan_agrees_with_read (h : Reachable order W s) {table : Str}
    (htable : ∀ name ∈ W, name.1 = table) (key : Str) {len : ℤ} (hlen : 0 ≤ len ∧ len < 2 ^ 31)
    (fields : Option (List Str)) (result : List (List KVPair)) :
    let k := VmpString.wrap (keyIndex table key)
    let records := s.recordsFrom order k
    let rows := scanned order s table key len fields
    (scan order table key len fields result).run s = ((.kOK, rows), s) ∧
      (s.record k = none → rows = []) ∧
      ((s.record k).isSome → rows.length = min len.toNat records.length ∧
        (records.map Prod.fst).head? = some k ∧ (records.map Prod.fst).Nodup ∧
        ∀ (i : ℕ) (row : List KVPair), rows[i]? = some row →
          ∃ e : VmpString × ℕ, records[i]? = some e ∧
            (∃ key', VmpString.wrap (keyIndex table key') = e.1) ∧
            ∀ key', VmpString.wrap (keyIndex table key') = e.1 →
              (read order table key' fields []).run s = ((.kOK, row), s)) ∧
      ∀ m n : ℕ, m + n < 2 ^ 31 →
        (∀ key', (records[m]?).map Prod.fst = some (.wrap (keyIndex table key')) →
          scanned order s table key (m + n) fields =
            scanned order s table key m fields ++ scanned order s table key' n fields) ∧
        (records.length ≤ m →
          scanned order s table key (m + n) fields = scanned order s table key m fields) := by
  intro k records rows
  have hrows : rows = (records.take len.toNat).map fun e => s.project order e.2 fields :=
    scanned_eq h.wf table key hlen fields
  refine ⟨?_, fun hnone => ?_, fun hsome => ⟨?_, ?_, ?_, fun i row hrow => ?_⟩,
    fun m n hmn => ⟨fun key' hnext => ?_, fun hend => ?_⟩⟩
  · rw [hrows]
    exact run_scan_recordsFrom h.wf order table key hlen fields result
  · have hempty : records = [] :=
      UnorderedMap.iterateFrom_of_find_none order (record_eq_none.1 hnone)
    rw [hrows, hempty, List.take_nil, List.map_nil]
  · rw [hrows, List.length_map, List.length_take]
  · rw [Store.record, Option.isSome_map, Option.isSome_iff_exists] at hsome
    obtain ⟨t, ht⟩ := hsome
    obtain ⟨after, hafter⟩ := UnorderedMap.iterateFrom_of_find_some order ht
    have hcons : records = (k, t) :: after := hafter
    rw [hcons]
    rfl
  · exact UnorderedMap.nodup_iterateFrom order s.keyTable k
  · rw [hrows, List.getElem?_map, Option.map_eq_some_iff] at hrow
    obtain ⟨e, he, rfl⟩ := hrow
    have hget : records[i]? = some e := by
      obtain ⟨hi, -⟩ := List.getElem?_eq_some_iff.1 he
      rw [List.length_take] at hi
      rwa [List.getElem?_take_of_lt (by omega)] at he
    have hmem := List.mem_of_getElem? hget
    refine ⟨e, hget, ?_, fun key' hkey' => run_read_of_mem_recordsFrom h.wf hmem hkey' fields⟩
    obtain ⟨name, hname, hindex⟩ :=
      h.found (UnorderedMap.mem_iterate_of_mem_iterateFrom hmem)
    exact ⟨name.2, by rw [← hindex, htable name hname]⟩
  · exact scanned_add h.wf table key key' hmn hnext fields
  · exact scanned_add_of_end h.wf table key hmn hend fields

/-- A scan of a store with two records. -/
theorem scan_agrees_with_read_two_records :
    let c (key : Str) : Call := .insert "t".toList key [("f0".toList, key)]
    let s := (((c "u2".toList).program (LockStlDB (.newestFirst _))).run
      (((c "u1".toList).program (LockStlDB (.newestFirst _))).run Store.empty).2).2
    scanned (.newestFirst _) s "t".toList "u2".toList 5 none =
      scanned (.newestFirst _) s "t".toList "u2".toList 1 none ++
        scanned (.newestFirst _) s "t".toList "u1".toList 4 none := by
  intro c s
  have hs := Reachable.call (c "u2".toList)
    (.call (c "u1".toList) (.empty : Reachable (.newestFirst _) ∅ Store.empty))
  have htable : ∀ name ∈ ∅ ∪ (c "u1".toList).written ∪ (c "u2".toList).written,
      name.1 = "t".toList := by
    rintro name ((hname | hname) | hname)
    · exact hname.elim
    · rw [Set.mem_singleton_iff.1 hname]
    · rw [Set.mem_singleton_iff.1 hname]
  obtain ⟨-, -, -, hadd⟩ := scan_agrees_with_read hs htable "u2".toList
    (show (0 : ℤ) ≤ 5 ∧ (5 : ℤ) < 2 ^ 31 by decide) none []
  exact (hadd 1 4 (by decide)).1 "u1".toList (by decide)

end YcsbC
