import Mathlib.Data.Finmap
import YcsbC.Db.Calls

/-!
# The store as a map of records

What the in-memory store is for, seen by the clients of one table: a finite map from keys to
records, where a record is a finite map from field names to values. The memory of a `LockStlDB`
denotes such a map, and every call of a client acts on the memory as its abstract counterpart acts
on the map.

## Main definitions

* `Fields`, `RecordMap`: the abstract state.
* `Call.next`, `Call.Allows`: the effect and the permitted outcomes of a call.
* `Store.Denotes`: the map that the memory stands for.

## Main results

* `Store.Denotes.step`: one call of the store is one step of the map.
* `lockStlDB_refines_recordMap`: so is every run from the empty store.
-/

namespace YcsbC

/-! ### The abstract map -/

/-- An abstract record. -/
abbrev Fields := Finmap fun _ : Str => Str

/-- The abstract state of one table. -/
abbrev RecordMap := Finmap fun _ : Str => Fields

namespace Fields

/-- Overwrite or add exactly the named fields. -/
def put (values : List KVPair) (fs : Fields) : Fields :=
  values.foldl (fun fs pair => fs.insert pair.1 pair.2) fs

/-- The pairs that an insertion adds: those before the first field that is already present. -/
def fresh (values : List KVPair) (fs : Fields) : List KVPair :=
  values.takeWhile fun pair => pair.1 ∉ fs

/-- Which fields an insertion adds depends on the presence of the named fields only. -/
theorem fresh_congr {values : List KVPair} {fs fs' : Fields}
    (h : ∀ pair ∈ values, pair.1 ∈ fs' ↔ pair.1 ∈ fs) : fs'.fresh values = fs.fresh values := by
  induction values with
  | nil => rfl
  | cons pair values ih =>
    have hrest := ih fun p hp => h p (List.mem_cons_of_mem _ hp)
    rw [fresh, fresh] at hrest ⊢
    simp only [List.takeWhile_cons, h pair List.mem_cons_self, hrest]

/-- The pairs that a `Read` may return: for a list of fields the pairs of those present, in the
order of the request; without a list every present field once. -/
def Returns (fs : Fields) : Option (List Str) → List KVPair → Prop
  | some fields, result => result = fields.filterMap fun field => (fs.lookup field).map (field, ·)
  | none, result =>
    (result.map Prod.fst).Nodup ∧ ∀ field str, (field, str) ∈ result ↔ fs.lookup field = some str

end Fields

namespace Call

/-- The effect of a call on the map. -/
def next (m : RecordMap) : Call → RecordMap
  | read _ _ _ _ => m
  | update _ key values => m.insert key (((m.lookup key).getD ∅).put values)
  | insert _ key values =>
    let fs := (m.lookup key).getD ∅
    m.insert key (fs.put (fs.fresh values))
  | delete _ key => m.erase key

/-- The outcomes of a call that the map permits. -/
def Allows (m : RecordMap) : Call → Outcome → Prop
  | read _ key fields result, out =>
    match m.lookup key with
    | none => out = (.kErrorNoData, result)
    | some fs => out.1 = .kOK ∧ fs.Returns fields out.2
  | update _ _ _, out => out.1 = .kOK
  | insert _ key values, out =>
    out.1 = if ∃ pair ∈ values, pair.1 ∈ (m.lookup key).getD ∅ then .kErrorConflict else .kOK
  | delete _ key, out => out.1 = if key ∈ m then .kOK else .kErrorNoData

/-- The fields that a call asks for by name. -/
def requested : Call → List Str
  | read _ _ (some fields) _ => fields
  | _ => []

/-- A call whose strings have no NUL and whose list of values names no field twice. -/
structure WellFormed (c : Call) : Prop where
  key_nulFree : NulFree c.key
  values_nulFree : ∀ pair ∈ c.values, NulFree pair.1 ∧ NulFree pair.2
  requested_nulFree : ∀ field ∈ c.requested, NulFree field
  names_nodup : (c.values.map Prod.fst).Nodup

/-- The call is an `Insert` or an `Update` of the key. -/
def Writes (key : Str) : Call → Prop
  | update _ key' _ => key' = key
  | insert _ key' _ => key' = key
  | _ => False

/-- The call is a `Delete` of the key. -/
def Deletes (key : Str) : Call → Prop
  | delete _ key' => key' = key
  | _ => False

end Call

namespace RecordMap

/-- The map after a history of calls. -/
def after (history : List Call) : RecordMap := history.foldl Call.next ∅

/-- The outcomes of a run that the map permits. -/
def Permits : RecordMap → List Call → List Outcome → Prop
  | _, [], outs => outs = []
  | m, c :: calls, outs => ∃ out outs', outs = out :: outs' ∧ c.Allows m out ∧
      Permits (c.next m) calls outs'

/-- The key has been inserted or updated since it was last deleted. -/
def Written (key : Str) (history : List Call) : Prop :=
  ∃ earlier c later, history = earlier ++ c :: later ∧ c.Writes key ∧
    ∀ c' ∈ later, ¬ c'.Deletes key

theorem after_append (history : List Call) (c : Call) :
    after (history ++ [c]) = c.next (after history) := by
  rw [after, List.foldl_append, List.foldl_cons, List.foldl_nil, after]

theorem mem_next {m : RecordMap} {c : Call} {key : Str} :
    key ∈ c.next m ↔ c.Writes key ∨ (key ∈ m ∧ ¬ c.Deletes key) := by
  cases c with
  | read table key' fields result => simp [Call.next, Call.Writes, Call.Deletes]
  | update table key' values =>
    simp only [Call.next, Finmap.mem_insert, Call.Writes, Call.Deletes, not_false_iff, and_true,
      eq_comm]
  | insert table key' values =>
    simp only [Call.next, Finmap.mem_insert, Call.Writes, Call.Deletes, not_false_iff, and_true,
      eq_comm]
  | delete table key' =>
    simp only [Call.next, Finmap.mem_erase, Call.Writes, Call.Deletes, false_or, ne_eq, eq_comm,
      and_comm]

theorem written_append {key : Str} {history : List Call} {c : Call} :
    Written key (history ++ [c]) ↔ c.Writes key ∨ (Written key history ∧ ¬ c.Deletes key) := by
  constructor
  · rintro ⟨earlier, c', later, heq, hwrites, hlater⟩
    obtain rfl | ⟨later', last, rfl⟩ := List.eq_nil_or_concat' later
    · obtain ⟨-, hc⟩ := List.append_inj' heq rfl
      rw [List.cons.inj hc |>.1]
      exact .inl hwrites
    · rw [← List.cons_append, ← List.append_assoc] at heq
      obtain ⟨rfl, hc⟩ := List.append_inj' heq rfl
      rw [List.cons.inj hc |>.1]
      exact .inr ⟨⟨earlier, c', later', rfl, hwrites,
        fun d hd => hlater d (List.mem_append_left _ hd)⟩, hlater last (by simp)⟩
  · rintro (hwrites | ⟨⟨earlier, c', later, rfl, hwrites, hlater⟩, hdel⟩)
    · exact ⟨history, c, [], rfl, hwrites, by simp⟩
    · refine ⟨earlier, c', later ++ [c], by simp, hwrites, fun d hd => ?_⟩
      rcases List.mem_append.1 hd with hd | hd
      · exact hlater d hd
      · rwa [List.mem_singleton.1 hd]

/-- A key has a record iff it has been written since it was last deleted. -/
theorem mem_after (key : Str) (history : List Call) :
    key ∈ after history ↔ Written key history := by
  induction history using List.reverseRecOn with
  | nil =>
    simp only [after, List.foldl_nil, Finmap.notMem_empty, false_iff]
    rintro ⟨earlier, c, later, heq, -⟩
    simp at heq
  | append_singleton history c ih => rw [after_append, mem_next, written_append, ih]

end RecordMap

/-! ### The map that the memory denotes -/

/-- A record of the memory stands for an abstract one. -/
structure Record.Denotes (r : Record) (fs : Fields) : Prop where
  lookup : ∀ k, r k = fs.lookup k.value
  nulFree : ∀ field ∈ fs, NulFree field

namespace Record

theorem denotes_empty : Record.empty.Denotes ∅ where
  lookup k := by simp [Record.empty]
  nulFree field h := absurd h Finmap.notMem_empty

variable {r : Record} {fs : Fields}

theorem Denotes.isSome (h : r.Denotes fs) {field : Str} (hf : NulFree field) :
    (r (.wrap field)).isSome ↔ field ∈ fs := by
  rw [h.lookup, VmpString.value_wrap, cStr_of_nulFree hf, Finmap.lookup_isSome]

theorem Denotes.insert (h : r.Denotes fs) {field str : Str} (hf : NulFree field)
    (hs : NulFree str) :
    Denotes (Function.update r (.wrap field) (some (cStr str))) (fs.insert field str) where
  lookup k := by
    by_cases hk : k = .wrap field
    · rw [hk, Function.update_self, VmpString.value_wrap, cStr_of_nulFree hf, cStr_of_nulFree hs,
        Finmap.lookup_insert]
    · rw [Function.update_of_ne hk, h.lookup, Finmap.lookup_insert_of_ne]
      rintro rfl
      exact hk k.wrap_value.symm
  nulFree field' h' := by
    rcases Finmap.mem_insert.1 h' with rfl | h'
    · exact hf
    · exact h.nulFree field' h'

/-- The loop of `Update` on a record that exists. -/
theorem Denotes.setFields (h : r.Denotes fs) {values : List KVPair}
    (hv : ∀ pair ∈ values, NulFree pair.1 ∧ NulFree pair.2) :
    (Record.setFields values r).Denotes (fs.put values) := by
  induction values generalizing r fs with
  | nil => exact h
  | cons pair values ih =>
    have hpair := hv pair List.mem_cons_self
    exact ih (h.insert hpair.1 hpair.2) fun p hp => hv p (List.mem_cons_of_mem _ hp)

/-- In a list that names no field twice, the names after the first one are not the first one. -/
theorem names_ne {pair : KVPair} {values : List KVPair}
    (hn : ((pair :: values).map Prod.fst).Nodup) {p : KVPair} (hp : p ∈ values) :
    p.1 ≠ pair.1 := by
  rw [List.map_cons, List.nodup_cons] at hn
  rintro hc
  exact hn.1 (hc ▸ List.mem_map_of_mem hp)

/-- The loop of `Update` on a record that has none of the fields. -/
theorem Denotes.addFields (h : r.Denotes fs) {values : List KVPair}
    (hv : ∀ pair ∈ values, NulFree pair.1 ∧ NulFree pair.2)
    (hn : (values.map Prod.fst).Nodup) (hfs : ∀ pair ∈ values, pair.1 ∉ fs) :
    (Record.addFields values r).Denotes (fs.put values) := by
  induction values generalizing r fs with
  | nil => exact h
  | cons pair values ih =>
    have hpair := hv pair List.mem_cons_self
    obtain ⟨field, str⟩ := pair
    rw [Record.addFields, if_neg (by rw [h.isSome hpair.1]; exact hfs _ List.mem_cons_self)]
    refine ih (h.insert hpair.1 hpair.2) (fun p hp => hv p (List.mem_cons_of_mem _ hp))
      (List.nodup_cons.1 hn).2 fun p hp => ?_
    rw [Finmap.mem_insert, not_or]
    exact ⟨names_ne hn hp, hfs p (List.mem_cons_of_mem _ hp)⟩

/-- The loop of `Insert`: it stops at the first field that is present. -/
theorem Denotes.insertFields (h : r.Denotes fs) {values : List KVPair}
    (hv : ∀ pair ∈ values, NulFree pair.1 ∧ NulFree pair.2)
    (hn : (values.map Prod.fst).Nodup) :
    (Record.insertFields values r).1 =
        (if ∃ pair ∈ values, pair.1 ∈ fs then .kErrorConflict else .kOK) ∧
      (Record.insertFields values r).2.Denotes (fs.put (fs.fresh values)) := by
  induction values generalizing r fs with
  | nil => exact ⟨by simp [Record.insertFields], h⟩
  | cons pair values ih =>
    have hpair := hv pair List.mem_cons_self
    obtain ⟨field, str⟩ := pair
    by_cases hf : field ∈ fs
    · rw [Record.insertFields, if_pos ((h.isSome hpair.1).2 hf), if_pos ⟨_, List.mem_cons_self, hf⟩,
        Fields.fresh, List.takeWhile_cons_of_neg (by simpa using hf)]
      exact ⟨rfl, h⟩
    · obtain ⟨hstatus, hrec⟩ := ih (h.insert hpair.1 hpair.2)
        (fun p hp => hv p (List.mem_cons_of_mem _ hp)) (List.nodup_cons.1 hn).2
      -- the rest of the list does not see the field that has just been added
      have hrest : ∀ p ∈ values, p.1 ∈ fs.insert field str ↔ p.1 ∈ fs := fun p hp => by
        rw [Finmap.mem_insert, or_iff_right (names_ne hn hp)]
      have hfresh : Fields.fresh values (fs.insert field str) = fs.fresh values :=
        Fields.fresh_congr hrest
      rw [Record.insertFields, if_neg (by rwa [h.isSome hpair.1])]
      constructor
      · rw [hstatus]
        refine if_congr ?_ rfl rfl
        simp only [List.mem_cons, exists_eq_or_imp, hf, false_or]
        exact exists_congr fun p => and_congr_right fun hp => hrest p hp
      · rw [hfresh] at hrec
        rwa [Fields.fresh, List.takeWhile_cons_of_pos (by simpa using hf)]

end Record

open Store HashtableDB

/-- The memory stands for a map: it is well formed, and each key has a record iff it is in the
map, with the fields that the map gives it. -/
structure Store.Denotes (table : Str) (s : Store) (m : RecordMap) : Prop where
  wf : s.Wf ∅ ∅
  records : ∀ key, NulFree key →
    Option.Rel Record.Denotes (s.record (.wrap (keyIndex table key))) (m.lookup key)

namespace Store

variable {table : Str} {s s' : Store} {m : RecordMap}

theorem denotes_empty (table : Str) : Store.empty.Denotes table ∅ where
  wf := wf_empty
  records key _ := by
    have h : Store.empty.record (.wrap (keyIndex table key)) = none :=
      record_eq_none.2 (UnorderedMap.find_empty _)
    rw [h, Finmap.lookup_empty]
    exact .none

theorem Denotes.missing_or_present (h : s.Denotes table m) {key : Str} (hkey : NulFree key) :
    (s.record (.wrap (keyIndex table key)) = none ∧ m.lookup key = none) ∨
      ∃ r fs, s.record (.wrap (keyIndex table key)) = some r ∧ m.lookup key = some fs ∧
        r.Denotes fs := by
  have hrel := h.records key hkey
  generalize s.record (.wrap (keyIndex table key)) = left at hrel ⊢
  generalize m.lookup key = right at hrel ⊢
  cases hrel with
  | none => exact .inl ⟨rfl, rfl⟩
  | some hr => exact .inr ⟨_, _, rfl, rfl, hr⟩

theorem Denotes.getD (h : s.Denotes table m) {key : Str} (hkey : NulFree key) :
    ((s.record (.wrap (keyIndex table key))).getD Record.empty).Denotes
      ((m.lookup key).getD ∅) := by
  obtain ⟨hrec, hm⟩ | ⟨r, fs, hrec, hm, hr⟩ := h.missing_or_present hkey
  · rw [hrec, hm]
    exact Record.denotes_empty
  · rw [hrec, hm]
    exact hr

theorem Denotes.isSome (h : s.Denotes table m) {key : Str} (hkey : NulFree key) :
    (s.record (.wrap (keyIndex table key))).isSome ↔ key ∈ m := by
  rw [← Finmap.lookup_isSome]
  obtain ⟨hrec, hm⟩ | ⟨r, fs, hrec, hm, -⟩ := h.missing_or_present hkey <;> rw [hrec, hm] <;> rfl

theorem Denotes.onlyAt (h : s.Denotes table m) (htable : NulFree table) {key : Str}
    (hkey : NulFree key) (hwf : s'.Wf ∅ ∅) (honly : s.OnlyAt (.wrap (keyIndex table key)) s')
    {m' : RecordMap} (hm : ∀ key', key' ≠ key → m'.lookup key' = m.lookup key')
    (hrec : Option.Rel Record.Denotes (s'.record (.wrap (keyIndex table key))) (m'.lookup key)) :
    s'.Denotes table m' where
  wf := hwf
  records key' hkey' := by
    by_cases hne : key' = key
    · rwa [hne]
    · rw [hm key' hne, honly.record]
      · exact h.records key' hkey'
      · intro hc
        rw [keyIndex, keyIndex, VmpString.wrap_inj_of_nulFree (nulFree_append.2 ⟨htable, hkey'⟩)
          (nulFree_append.2 ⟨htable, hkey⟩)] at hc
        exact hne (List.append_cancel_left hc)

theorem returns_project (order : IterationOrder VmpString) {t : ℕ} {fs : Fields}
    (hr : Record.Denotes (s.content t) fs) {fields : Option (List Str)}
    (hfields : ∀ names, fields = some names → ∀ field ∈ names, NulFree field) :
    fs.Returns fields (s.project order t fields) := by
  cases fields with
  | some names =>
    refine List.filterMap_congr fun field hf => ?_
    rw [hr.lookup, VmpString.value_wrap, cStr_of_nulFree (hfields names rfl field hf)]
  | none =>
    refine ⟨nodup_pairs order s t, fun field str => ?_⟩
    rw [project, mem_pairs, hr.lookup, VmpString.value_wrap]
    constructor
    · rintro ⟨hf, hlookup⟩
      rwa [cStr_of_nulFree hf] at hlookup
    · intro hlookup
      have hf := hr.nulFree field (Finmap.mem_of_lookup_eq_some hlookup)
      exact ⟨hf, by rwa [cStr_of_nulFree hf]⟩

/-- **One call of the store is one step of the map.** -/
theorem Denotes.step (order : IterationOrder VmpString) (htable : NulFree table)
    (h : s.Denotes table m) {c : Call} (hc : c.WellFormed) (hct : c.table = table) :
    c.Allows m ((c.program (LockStlDB order)).run s).1 ∧
      ((c.program (LockStlDB order)).run s).2.Denotes table (c.next m) := by
  subst hct
  have hkey := hc.key_nulFree
  cases c with
  | read table key fields result =>
    simp only [Call.table, Call.key] at htable hkey h ⊢
    have hrun := run_read h.wf order table key fields result
    simp only [Call.program, LockStlDB, hrun]
    refine ⟨?_, h⟩
    obtain ⟨hrec, hm⟩ | ⟨r, fs, hrec, hm, hr⟩ := h.missing_or_present hkey
    · have hfind : s.keyTable.get (keyIndex table key) = none := record_eq_none.1 hrec
      simp only [Call.Allows, hm, hfind]
    · obtain ⟨t, hfind, rfl⟩ := Option.map_eq_some_iff.1 hrec
      have hget : s.keyTable.get (keyIndex table key) = some t := hfind
      simp only [Call.Allows, hm, hget, true_and]
      refine returns_project order hr fun names hnames => ?_
      subst hnames
      exact hc.requested_nulFree
  | update table key values =>
    simp only [Call.table, Call.key] at htable hkey h ⊢
    obtain ⟨s', hrun, hwf, honly, hrec, -⟩ := run_update h.wf table key values
    simp only [Call.program, LockStlDB, Program.run_map, hrun]
    refine ⟨rfl, h.onlyAt htable hkey hwf honly (fun key' hne => ?_) ?_⟩
    · rw [Call.next, Finmap.lookup_insert_of_ne _ hne]
    · rw [hrec, Call.next, Finmap.lookup_insert]
      refine .some ?_
      obtain ⟨hnone, hm⟩ | ⟨r, fs, hsome, hm, hr⟩ := h.missing_or_present hkey
      · rw [hnone, hm]
        exact Record.denotes_empty.addFields hc.values_nulFree hc.names_nodup
          fun _ _ => Finmap.notMem_empty
      · rw [hsome, hm]
        exact hr.setFields hc.values_nulFree
  | insert table key values =>
    simp only [Call.table, Call.key] at htable hkey h ⊢
    obtain ⟨s', hrun, hwf, honly, hrec, -⟩ := run_insert h.wf table key values
    obtain ⟨hstatus, hfields⟩ :=
      (h.getD hkey).insertFields hc.values_nulFree hc.names_nodup
    simp only [Call.program, LockStlDB, Program.run_map, hrun]
    refine ⟨hstatus, h.onlyAt htable hkey hwf honly (fun key' hne => ?_) ?_⟩
    · rw [Call.next, Finmap.lookup_insert_of_ne _ hne]
    · rw [hrec, Call.next, Finmap.lookup_insert]
      exact .some hfields
  | delete table key =>
    simp only [Call.table, Call.key] at htable hkey h ⊢
    obtain ⟨s', hrun, hwf, honly, hrec⟩ := run_delete h.wf order table key
    simp only [Call.program, LockStlDB, Program.run_map, hrun]
    refine ⟨if_congr (h.isSome hkey) rfl rfl,
      h.onlyAt htable hkey hwf honly (fun key' hne => ?_) ?_⟩
    · rw [Call.next, Finmap.lookup_erase_ne hne]
    · rw [hrec, Call.next, Finmap.lookup_erase]
      exact .none

/-- A run of the store is a run of the map. -/
theorem Denotes.run (order : IterationOrder VmpString) (htable : NulFree table)
    (h : s.Denotes table m) {calls : List Call}
    (hcalls : ∀ c ∈ calls, c.WellFormed ∧ c.table = table) :
    RecordMap.Permits m calls ((runCalls (LockStlDB order) calls).run s).1 ∧
      ((runCalls (LockStlDB order) calls).run s).2.Denotes table (calls.foldl Call.next m) := by
  induction calls generalizing s m with
  | nil => exact ⟨rfl, h⟩
  | cons c calls ih =>
    obtain ⟨hc, hct⟩ := hcalls c List.mem_cons_self
    obtain ⟨hallows, hnext⟩ := h.step order htable hc hct
    obtain ⟨hpermits, hlast⟩ := ih hnext fun c' hc' => hcalls c' (List.mem_cons_of_mem _ hc')
    simp only [runCalls, Program.run_bind, Program.run_pure, List.foldl_cons]
    exact ⟨⟨_, _, rfl, hallows, hpermits⟩, hlast⟩

end Store

/-- **The in-memory store is a map of records.** Every run of well-formed calls on one table, from
the empty store, has outcomes that the map permits and ends in memory that denotes the map, without
a fault; and the map has a record for exactly the keys written since they were last deleted. -/
theorem lockStlDB_refines_recordMap (order : IterationOrder VmpString) {table : Str}
    (htable : NulFree table) {calls : List Call}
    (hcalls : ∀ c ∈ calls, c.WellFormed ∧ c.table = table) :
    RecordMap.Permits ∅ calls ((runCalls (LockStlDB order) calls).run Store.empty).1 ∧
      ((runCalls (LockStlDB order) calls).run Store.empty).2.Denotes table
        (RecordMap.after calls) ∧
      ((runCalls (LockStlDB order) calls).run Store.empty).2.faults = [] ∧
      ∀ history, history <+: calls →
        ∀ key, key ∈ RecordMap.after history ↔ RecordMap.Written key history := by
  obtain ⟨hpermits, hlast⟩ := (Store.denotes_empty table).run order htable hcalls
  exact ⟨hpermits, hlast, hlast.wf.no_faults, fun history _ key => RecordMap.mem_after key history⟩

/-- A run that writes a record, reads it, deletes it and reads it again. -/
theorem lockStlDB_refines_recordMap_usertable :
    let calls : List Call := [
      .update "t".toList "u1".toList [("f0".toList, "a".toList), ("f1".toList, "b".toList)],
      .read "t".toList "u1".toList (some ["f1".toList, "f2".toList, "f1".toList]) [],
      .delete "t".toList "u1".toList,
      .read "t".toList "u1".toList none []]
    RecordMap.Permits ∅ calls ((runCalls (LockStlDB (.newestFirst _)) calls).run Store.empty).1 ∧
      ((runCalls (LockStlDB (.newestFirst _)) calls).run Store.empty).2.Denotes "t".toList
        (RecordMap.after calls) ∧
      ((runCalls (LockStlDB (.newestFirst _)) calls).run Store.empty).2.faults = [] ∧
      ∀ history, history <+: calls →
        ∀ key, key ∈ RecordMap.after history ↔ RecordMap.Written key history := by
  refine lockStlDB_refines_recordMap (.newestFirst _) (by decide) fun c hc => ?_
  simp only [List.mem_cons, List.not_mem_nil, or_false] at hc
  rcases hc with rfl | rfl | rfl | rfl
  all_goals exact ⟨⟨by decide, by decide, by decide, by decide⟩, rfl⟩

end YcsbC
