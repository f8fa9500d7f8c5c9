import YcsbC.Db.Operations

/-!
# Records with a schema

A store whose records are known: it has a record for exactly the keys in a set, and every record
has the fields of a schema. An update of one of the records keeps the store so, an insertion of the
whole schema adds a record or changes nothing, and reads change nothing.

## Main definitions

* `Store.Same`: the same memory, up to the addresses of copies that have been deleted.
* `Store.HasRecords`: the records of a store and their fields.

## Main results

* `Store.HasRecords.run_update`, `run_insert_new`, `run_insert_present`: the write operations.
* `Store.HasRecords.size`: the number of records.
-/

namespace YcsbC

open HashtableDB

namespace Store

variable {P H : Set ℕ} {s s' : Store}

/-! ### The same memory -/

/-- The same memory; only the address of the next copy may be another one. -/
structure Same (s s' : Store) : Prop where
  keyTable : s'.keyTable = s.keyTable
  fields : s'.fields = s.fields
  strings : ∀ p, s'.strings.get p = s.strings.get p
  faults : s'.faults = s.faults

theorem Same.refl (s : Store) : s.Same s := ⟨rfl, rfl, fun _ => rfl, rfl⟩

theorem Same.record (h : s.Same s') (k : VmpString) : s'.record k = s.record k := by
  have hcontent : s'.content = s.content := by
    funext t f
    rw [content, content, h.fields, funext h.strings]
  rw [Store.record, Store.record, h.keyTable, hcontent]

/-- An insertion stops at its first field, when that is present, and deletes the copy that it has
made. -/
theorem Wf.run_insert_conflict_first (h : s.Wf P H) {table key : Str} {t : ℕ}
    (ht : s.keyTable.get (keyIndex table key) = some t) {pair : KVPair}
    (hpresent : (s.content t (.wrap pair.1)).isSome) (values : List KVPair) :
    ∃ s', (insert table key (pair :: values)).run s = (.kErrorConflict, s') ∧ s.Same s' := by
  obtain ⟨field, str⟩ := pair
  have hrun := insert_present h (h.keyTable_live _ t ht) hpresent str
  refine ⟨((Store.copyString str).run s).2.release s.strings.next, ?_, ?_⟩
  · simp only [HashtableDB.insert, run_keyGet, ht, insertAt, insertFields, Program.run_bind,
      run_copyString_fst, hrun, if_neg Bool.false_ne_true, run_deleteString, Program.run_pure]
  · rw [release_of_live (get_copyString str s)]
    refine ⟨rfl, rfl, fun p => ?_, rfl⟩
    show ((s.strings.alloc (cStr str)).2.free s.strings.next).get p = s.strings.get p
    rw [Heap.get_free, Heap.get_alloc]
    split_ifs with hp
    · rw [hp, Heap.get_next]
    · rfl

/-- An insertion into a record that has all its fields changes nothing. -/
theorem Wf.run_insert_conflict (h : s.Wf P H) {table key : Str} {t : ℕ}
    (ht : s.keyTable.get (keyIndex table key) = some t) {values : List KVPair}
    (hpresent : ∀ k ∈ Record.names values, (s.content t k).isSome) :
    ∃ s', (insert table key values).run s =
        (if values = [] then .kOK else .kErrorConflict, s') ∧ s.Same s' := by
  obtain _ | ⟨pair, values⟩ := values
  · simp only [HashtableDB.insert, Program.run_bind, run_keyGet, ht, insertAt]
    exact ⟨s, rfl, .refl s⟩
  · rw [if_neg (List.cons_ne_nil pair values)]
    exact h.run_insert_conflict_first ht (hpresent _ List.mem_cons_self) values

/-! ### Known records -/

/-- The store has a record for exactly the keys in `keys`. Every record has all fields in `fields`,
and only fields in `allowed`. -/
structure HasRecords (fields : Finset VmpString) (allowed : Set VmpString)
    (keys : Finset VmpString) (s : Store) : Prop where
  wf : s.Wf ∅ ∅
  found : ∀ k, (s.record k).isSome ↔ k ∈ keys
  complete : ∀ k r, s.record k = some r → ∀ f ∈ fields, (r f).isSome
  allowed : ∀ k r, s.record k = some r → ∀ f, (r f).isSome → f ∈ allowed

variable {fields : Finset VmpString} {allowed : Set VmpString} {keys : Finset VmpString}

theorem hasRecords_empty (fields : Finset VmpString) (allowed : Set VmpString) :
    Store.empty.HasRecords fields allowed ∅ := by
  have hnone : ∀ k, Store.empty.record k = none := fun k =>
    record_eq_none.2 (UnorderedMap.find_empty k)
  refine ⟨wf_empty, fun k => ?_, fun k r hr => ?_, fun k r hr => ?_⟩
  · simp [hnone]
  · rw [hnone] at hr
    cases hr
  · rw [hnone] at hr
    cases hr

theorem HasRecords.same (h : s.HasRecords fields allowed keys) (hwf : s'.Wf ∅ ∅)
    (hs : s.Same s') : s'.HasRecords fields allowed keys where
  wf := hwf
  found k := by rw [hs.record, h.found]
  complete k r hr := h.complete k r (by rwa [← hs.record])
  allowed k r hr := h.allowed k r (by rwa [← hs.record])

theorem HasRecords.size (h : s.HasRecords fields allowed keys) : s.keyTable.size = keys.card :=
  UnorderedMap.size_eq_card fun k => by
    rw [← h.found, Store.record, Option.isSome_map]

theorem HasRecords.exists_get (h : s.HasRecords fields allowed keys) {key : Str}
    (hkey : .wrap key ∈ keys) :
    ∃ t, s.keyTable.get key = some t ∧ s.record (.wrap key) = some (s.content t) := by
  have hsome := (h.found _).2 hkey
  rw [Store.record, Option.isSome_map, Option.isSome_iff_exists] at hsome
  obtain ⟨t, ht⟩ := hsome
  exact ⟨t, ht, record_of_find ht⟩

/-- The record of one key has changed, or it is new. -/
theorem HasRecords.onlyAt (h : s.HasRecords fields allowed keys) (hwf : s'.Wf ∅ ∅)
    {k₀ : VmpString} (honly : s.OnlyAt k₀ s') {r₀ : Record} (hrec : s'.record k₀ = some r₀)
    (hcomplete : ∀ f ∈ fields, (r₀ f).isSome) (hallowed : ∀ f, (r₀ f).isSome → f ∈ allowed) :
    s'.HasRecords fields allowed (insert k₀ keys) := by
  have hother : ∀ k r, s'.record k = some r → k = k₀ ∧ r = r₀ ∨ s.record k = some r := by
    intro k r hr
    by_cases hk : k = k₀
    · subst hk
      exact .inl ⟨rfl, Option.some.inj (hr.symm.trans hrec)⟩
    · exact .inr ((honly.record hk).symm.trans hr)
  refine ⟨hwf, fun k => ?_, fun k r hr => ?_, fun k r hr => ?_⟩
  · rw [Finset.mem_insert]
    by_cases hk : k = k₀
    · rw [hk, hrec]
      simp
    · rw [honly.record hk, h.found, or_iff_right hk]
  · obtain ⟨-, rfl⟩ | hr := hother k r hr
    · exact hcomplete
    · exact h.complete k r hr
  · obtain ⟨-, rfl⟩ | hr := hother k r hr
    · exact hallowed
    · exact h.allowed k r hr

/-! ### The operations -/

theorem HasRecords.run_read (h : s.HasRecords fields allowed keys)
    (order : IterationOrder VmpString) {table key : Str} (hkey : .wrap (keyIndex table key) ∈ keys)
    (requested : Option (List Str)) :
    ∃ result, (read order table key requested []).run s = ((.kOK, result), s) := by
  obtain ⟨t, ht, -⟩ := h.exists_get hkey
  refine ⟨s.project order t requested, ?_⟩
  rw [HashtableDB.run_read h.wf, ht]

theorem HasRecords.run_update (h : s.HasRecords fields allowed keys) {table key : Str}
    (hkey : .wrap (keyIndex table key) ∈ keys) {values : List KVPair}
    (hvalues : ∀ f ∈ Record.names values, f ∈ allowed) :
    ∃ s', (update table key values).run s = (.kOK, s') ∧ s'.HasRecords fields allowed keys := by
  obtain ⟨t, -, hrecord⟩ := h.exists_get hkey
  obtain ⟨s', hrun, hwf, honly, hrec, -⟩ := HashtableDB.run_update h.wf table key values
  rw [hrecord, updatedRecord] at hrec
  refine ⟨s', hrun, ?_⟩
  have hs' := h.onlyAt hwf honly hrec
    (fun f hf => Record.setFields_isSome.2 (.inl (h.complete _ _ hrecord f hf)))
    (fun f hf => (Record.setFields_isSome.1 hf).elim (h.allowed _ _ hrecord f) (hvalues f))
  rwa [Finset.insert_eq_of_mem hkey] at hs'

theorem HasRecords.run_insert_new (h : s.HasRecords fields allowed keys) {table key : Str}
    (hkey : .wrap (keyIndex table key) ∉ keys) {values : List KVPair}
    (hnames : ∀ f, f ∈ Record.names values ↔ f ∈ fields) (hnodup : (Record.names values).Nodup)
    (hsub : ∀ f ∈ fields, f ∈ allowed) :
    ∃ s', (insert table key values).run s = (.kOK, s') ∧
      s'.HasRecords fields allowed (insert (.wrap (keyIndex table key)) keys) := by
  have hnone : s.record (.wrap (keyIndex table key)) = none := by
    rwa [← h.found, Option.not_isSome_iff_eq_none] at hkey
  obtain ⟨s', hrun, hwf, honly, hrec, -⟩ := HashtableDB.run_insert h.wf table key values
  rw [hnone, Option.getD_none,
    Record.insertFields_missing hnodup fun _ _ => rfl] at hrun hrec
  have hisSome : ∀ f, (Record.setFields values Record.empty f).isSome ↔ f ∈ fields := by
    intro f
    rw [Record.setFields_isSome, hnames]
    exact or_iff_right Bool.false_ne_true
  exact ⟨s', hrun, h.onlyAt hwf honly hrec (fun f hf => (hisSome f).2 hf)
    fun f hf => hsub f ((hisSome f).1 hf)⟩

/-- An insertion under a key that has a record changes nothing. -/
theorem HasRecords.run_insert_present (h : s.HasRecords fields allowed keys) {table key : Str}
    (hkey : .wrap (keyIndex table key) ∈ keys) {values : List KVPair}
    (hnames : ∀ f, f ∈ Record.names values ↔ f ∈ fields) :
    ∃ s', (insert table key values).run s =
        (if values = [] then .kOK else .kErrorConflict, s') ∧
      s.Same s' ∧ s'.HasRecords fields allowed keys := by
  obtain ⟨t, ht, hrecord⟩ := h.exists_get hkey
  obtain ⟨s', hrun, hsame⟩ := h.wf.run_insert_conflict ht fun k hk =>
    h.complete _ _ hrecord k ((hnames k).1 hk)
  obtain ⟨s'', hrun', hwf, -⟩ := HashtableDB.run_insert h.wf table key values
  rw [hrun] at hrun'
  obtain rfl : s' = s'' := congrArg Prod.snd hrun'
  exact ⟨s', hrun, hsame, h.same hwf hsame⟩

end Store

end YcsbC
