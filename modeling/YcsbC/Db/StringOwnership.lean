import YcsbC.Db.Calls
import YcsbC.Foundation.Triples

/-!
# Each value string has one owner

A value string is copied by `Update` or `Insert`, stored in a field table, and deleted when another
value takes its place, when an insertion does not take it, or with its field table. As long as no
list of values names a field twice, nothing is lost on the way: between the calls the live strings
are those of the records, each in one place, and the destructor leaves none.

## Main definitions

* `Store.Owned`: well-formed memory without any blocks but those of the records and of the running
  operation.
* `Store.Entry`, `Store.OwnedOnce`: the entries of the records, and the invariant between calls.
* `Store.ReleasesUnstored`, `Store.ReleasesWithTable`: what a step of a call and a step of the
  destructor may release.

## Main results

* `Call.meets`: a call keeps the memory owned.
* `meets_destroy`: the destructor leaves nothing behind.
* `strings_owned_once`: the strings of a whole run.
-/

namespace YcsbC

open HashtableDB Program

namespace Store

/-- The memory is well formed, and every block belongs to a record or is held by a running
operation. -/
structure Owned (P H : Set ℕ) (s : Store) : Prop where
  wf : s.Wf P H
  table_owned : ∀ t, s.Live t → t ∈ P ∨ ∃ k, s.keyTable.find k = some t
  string_owned : ∀ p str, s.strings.get p = some str → p ∈ H ∨ ∃ t k, s.Holds t k p

/-- The record `e.1` points to the string `p` at its field `e.2`. -/
def Entry (s : Store) (e : VmpString × VmpString) (p : ℕ) : Prop :=
  ∃ t, s.keyTable.find e.1 = some t ∧ s.Holds t e.2 p

/-- The live strings are those that the records point to, each string in one place. -/
structure OwnedOnce (s : Store) : Prop where
  live_iff : ∀ p, (s.strings.get p).isSome ↔ ∃ e, s.Entry e p
  unique : ∀ e e' p, s.Entry e p → s.Entry e' p → e = e'
  no_faults : s.faults = []

/-- A step of a call: no fault, and no string is released that a record points to. -/
structure ReleasesUnstored (s s' : Store) : Prop where
  faults : s'.faults = s.faults
  released : ∀ p, s'.strings.Released p → s.strings.Released p ∨ ∀ e, ¬ s.Entry e p

/-- A step of the destructor: no fault, and a string is released with the field table that points
to it. -/
structure ReleasesWithTable (s s' : Store) : Prop where
  faults : s'.faults = s.faults
  released : ∀ p, s'.strings.Released p →
    s.strings.Released p ∨ ∀ t k, s.Holds t k p → ¬ s'.Live t

variable {P H : Set ℕ} {s s' : Store} {t p : ℕ} {table table' : StlHashtable ℕ} {k : VmpString}

theorem owned_empty : Store.empty.Owned ∅ ∅ where
  wf := wf_empty
  table_owned t ht := by simp [Live, Store.empty] at ht
  string_owned _ _ hp := by simp [Store.empty] at hp

theorem Owned.ownedOnce (h : s.Owned ∅ ∅) : s.OwnedOnce where
  live_iff p := by
    rw [Option.isSome_iff_exists]
    constructor
    · rintro ⟨str, hstr⟩
      obtain hp | ⟨t, f, hf⟩ := h.string_owned p str hstr
      · exact hp.elim
      obtain ⟨table, ht, -⟩ := id hf
      obtain hp | ⟨k, hk⟩ := h.table_owned t ⟨table, ht⟩
      · exact hp.elim
      · exact ⟨(k, f), t, hk, hf⟩
    · rintro ⟨e, t, -, hf⟩
      exact h.wf.string_live t e.2 p hf
  unique := by
    rintro ⟨k, f⟩ ⟨k', f'⟩ p ⟨t, hk, hf⟩ ⟨t', hk', hf'⟩
    obtain ⟨rfl, rfl⟩ := h.wf.string_inj t f t' f' p hf hf'
    rw [h.wf.keyTable_inj k k' t hk hk']
  no_faults := h.wf.no_faults

theorem ReleasesUnstored.of_strings (hfaults : s'.faults = s.faults)
    (hstrings : s'.strings = s.strings) : s.ReleasesUnstored s' :=
  ⟨hfaults, fun _ hp => .inl (hstrings ▸ hp)⟩

/-! ### The steps of the operations -/

theorem Owned.copyString (h : s.Owned P ∅) (str : Str) :
    ((Store.copyString str).run s).2.Owned P {s.strings.next} ∧
      s.ReleasesUnstored ((Store.copyString str).run s).2 := by
  refine ⟨⟨?_, h.table_owned, fun p v hp => ?_⟩, rfl, fun p hp => .inl ?_⟩
  · rw [← insert_empty_eq]
    exact h.wf.copyString str
  · rw [run_copyString_snd, Heap.get_alloc] at hp
    split_ifs at hp with hnext
    · exact .inl hnext
    · exact (h.string_owned p v hp).imp_left fun hmem => hmem.elim
  · obtain ⟨hlt, hnone⟩ := hp
    rw [run_copyString_snd, Heap.get_alloc] at hnone
    split_ifs at hnone with hnext
    refine ⟨?_, hnone⟩
    have hle : p < s.strings.next + 1 := hlt
    omega

theorem Owned.release (h : s.Owned P {p}) :
    (s.release p).Owned P ∅ ∧ s.ReleasesUnstored (s.release p) ∧
      (s.release p).fields = s.fields := by
  obtain ⟨str, hstr⟩ := h.wf.held_live p rfl
  obtain ⟨hwf, -, hfields, -⟩ := h.wf.release (Set.mem_singleton p)
  rw [release_of_live hstr] at hwf hfields ⊢
  refine ⟨⟨?_, h.table_owned, fun q v hq => ?_⟩, ⟨rfl, fun q hq => ?_⟩, rfl⟩
  · rwa [Set.sdiff_self] at hwf
  · rw [Heap.get_free] at hq
    split_ifs at hq with hqp
    exact .inr ((h.string_owned q v hq).resolve_left hqp)
  · by_cases hqp : q = p
    · exact .inr fun e ⟨t, _, hf⟩ => h.wf.held_unstored p rfl t e.2 (hqp ▸ hf)
    · obtain ⟨hlt, hnone⟩ := hq
      rw [Heap.get_free, if_neg hqp] at hnone
      exact .inl ⟨hlt, hnone⟩

/-- A field of a live table is made to point to the held string; what it pointed to before is held
from now on. -/
theorem Owned.link (h : s.Owned P {p}) (ht : s.fields.get t = some table)
    (hfind : ∀ k', table'.find k' = if k' = k then some p else table.find k') :
    (s.withTable t table').Owned P {q | table.find k = some q} where
  wf := (h.wf.link ht (Set.mem_singleton p) hfind).mono subset_rfl fun _ hq => .inr hq
  table_owned t' ht' := h.table_owned t' ((live_withTable ht t').1 ht')
  string_owned q v hq := by
    obtain hqp | ⟨t', k', hold⟩ := h.string_owned q v hq
    · refine .inr ⟨t, k, (holds_withTable ht t k q).2 ?_⟩
      rw [if_pos rfl, hfind, if_pos rfl, Set.mem_singleton_iff.1 hqp]
    by_cases hplace : t' = t ∧ k' = k
    · obtain ⟨table₀, ht₀, hk₀⟩ := hold
      rw [hplace.1, ht] at ht₀
      cases ht₀
      exact .inl (hplace.2 ▸ hk₀)
    · refine .inr ⟨t', k', (holds_withTable ht t' k' q).2 ?_⟩
      split_ifs with ht'
      · obtain ⟨table₀, ht₀, hk₀⟩ := hold
        rw [ht', ht] at ht₀
        cases ht₀
        rw [hfind, if_neg fun hk' => hplace ⟨ht', hk'⟩, hk₀]
      · exact hold

/-- `field_table->Insert` of a new field stores the held string. -/
theorem Owned.fieldInsert (h : s.Owned P {p}) (ht : s.fields.get t = some table) {field : Str}
    (hf : table.get field = none) :
    (fieldInsert t field p).run s = (true, s.withTable t (table.insert field p).2) ∧
      (s.withTable t (table.insert field p).2).Owned P ∅ := by
  have hfind : ∀ k, (table.insert field p).2.find k =
      if k = .wrap field then some p else table.find k := fun k => by
    rw [StlHashtable.find_insert, hf, Option.getD_none]
  have hnone : {q | table.find (.wrap field) = some q} = ∅ := by
    ext q
    simp [show table.find (.wrap field) = none from hf]
  refine ⟨?_, hnone ▸ h.link ht hfind⟩
  rw [Store.fieldInsert, run_onTable ht, StlHashtable.insert_fst, hf, Option.isNone_none]

/-- `field_table->Update` of a field that is present stores the held string and hands the old one
out. -/
theorem Owned.fieldUpdate (h : s.Owned P {p}) (ht : s.fields.get t = some table) {field : Str}
    {old : ℕ} (hf : table.get field = some old) :
    (fieldUpdate t field p).run s = (some old, s.withTable t (table.update field p).2) ∧
      (s.withTable t (table.update field p).2).Owned P {old} := by
  have hfind : ∀ k, (table.update field p).2.find k =
      if k = .wrap field then some p else table.find k := fun k => by
    rw [StlHashtable.find_update, hf, Option.map_some]
  have hold : {q | table.find (.wrap field) = some q} = {old} := by
    ext q
    simp [show table.find (.wrap field) = some old from hf, eq_comm]
  refine ⟨?_, hold ▸ h.link ht hfind⟩
  rw [Store.fieldUpdate, run_onTable ht, StlHashtable.update_fst, hf]

theorem Owned.newFieldHashtable (h : s.Owned ∅ ∅) :
    (newFieldHashtable.run s).2.Owned {s.fields.next} ∅ where
  wf := by
    rw [← insert_empty_eq]
    exact h.wf.newFieldHashtable.1
  table_owned t ht := by
    obtain ⟨table, ht⟩ := ht
    rw [run_newFieldHashtable, Heap.get_alloc] at ht
    split_ifs at ht with hnext
    · exact .inl hnext
    · exact .inr ((h.table_owned t ⟨table, ht⟩).resolve_left id)
  string_owned p str hp := by
    obtain hp | ⟨t, k, table, ht, hk⟩ := h.string_owned p str hp
    · exact hp.elim
    · exact .inr ⟨t, k, table, Heap.get_alloc_of_some ht _, hk⟩

theorem Owned.keyInsert (h : s.Owned {t} ∅) {key : Str} (hkey : s.keyTable.get key = none) :
    (keyInsert key t).run s =
        (true, { s with keyTable := (s.keyTable.insert key t).2 }) ∧
      ({ s with keyTable := (s.keyTable.insert key t).2 } : Store).Owned ∅ ∅ := by
  have hfind : ∀ k, (s.keyTable.insert key t).2.find k =
      if k = .wrap key then some t else s.keyTable.find k := fun k => by
    rw [StlHashtable.find_insert, hkey, Option.getD_none]
  refine ⟨?_, ?_, fun t' ht' => .inr ?_, h.string_owned⟩
  · rw [run_keyInsert, StlHashtable.insert_fst, hkey, Option.isNone_none]
  · have hwf := h.wf.keyInsert hkey (Set.mem_singleton t)
    rwa [Set.sdiff_self] at hwf
  · obtain rfl | ⟨k, hk⟩ := h.table_owned t' ht'
    · exact ⟨.wrap key, (hfind _).trans (if_pos rfl)⟩
    · refine ⟨k, (hfind k).trans ((if_neg ?_).trans hk)⟩
      rintro rfl
      cases hkey.symm.trans hk

theorem Owned.keyRemove (h : s.Owned ∅ ∅) {key : Str} (hkey : s.keyTable.get key = some t) :
    ({ s with keyTable := (s.keyTable.remove key).2 } : Store).Owned {t} ∅ := by
  refine ⟨?_, fun t' ht' => ?_, h.string_owned⟩
  · have hwf := h.wf.unpublish hkey
    rwa [run_keyRemove, insert_empty_eq] at hwf
  · obtain ⟨k, hk⟩ := (h.table_owned t' ht').resolve_left id
    by_cases hk' : k = .wrap key
    · rw [hk'] at hk
      exact .inl (Option.some.inj (hk.symm.trans hkey))
    · exact .inr ⟨k, (StlHashtable.find_remove s.keyTable key k).trans ((if_neg hk').trans hk)⟩

theorem Owned.deleteFieldHashtable (h : s.Owned P ∅) (order : IterationOrder VmpString)
    (ht : t ∈ P) :
    ∃ s', (deleteFieldHashtable order t).run s = ((), s') ∧ s'.Owned (P \ {t}) ∅ ∧
      s'.keyTable = s.keyTable ∧ s'.faults = s.faults ∧ ¬ s'.Live t ∧
      ∀ p, s'.strings.Released p → s.strings.Released p ∨ ∃ k, s.Holds t k p := by
  obtain ⟨s', hrun, hkey, hfields, hfaults, hnext, hgone, hstrings⟩ :=
    h.wf.run_deleteFieldHashtable order (h.wf.table_live t ht)
  obtain ⟨hwf, -⟩ := h.wf.deleteFieldHashtable ht hkey hfields hfaults hstrings
  have hget : ∀ t', s'.fields.get t' = if t' = t then none else s.fields.get t' := fun t' => by
    rw [hfields, Heap.get_free]
  refine ⟨s', hrun, ⟨hwf, fun t' ht' => ?_, fun p str hp => ?_⟩, hkey, hfaults, ?_, fun p hp => ?_⟩
  · obtain ⟨table, ht'⟩ := ht'
    rw [hget] at ht'
    split_ifs at ht' with hne
    rw [hkey]
    exact (h.table_owned t' ⟨table, ht'⟩).imp_left fun hmem => ⟨hmem, hne⟩
  · by_cases hheld : ∃ k, s.Holds t k p
    · obtain ⟨k, hk⟩ := hheld
      rw [hgone k p hk] at hp
      cases hp
    · rw [hstrings p fun k hk => hheld ⟨k, hk⟩] at hp
      obtain hp | ⟨t', k, table, ht', hk⟩ := h.string_owned p str hp
      · exact hp.elim
      · refine .inr ⟨t', k, table, (hget t').trans ((if_neg ?_).trans ht'), hk⟩
        rintro rfl
        exact hheld ⟨k, table, ht', hk⟩
  · rintro ⟨table, htable⟩
    rw [hget, if_pos rfl] at htable
    cases htable
  · by_cases hheld : ∃ k, s.Holds t k p
    · exact .inr hheld
    · obtain ⟨hlt, hnone⟩ := hp
      rw [hstrings p fun k hk => hheld ⟨k, hk⟩] at hnone
      rw [hnext] at hlt
      exact .inl ⟨hlt, hnone⟩

end Store

/-! ### The loops over a list of values -/

namespace HashtableDB

open Store

variable {s : Store} {t : ℕ}

/-- The loop of `Insert`: a string that is not taken is deleted. -/
theorem meets_insertFields (h : s.Owned ∅ ∅) (hl : s.Live t) (values : List KVPair) :
    (insertFields t values).Meets ReleasesUnstored (fun _ s' => s'.Owned ∅ ∅) s := by
  induction values generalizing s with
  | nil => exact meets_pure h
  | cons pair values ih =>
    obtain ⟨field, str⟩ := pair
    obtain ⟨table, ht⟩ := hl
    obtain ⟨hcopy, hG⟩ := h.copyString str
    refine meets_atomic_bind rfl hG ?_
    cases hf : table.get field with
    | none =>
      obtain ⟨hrun, hstore⟩ := hcopy.fieldInsert ht hf
      refine meets_atomic_bind hrun (.of_strings rfl rfl) ?_
      exact ih hstore ((live_withTable ht t).2 ⟨table, ht⟩)
    | some old =>
      refine meets_atomic_bind (run_fieldInsert_of_some (s := ((copyString str).run s).2) ht hf
        s.strings.next) (.of_strings rfl rfl) ?_
      obtain ⟨hdelete, hG', -⟩ := hcopy.release
      exact meets_atomic_bind rfl hG' (meets_pure hdelete)

/-- The loop of `Update` on a record that exists: the string that is replaced is deleted. -/
theorem meets_updateFields (h : s.Owned ∅ ∅) (hl : s.Live t) (values : List KVPair) :
    (updateFields t values).Meets ReleasesUnstored (fun _ s' => s'.Owned ∅ ∅) s := by
  induction values generalizing s with
  | nil => exact meets_pure h
  | cons pair values ih =>
    obtain ⟨field, str⟩ := pair
    obtain ⟨table, ht⟩ := hl
    obtain ⟨hcopy, hG⟩ := h.copyString str
    refine meets_atomic_bind rfl hG ?_
    cases hf : table.get field with
    | none =>
      refine meets_atomic_bind (run_fieldUpdate_of_none (s := ((copyString str).run s).2) ht hf
        s.strings.next) (.of_strings rfl rfl) ?_
      obtain ⟨hrun, hstore⟩ := hcopy.fieldInsert ht hf
      refine meets_atomic_bind hrun (.of_strings rfl rfl) ?_
      exact ih hstore ((live_withTable ht t).2 ⟨table, ht⟩)
    | some old =>
      obtain ⟨hrun, hstore⟩ := hcopy.fieldUpdate ht hf
      refine meets_atomic_bind hrun (.of_strings rfl rfl) ?_
      obtain ⟨hdelete, hG', hfields⟩ := hstore.release
      refine meets_atomic_bind rfl hG' (ih hdelete ?_)
      rw [Live, hfields]
      exact (live_withTable ht t).2 ⟨table, ht⟩

/-- The loop of `Update` on a new record: no field is present, so every string is taken. -/
theorem meets_fillFields (h : s.Owned ∅ ∅) {table : StlHashtable ℕ}
    (ht : s.fields.get t = some table) {values : List KVPair}
    (hn : (Record.names values).Nodup) (hmissing : ∀ k ∈ Record.names values, table.find k = none) :
    (fillFields t values).Meets ReleasesUnstored (fun _ s' => s'.Owned ∅ ∅) s := by
  induction values generalizing s table with
  | nil => exact meets_pure h
  | cons pair values ih =>
    obtain ⟨field, str⟩ := pair
    obtain ⟨hnotin, hn⟩ := List.nodup_cons.1 hn
    have hf : table.get field = none := hmissing _ List.mem_cons_self
    obtain ⟨hcopy, hG⟩ := h.copyString str
    refine meets_atomic_bind rfl hG ?_
    obtain ⟨hrun, hstore⟩ := hcopy.fieldInsert ht hf
    refine meets_atomic_bind hrun (.of_strings rfl rfl) ?_
    refine ih hstore ((get_withTable ht t).trans (if_pos rfl)) hn fun k hk => ?_
    rw [StlHashtable.find_insert, if_neg, hmissing k (List.mem_cons_of_mem _ hk)]
    rintro rfl
    exact hnotin hk

/-! ### The calls -/

/-- A new record is published before its fields are filled in. -/
theorem meets_publish {α : Type} {key : Str} {body : ℕ → Program Store α} (h : s.Owned ∅ ∅)
    (hkey : s.keyTable.get key = none)
    (hbody : ∀ s' t, s'.Owned ∅ ∅ → s'.fields.get t = some .empty →
      (body t).Meets ReleasesUnstored (fun _ s'' => s''.Owned ∅ ∅) s') :
    (newFieldHashtable >>= fun t => keyInsert key t >>= fun _ => body t).Meets ReleasesUnstored
      (fun _ s' => s'.Owned ∅ ∅) s := by
  refine meets_atomic_bind (run_newFieldHashtable s) (.of_strings rfl rfl) ?_
  obtain ⟨hrun, hpublish⟩ := h.newFieldHashtable.keyInsert hkey
  refine meets_atomic_bind hrun (.of_strings rfl rfl) (hbody _ _ hpublish ?_)
  exact (Heap.get_alloc s.fields .empty _).trans (if_pos rfl)

theorem meets_update (h : s.Owned ∅ ∅) (table key : Str) {values : List KVPair}
    (hn : (Record.names values).Nodup) :
    (update table key values).Meets ReleasesUnstored (fun _ s' => s'.Owned ∅ ∅) s := by
  refine meets_atomic_bind (run_keyGet _ s) (.of_strings rfl rfl) ?_
  cases hkey : s.keyTable.get (keyIndex table key) with
  | none =>
    refine meets_publish h hkey fun s' t hs' ht => ?_
    exact (meets_fillFields hs' ht hn fun k _ => UnorderedMap.find_empty k).bind
      fun _ _ h' => meets_pure h'
  | some t =>
    exact (meets_updateFields h (h.wf.keyTable_live _ t hkey) values).bind
      fun _ _ h' => meets_pure h'

theorem meets_insert (h : s.Owned ∅ ∅) (table key : Str) (values : List KVPair) :
    (insert table key values).Meets ReleasesUnstored (fun _ s' => s'.Owned ∅ ∅) s := by
  refine meets_atomic_bind (run_keyGet _ s) (.of_strings rfl rfl) ?_
  cases hkey : s.keyTable.get (keyIndex table key) with
  | none =>
    exact meets_publish h hkey fun s' t hs' ht => meets_insertFields hs' ⟨_, ht⟩ values
  | some t => exact meets_insertFields h (h.wf.keyTable_live _ t hkey) values

theorem meets_delete (h : s.Owned ∅ ∅) (order : IterationOrder VmpString) (table key : Str) :
    (delete order table key).Meets ReleasesUnstored (fun _ s' => s'.Owned ∅ ∅) s := by
  refine meets_atomic_bind (run_keyRemove _ s) (.of_strings rfl rfl) ?_
  cases hkey : s.keyTable.get (keyIndex table key) with
  | none =>
    have hfind : s.keyTable.find (.wrap (keyIndex table key)) = none := hkey
    have hremove : (s.keyTable.remove (keyIndex table key)).2 = s.keyTable := by
      simp only [StlHashtable.remove, hfind]
    rw [hremove]
    exact meets_pure h
  | some t =>
    have hremoved := h.keyRemove hkey
    obtain ⟨s', hrun, hs', -, hfaults, -, hreleased⟩ :=
      hremoved.deleteFieldHashtable order (Set.mem_singleton t)
    rw [Set.sdiff_self] at hs'
    refine meets_atomic_bind hrun ⟨hfaults, fun p hp => ?_⟩ (meets_pure hs')
    -- the table that is released is not published any more
    refine (hreleased p hp).imp_right ?_
    rintro ⟨k, hk⟩ e ⟨t', ht', he⟩
    obtain ⟨rfl, -⟩ := hremoved.wf.string_inj t k t' e.2 p hk he
    exact hremoved.wf.table_unpublished t rfl e.1 ht'

end HashtableDB

/-! ### Runs of calls -/

open Store

section Reading

variable {G : Store → Store → Prop} {P H : Set ℕ} {s : Store} {t : ℕ}

theorem meets_readFields (hG : G s s) (h : s.Wf P H) (hl : s.Live t) (fields : List Str) :
    (readFields t fields).Meets G (fun _ s' => s' = s) s := by
  obtain ⟨table, ht⟩ := hl
  induction fields with
  | nil => exact meets_pure rfl
  | cons field fields ih =>
    refine meets_atomic_bind (run_fieldGet ht field) hG ?_
    cases hf : table.get field with
    | none => exact ih
    | some p =>
      obtain ⟨str, hstr⟩ := h.string_live t (.wrap field) p ⟨table, ht, hf⟩
      exact meets_atomic_bind (run_readString hstr) hG (ih.bind fun _ _ h' => meets_pure h')

theorem meets_readPairs (hG : G s s) {es : List (Str × ℕ)}
    (hes : ∀ e ∈ es, ∃ str, s.strings.get e.2 = some str) :
    (readPairs es).Meets G (fun _ s' => s' = s) s := by
  induction es with
  | nil => exact meets_pure rfl
  | cons e es ih =>
    obtain ⟨str, hstr⟩ := hes e List.mem_cons_self
    refine meets_atomic_bind (run_readString hstr) hG ?_
    exact (ih fun e' he' => hes e' (.tail _ he')).bind fun _ _ h' => meets_pure h'

theorem meets_readRecord (hG : G s s) (h : s.Wf P H) (order : IterationOrder VmpString)
    (hl : s.Live t) (fields : Option (List Str)) :
    (readRecord order t fields).Meets G (fun _ s' => s' = s) s := by
  cases fields with
  | some fields => exact meets_readFields hG h hl fields
  | none =>
    obtain ⟨table, ht⟩ := hl
    refine meets_atomic_bind (run_fieldEntries order ht) hG (meets_readPairs hG fun e he => ?_)
    exact h.string_live t (.wrap e.1) e.2 ⟨table, ht, StlHashtable.get_of_mem_entries he⟩

theorem meets_read (hG : G s s) (h : s.Wf P H) (order : IterationOrder VmpString)
    (table key : Str) (fields : Option (List Str)) (result : List KVPair) :
    (HashtableDB.read order table key fields result).Meets G (fun _ s' => s' = s) s := by
  refine meets_atomic_bind (run_keyGet _ s) hG ?_
  cases hkey : s.keyTable.get (keyIndex table key) with
  | none => exact meets_pure rfl
  | some t =>
    exact (meets_readRecord hG h order (h.keyTable_live _ t hkey) fields).bind
      fun _ _ h' => meets_pure h'

end Reading

variable {s : Store}

/-- A call keeps the memory owned. -/
theorem Call.meets (order : IterationOrder VmpString) (h : s.Owned ∅ ∅) (c : Call)
    (hn : (Record.names c.values).Nodup) :
    (c.program (LockStlDB order)).Meets ReleasesUnstored (fun _ s' => s'.Owned ∅ ∅) s := by
  cases c with
  | read table key fields result =>
    refine (meets_read (.of_strings rfl rfl) h.wf order table key fields result).mono ?_
    rintro _ _ rfl
    exact h
  | update table key values =>
    exact (meets_update h table key hn).map
  | insert table key values =>
    exact (meets_insert h table key values).map
  | delete table key =>
    exact (meets_delete h order table key).map

theorem meets_runCalls (order : IterationOrder VmpString) {calls : List Call}
    (hcalls : ∀ c ∈ calls, (Record.names c.values).Nodup) (h : s.Owned ∅ ∅) :
    (runCalls (LockStlDB order) calls).Meets ReleasesUnstored (fun _ s' => s'.Owned ∅ ∅) s := by
  induction calls generalizing s with
  | nil => exact meets_pure h
  | cons c calls ih =>
    refine (c.meets order h (hcalls c List.mem_cons_self)).bind fun _ s' h' => ?_
    refine (ih (fun c' hc' => hcalls c' (.tail _ hc')) h').bind fun _ _ h'' => meets_pure h''

/-! ### The destructor -/

namespace Store

/-- The memory without its key table: what the destructor is left with, since it does not look at
`key_table_` again. -/
def withoutKeys (s : Store) : Store := { s with keyTable := .empty }

theorem withoutKeys_release (s : Store) (p : ℕ) :
    s.withoutKeys.release p = (s.release p).withoutKeys := by
  simp only [release, withoutKeys]
  cases s.strings.get p <;> rfl

theorem withoutKeys_deleteFieldHashtable (order : IterationOrder VmpString) (t : ℕ) (s : Store) :
    (Store.deleteFieldHashtable order t).run s.withoutKeys =
      ((), ((Store.deleteFieldHashtable order t).run s).2.withoutKeys) := by
  have hfold : ∀ (es : List (Str × ℕ)) (s : Store),
      es.foldl (fun s pair => s.release pair.2) s.withoutKeys =
        (es.foldl (fun s pair => s.release pair.2) s).withoutKeys := fun es => by
    induction es with
    | nil => exact fun _ => rfl
    | cons e es ih =>
      intro s
      rw [List.foldl_cons, List.foldl_cons, withoutKeys_release, ih]
  simp only [Store.deleteFieldHashtable, Program.run_atomic,
    show s.withoutKeys.fields = s.fields from rfl]
  cases s.fields.get t with
  | none => rfl
  | some table =>
    simp only [hfold]
    rfl

/-- Once `key_table_` is out of sight, the field tables that it pointed to are held. -/
theorem Owned.withoutKeys (h : s.Owned ∅ ∅) :
    s.withoutKeys.Owned {t | ∃ k, s.keyTable.find k = some t} ∅ where
  wf :=
    { keyTable_live := fun k t hk => by simp [Store.withoutKeys] at hk
      keyTable_inj := fun k k' t hk => by simp [Store.withoutKeys] at hk
      table_live := fun t ⟨k, hk⟩ => h.wf.keyTable_live k t hk
      table_unpublished := fun t _ k hk => by simp [Store.withoutKeys] at hk
      string_live := h.wf.string_live
      string_inj := h.wf.string_inj
      held_live := h.wf.held_live
      held_unstored := h.wf.held_unstored
      no_faults := h.wf.no_faults }
  table_owned t ht := .inl ((h.table_owned t ht).resolve_left id)
  string_owned := h.string_owned

theorem Wf.nodup_tables {P H : Set ℕ} (h : s.Wf P H) (order : IterationOrder VmpString) :
    ((s.keyTable.entries order none none).map Prod.snd).Nodup :=
  StlHashtable.nodup_values_entries_all order h.keyTable_inj

end Store

/-- The loop of the destructor releases the field tables that are left, each with its strings. -/
theorem meets_deleteTables (order : IterationOrder VmpString) {es : List (Str × ℕ)}
    (hes : (es.map Prod.snd).Nodup) (h : s.withoutKeys.Owned {t | t ∈ es.map Prod.snd} ∅) :
    (LockStlDB.deleteTables order es).Meets ReleasesWithTable
      (fun _ s' => s'.withoutKeys.Owned ∅ ∅) s := by
  induction es generalizing s with
  | nil =>
    have hnone : {t | t ∈ ([] : List (Str × ℕ)).map Prod.snd} = ∅ := by
      ext t
      simp
    exact meets_pure (hnone ▸ h)
  | cons e es ih =>
    obtain ⟨key, t⟩ := e
    obtain ⟨hnotin, hes⟩ := List.nodup_cons.1 hes
    have hrest : {t' | t' ∈ ((key, t) :: es).map Prod.snd} \ {t} =
        {t' | t' ∈ es.map Prod.snd} := by
      ext t'
      simp only [List.map_cons, List.mem_cons, Set.mem_sdiff, Set.mem_ofPred_eq,
        Set.mem_singleton_iff]
      constructor
      · rintro ⟨rfl | hmem, hne⟩
        · exact absurd rfl hne
        · exact hmem
      · exact fun hmem => ⟨.inr hmem, fun hc => hnotin (hc ▸ hmem)⟩
    obtain ⟨s', hrun, hs', -, hfaults, hdead, hreleased⟩ :=
      h.deleteFieldHashtable order (t := t) List.mem_cons_self
    rw [withoutKeys_deleteFieldHashtable] at hrun
    obtain rfl : ((deleteFieldHashtable order t).run s).2.withoutKeys = s' :=
      congrArg Prod.snd hrun
    refine meets_atomic_bind rfl ⟨hfaults, fun p hp => ?_⟩ (ih hes (hrest ▸ hs'))
    refine (hreleased p hp).imp_right ?_
    rintro ⟨k, hk⟩ t' k' hk'
    obtain ⟨rfl, -⟩ := h.wf.string_inj t k t' k' p hk hk'
    exact hdead

/-- The destructor leaves nothing behind. -/
theorem meets_destroy (order : IterationOrder VmpString) (h : s.Owned ∅ ∅) :
    (LockStlDB.destroy order).Meets ReleasesWithTable (fun _ s' => s'.Owned ∅ ∅) s := by
  have hsame : s.ReleasesWithTable s := ⟨rfl, fun _ => .inl⟩
  have htables : {t | ∃ k, s.keyTable.find k = some t} =
      {t | t ∈ (s.keyTable.entries order none none).map Prod.snd} := by
    ext t
    simp only [Set.mem_ofPred_eq, List.mem_map]
    constructor
    · rintro ⟨k, hk⟩
      refine ⟨(k.value, t), ?_, rfl⟩
      rw [StlHashtable.mem_entries_all, StlHashtable.get, VmpString.wrap_value]
      exact ⟨k.value_nulFree, hk⟩
    · rintro ⟨e, he, rfl⟩
      exact ⟨_, StlHashtable.get_of_mem_entries he⟩
  refine meets_atomic_bind rfl hsame ?_
  refine (meets_deleteTables order (h.wf.nodup_tables order) (htables ▸ h.withoutKeys)).bind ?_
  exact fun _ s' h' => meets_atomic rfl ⟨rfl, fun _ => .inl⟩ h'

theorem Store.Owned.no_strings (h : s.Owned ∅ ∅) (hkeys : s.keyTable = .empty) (p : ℕ) :
    s.strings.get p = none := by
  rw [Option.eq_none_iff_forall_ne_some]
  intro str hstr
  obtain ⟨e, t, ht, -⟩ := (h.ownedOnce.live_iff p).1 (Option.isSome_iff_exists.2 ⟨str, hstr⟩)
  rw [hkeys] at ht
  cases ht

/-- In a run of calls whose lists of values name no field twice, the live strings are between the
calls those that the records point to, each in one place; no step of a call releases a string that
a record points to, and none has a fault, such as a second release. The destructor releases every
string with the field table that points to it, and none is left. -/
theorem strings_owned_once (order : IterationOrder VmpString) {calls : List Call}
    (hcalls : ∀ c ∈ calls, (Record.names c.values).Nodup) :
    let run := fun calls => (runCalls (LockStlDB order) calls).run Store.empty
    let destroyed := (LockStlDB.destroy order).run (run calls).2
    (∀ history, history <+: calls → (run history).2.OwnedOnce) ∧
      (runCalls (LockStlDB order) calls).Reaches ReleasesUnstored .empty
        (pure (run calls).1) (run calls).2 ∧
      (LockStlDB.destroy order).Reaches ReleasesWithTable (run calls).2 (pure destroyed.1)
        destroyed.2 ∧
      destroyed.2.faults = [] ∧ ∀ p, destroyed.2.strings.get p = none := by
  intro run destroyed
  have hrun : ∀ history, history <+: calls →
      (runCalls (LockStlDB order) history).Meets ReleasesUnstored
        (fun _ s' => s'.Owned ∅ ∅) .empty :=
    fun history h => meets_runCalls order (fun c hc => hcalls c (h.subset hc)) owned_empty
  have hcalls := hrun calls List.prefix_rfl
  have hdestroy := meets_destroy order hcalls.post_run
  refine ⟨fun history h => (hrun history h).post_run.ownedOnce, hcalls.reaches, hdestroy.reaches,
    hdestroy.post_run.wf.no_faults, hdestroy.post_run.no_strings ?_⟩
  simp only [LockStlDB.destroy, deleteKeyTable, Program.run_bind, Program.run_atomic]

/-- A record is inserted and updated, then another is inserted and deleted. -/
theorem strings_owned_once_two_records :
    let calls : List Call := [.insert [] ['a'] [(['f'], ['1'])],
      .update [] ['a'] [(['f'], ['2']), (['g'], ['3'])], .insert [] ['b'] [(['f'], ['4'])],
      .delete [] ['b']]
    (∀ c ∈ calls, (Record.names c.values).Nodup) ∧ ∀ order history, history <+: calls →
      ((runCalls (LockStlDB order) history).run Store.empty).2.OwnedOnce := by
  intro calls
  have hcalls : ∀ c ∈ calls, (Record.names c.values).Nodup := by decide
  exact ⟨hcalls, fun order => (strings_owned_once order hcalls).1⟩

end YcsbC
