import YcsbC.Db.Custody

/-!
# The operations of the in-memory store, run alone

What each operation of `HashtableDB` does to well-formed memory when no other client runs: its
result, the new contents of the record it names, and that it leaves every other record alone. The
loops over a list of values are functions of the record that they work on.

## Main definitions

* `Record`, `Record.addFields`, `setFields`, `insertFields`: a record and the three loops over a
  list of values.
* `Store.project`: the pairs that `Read` and `Scan` return for a record.
* `Store.Framed`: nothing but one field table changes.

## Main results

* `run_read`, `run_scan`, `run_update`, `run_insert`, `run_delete`: the operations on well-formed
  memory.
* `run_fillFields`, `run_updateFields`, `run_insertFields`: their loops.
-/

namespace YcsbC

/-! ### Records -/

/-- A record: the value of each field. -/
abbrev Record := VmpString → Option Str

namespace Record

/-- The loop of `Update` on a new record: a field that is present keeps its value. -/
def addFields : List KVPair → Record → Record
  | [], r => r
  | (field, str) :: values, r =>
    addFields values (if (r (.wrap field)).isSome then r
      else Function.update r (.wrap field) (some (cStr str)))

/-- The loop of `Update` on a record that exists: every field is overwritten. -/
def setFields : List KVPair → Record → Record
  | [], r => r
  | (field, str) :: values, r =>
    setFields values (Function.update r (.wrap field) (some (cStr str)))

/-- The loop of `Insert`: it stops at the first field that is present. -/
def insertFields : List KVPair → Record → Status × Record
  | [], r => (.kOK, r)
  | (field, str) :: values, r =>
    if (r (.wrap field)).isSome then (.kErrorConflict, r)
    else insertFields values (Function.update r (.wrap field) (some (cStr str)))

/-- The record without fields. -/
def empty : Record := fun _ => none

/-- The names of a list of values, as C strings. -/
def names (values : List KVPair) : List VmpString := values.map fun pair => .wrap pair.1

variable {values : List KVPair} {r : Record} {k : VmpString}

theorem mem_names_cons {field str : Str} :
    k ∈ names ((field, str) :: values) ↔ k = .wrap field ∨ k ∈ names values :=
  List.mem_cons

theorem update_isSome {k₀ : VmpString} {str : Str} :
    (Function.update r k₀ (some str) k).isSome ↔ k = k₀ ∨ (r k).isSome := by
  rw [Function.update_apply]
  split_ifs with hk
  · simp [hk]
  · simp [hk]

theorem setFields_isSome :
    (setFields values r k).isSome ↔ (r k).isSome ∨ k ∈ names values := by
  induction values generalizing r with
  | nil => simp [setFields, names]
  | cons pair values ih =>
    obtain ⟨field, str⟩ := pair
    rw [setFields, ih, update_isSome, mem_names_cons]
    tauto

theorem addFields_isSome :
    (addFields values r k).isSome ↔ (r k).isSome ∨ k ∈ names values := by
  induction values generalizing r with
  | nil => simp [addFields, names]
  | cons pair values ih =>
    obtain ⟨field, str⟩ := pair
    rw [addFields, ih, mem_names_cons]
    split_ifs with hfield
    · have hk : k = .wrap field → (r k).isSome := fun hk => hk ▸ hfield
      tauto
    · rw [update_isSome]
      tauto

/-- An insertion of fields that are all missing and all different sets all of them. -/
theorem insertFields_missing (hn : (names values).Nodup)
    (hr : ∀ k ∈ names values, (r k).isSome = false) :
    insertFields values r = (.kOK, setFields values r) := by
  induction values generalizing r with
  | nil => rfl
  | cons pair values ih =>
    obtain ⟨field, str⟩ := pair
    have hfield : ¬ (r (.wrap field)).isSome = true := by
      rw [hr _ List.mem_cons_self]
      exact Bool.false_ne_true
    obtain ⟨hnotin, hn⟩ := List.nodup_cons.1 hn
    rw [insertFields, if_neg hfield, setFields]
    refine ih hn fun k hk => ?_
    rw [Function.update_of_ne, hr k (List.mem_cons_of_mem _ hk)]
    rintro rfl
    exact hnotin hk

end Record

namespace Store

variable {P H : Set ℕ} {s s' s'' : Store}

/-! ### Reading a record -/

/-- All field/value pairs of a field table in the order of iteration. -/
def pairs (order : IterationOrder VmpString) (s : Store) (t : ℕ) : List KVPair :=
  match s.fields.get t with
  | none => []
  | some table =>
    (table.entries order none none).filterMap fun e => (s.strings.get e.2).map (e.1, ·)

/-- The pairs that `Read` and `Scan` return for a record, all of them or the requested ones. -/
def project (order : IterationOrder VmpString) (s : Store) (t : ℕ) :
    Option (List Str) → List KVPair
  | none => s.pairs order t
  | some fields => fields.filterMap fun field => (s.content t (.wrap field)).map (field, ·)

theorem mem_pairs (order : IterationOrder VmpString) (s : Store) (t : ℕ) (field str : Str) :
    (field, str) ∈ s.pairs order t ↔
      NulFree field ∧ s.content t (.wrap field) = some str := by
  cases ht : s.fields.get t with
  | none => simp [pairs, content, ht]
  | some table =>
    simp only [pairs, content, ht, List.mem_filterMap, Option.map_eq_some_iff, Prod.mk.injEq,
      Option.bind_some, Option.bind_eq_some_iff]
    constructor
    · rintro ⟨⟨field, p⟩, hmem, str, hp, rfl, rfl⟩
      obtain ⟨hfield, hget⟩ := (StlHashtable.mem_entries_all ..).1 hmem
      exact ⟨hfield, p, hget, hp⟩
    · rintro ⟨hfield, p, hget, hp⟩
      exact ⟨(field, p), (StlHashtable.mem_entries_all ..).2 ⟨hfield, hget⟩, str, hp, rfl, rfl⟩

theorem nodup_pairs (order : IterationOrder VmpString) (s : Store) (t : ℕ) :
    ((s.pairs order t).map Prod.fst).Nodup := by
  cases ht : s.fields.get t with
  | none => simp [pairs, ht]
  | some table =>
    simp only [pairs, ht]
    refine (StlHashtable.nodup_entries_all order table).sublist ?_
    generalize table.entries order none none = es
    induction es with
    | nil => exact .refl _
    | cons e es ih =>
      cases hp : s.strings.get e.2 with
      | none => simpa [hp] using ih.cons _
      | some str => simpa [hp] using ih

/-- What a read of a record returns depends on its field table and its contents only. -/
theorem project_congr {t : ℕ} (hfields : s'.fields.get t = s.fields.get t)
    (hcontent : ∀ k, s'.content t k = s.content t k) (order : IterationOrder VmpString)
    (fields : Option (List Str)) : s'.project order t fields = s.project order t fields := by
  cases fields with
  | some fields => simp only [project, hcontent]
  | none =>
    cases ht : s.fields.get t with
    | none => simp only [project, pairs, hfields, ht]
    | some table =>
      simp only [project, pairs, hfields, ht]
      refine List.filterMap_congr fun e he => ?_
      have hget := StlHashtable.get_of_mem_entries he
      have h := hcontent (.wrap e.1)
      simp only [content, hfields, ht, Option.bind_some] at h
      rw [StlHashtable.get] at hget
      rw [hget, Option.bind_some, Option.bind_some] at h
      rw [h]

/-- A store in which nothing but the field table `t` has changed. -/
structure Framed (t : ℕ) (s s' : Store) : Prop where
  keyTable : s'.keyTable = s.keyTable
  live : ∀ t', s'.Live t' ↔ s.Live t'
  fields : ∀ t', t' ≠ t → s'.fields.get t' = s.fields.get t'
  content : ∀ t', t' ≠ t → ∀ k, s'.content t' k = s.content t' k

theorem Framed.refl (t : ℕ) (s : Store) : s.Framed t s :=
  ⟨rfl, fun _ => .rfl, fun _ _ => rfl, fun _ _ _ => rfl⟩

theorem Framed.trans {t : ℕ} (h : s.Framed t s') (h' : s'.Framed t s'') : s.Framed t s'' where
  keyTable := h'.keyTable.trans h.keyTable
  live t' := (h'.live t').trans (h.live t')
  fields t' ht' := (h'.fields t' ht').trans (h.fields t' ht')
  content t' ht' k := (h'.content t' ht' k).trans (h.content t' ht' k)

theorem Wf.framed_copyString (h : s.Wf P H) (t : ℕ) (str : Str) :
    s.Framed t ((Store.copyString str).run s).2 :=
  ⟨rfl, fun _ => .rfl, fun _ _ => rfl, fun t' _ k => h.content_copyString str t' k⟩

/-- In well-formed memory a field of a live table has an entry iff it has a value. -/
theorem Wf.get_eq_none (h : s.Wf P H) {t : ℕ} {table : StlHashtable ℕ}
    (ht : s.fields.get t = some table) (field : Str) :
    table.get field = none ↔ (s.content t (.wrap field)).isSome = false := by
  rw [← Bool.not_eq_true, h.content_isSome, Option.eq_none_iff_forall_ne_some, not_exists]
  constructor
  · rintro hget p ⟨table', ht', hp⟩
    rw [ht] at ht'
    cases ht'
    exact hget p hp
  · exact fun hp p hget => hp p ⟨table, ht, hget⟩

end Store

namespace HashtableDB

open Store

variable {P H : Set ℕ} {s : Store}

theorem run_readString {p : ℕ} {str : Str} (hp : s.strings.get p = some str) :
    (readString p).run s = (str, s) := by
  simp only [readString, Program.run_atomic, hp]

theorem run_readFields (h : s.Wf P H) {t : ℕ} (hl : s.Live t) (fields : List Str) :
    (readFields t fields).run s =
      (fields.filterMap fun field => (s.content t (.wrap field)).map (field, ·), s) := by
  obtain ⟨table, ht⟩ := hl
  induction fields with
  | nil => rfl
  | cons field fields ih =>
    simp only [readFields, Program.run_bind, run_fieldGet ht]
    cases hf : table.get field with
    | none =>
      have hc : s.content t (.wrap field) = none := by
        rw [← Option.not_isSome_iff_eq_none, (h.get_eq_none ht field).1 hf]
        exact Bool.false_ne_true
      simp only [ih, List.filterMap_cons, hc, Option.map_none]
    | some p =>
      obtain ⟨str, hp⟩ := h.string_live t (.wrap field) p ⟨table, ht, hf⟩
      have hc : s.content t (.wrap field) = some str := content_eq_some.2 ⟨p, ⟨table, ht, hf⟩, hp⟩
      simp only [Program.run_bind, run_readString hp, ih, Program.run_pure, List.filterMap_cons,
        hc, Option.map_some]

theorem run_readPairs (es : List (Str × ℕ)) (h : ∀ e ∈ es, ∃ str, s.strings.get e.2 = some str) :
    (readPairs es).run s = (es.filterMap fun e => (s.strings.get e.2).map (e.1, ·), s) := by
  induction es with
  | nil => rfl
  | cons e es ih =>
    obtain ⟨str, hp⟩ := h e List.mem_cons_self
    simp only [readPairs, Program.run_bind, run_readString hp, Program.run_pure,
      ih fun e' he' => h e' (List.mem_cons_of_mem _ he'), List.filterMap_cons, hp,
      Option.map_some]

theorem run_readRecord (h : s.Wf P H) (order : IterationOrder VmpString) {t : ℕ} (hl : s.Live t)
    (fields : Option (List Str)) :
    (readRecord order t fields).run s = (s.project order t fields, s) := by
  cases fields with
  | some fields => exact run_readFields h hl fields
  | none =>
    obtain ⟨table, ht⟩ := hl
    simp only [readRecord, Program.run_bind, run_fieldEntries order ht]
    rw [run_readPairs _ fun e he => h.string_live t (.wrap e.1) e.2
      ⟨table, ht, StlHashtable.get_of_mem_entries he⟩]
    simp only [project, pairs, ht]

/-- `HashtableDB::Read` on well-formed memory. -/
theorem run_read (h : s.Wf P H) (order : IterationOrder VmpString) (table key : Str)
    (fields : Option (List Str)) (result : List KVPair) :
    (read order table key fields result).run s =
      (match s.keyTable.get (keyIndex table key) with
        | none => (.kErrorNoData, result)
        | some t => (.kOK, s.project order t fields), s) := by
  simp only [read, Program.run_bind, run_keyGet]
  cases hkey : s.keyTable.get (keyIndex table key) with
  | none => rfl
  | some t =>
    simp only [Program.run_bind, run_readRecord h order (h.keyTable_live _ t hkey) fields,
      Program.run_pure]

theorem run_scanRecords (h : s.Wf P H) (order : IterationOrder VmpString)
    (fields : Option (List Str)) (es : List (Str × ℕ)) (hes : ∀ e ∈ es, s.Live e.2) :
    (scanRecords order fields es).run s = (es.map fun e => s.project order e.2 fields, s) := by
  induction es with
  | nil => rfl
  | cons e es ih =>
    simp only [scanRecords, Program.run_bind,
      run_readRecord h order (hes e List.mem_cons_self) fields,
      ih fun e' he' => hes e' (List.mem_cons_of_mem _ he'), Program.run_pure, List.map_cons]

/-- `HashtableDB::Scan` on well-formed memory. -/
theorem run_scan (h : s.Wf P H) (order : IterationOrder VmpString) (table key : Str) (len : ℤ)
    (fields : Option (List Str)) (result : List (List KVPair)) :
    (scan order table key len fields result).run s =
      ((.kOK, (s.keyTable.entries order (some (keyIndex table key)) (some (toSizeT len))).map
        fun e => s.project order e.2 fields), s) := by
  simp only [scan, keyEntries, Program.run_bind, Program.run_atomic]
  rw [run_scanRecords h order fields _ fun e he =>
    h.keyTable_live _ _ (StlHashtable.get_of_mem_entries he)]
  simp only [Program.run_pure]

/-! ### The loops over a list of values -/

theorem insert_missing (h : s.Wf P H) {t : ℕ} (hl : s.Live t) {field : Str}
    (hf : (s.content t (.wrap field)).isSome = false) (str : Str) :
    ∃ s', (fieldInsert t field s.strings.next).run ((copyString str).run s).2 = (true, s') ∧
      s'.Wf P H ∧ s.Framed t s' ∧
      s'.content t = Function.update (s.content t) (.wrap field) (some (cStr str)) := by
  obtain ⟨table, ht⟩ := hl
  have hcopy := h.copyString str
  obtain ⟨s', hrun, hwf, hcontent, hlive, hkey, hfields, -⟩ :=
    hcopy.fieldInsert (t := t) ht ((h.get_eq_none ht field).2 hf) (Set.mem_insert _ H)
  refine ⟨s', hrun, hwf.mono subset_rfl fun p hp => ⟨.inr hp, ?_⟩,
    ⟨hkey, hlive, hfields, fun t' ht' k => ?_⟩, funext fun k => ?_⟩
  · rintro rfl
    exact h.next_notMem hp
  · rw [hcontent, if_neg fun hc => ht' hc.1, h.content_copyString]
  · rw [hcontent, Function.update_apply, h.content_copyString]
    simp

/-- The copy made for a field that is present is left over. -/
theorem insert_present (h : s.Wf P H) {t : ℕ} (hl : s.Live t) {field : Str}
    (hf : (s.content t (.wrap field)).isSome) (str : Str) :
    (fieldInsert t field s.strings.next).run ((copyString str).run s).2 =
      (false, ((copyString str).run s).2) := by
  obtain ⟨table, ht⟩ := hl
  cases hget : table.get field with
  | none =>
    rw [(h.get_eq_none ht field).1 hget] at hf
    cases hf
  | some old =>
    exact run_fieldInsert_of_some (s := ((copyString str).run s).2) ht hget s.strings.next

/-- The record does not see a copy that is not stored. -/
theorem content_copyString (h : s.Wf P H) (t : ℕ) (str : Str) :
    Store.content ((copyString str).run s).2 t = s.content t :=
  funext fun k => h.content_copyString str t k

/-- `Update` on one field that is missing: its call on the field table changes nothing. -/
theorem update_missing (h : s.Wf P H) {t : ℕ} (hl : s.Live t) {field : Str}
    (hf : (s.content t (.wrap field)).isSome = false) (str : Str) :
    (fieldUpdate t field s.strings.next).run ((copyString str).run s).2 =
      (none, ((copyString str).run s).2) := by
  obtain ⟨table, ht⟩ := hl
  exact run_fieldUpdate_of_none (s := ((copyString str).run s).2) ht
    ((h.get_eq_none ht field).2 hf) s.strings.next

/-- `Update` on one field that is present: copy the value, swap the copy in, delete the old
string. -/
theorem update_present (h : s.Wf P H) {t : ℕ} (hl : s.Live t) {field : Str}
    (hf : (s.content t (.wrap field)).isSome) (str : Str) :
    ∃ old s₁, (fieldUpdate t field s.strings.next).run ((copyString str).run s).2 =
        (some old, s₁) ∧
      (s₁.release old).Wf P H ∧ s.Framed t (s₁.release old) ∧
      (s₁.release old).content t =
        Function.update (s.content t) (.wrap field) (some (cStr str)) := by
  obtain ⟨table, ht⟩ := hl
  obtain ⟨old, hold⟩ : ∃ old, table.get field = some old := by
    rw [← Option.ne_none_iff_exists']
    intro hnone
    rw [(h.get_eq_none ht field).1 hnone] at hf
    cases hf
  have hcopy := h.copyString str
  obtain ⟨s₁, hrun, hwf₁, hcontent₁, hlive₁, hkey₁, hfields₁, -⟩ :=
    hcopy.fieldUpdate (t := t) ht hold (Set.mem_insert _ H)
  obtain ⟨hwf₂, hcontent₂, hfields₂, hkey₂⟩ := hwf₁.release (Set.mem_insert old _)
  -- the string that is deleted was stored, so nobody else holds it
  have hout : old ∉ H := fun hmem =>
    h.held_unstored old hmem t (.wrap field) ⟨table, ht, hold⟩
  refine ⟨old, s₁, hrun, hwf₂.mono subset_rfl fun p hp => ⟨.inr ⟨.inr hp, ?_⟩, ?_⟩,
    ⟨hkey₂.trans hkey₁, fun t' => ?_, fun t' ht' => ?_, fun t' ht' k => ?_⟩,
    funext fun k => ?_⟩
  · rintro rfl
    exact h.next_notMem hp
  · rintro rfl
    exact hout hp
  · rw [Live, hfields₂]
    exact hlive₁ t'
  · rw [hfields₂]
    exact hfields₁ t' ht'
  · rw [hcontent₂, hcontent₁, if_neg fun hc => ht' hc.1, h.content_copyString]
  · rw [hcontent₂, hcontent₁, Function.update_apply, h.content_copyString]
    simp

theorem run_fillFields (h : s.Wf P H) {t : ℕ} (hl : s.Live t) (values : List KVPair) :
    ∃ s', (fillFields t values).run s = ((), s') ∧ s'.Wf P H ∧ s.Framed t s' ∧
      s'.content t = Record.addFields values (s.content t) := by
  induction values generalizing s with
  | nil => exact ⟨s, rfl, h, .refl t s, rfl⟩
  | cons pair values ih =>
    obtain ⟨field, str⟩ := pair
    simp only [fillFields, Program.run_bind, run_copyString_fst]
    cases hf : (s.content t (.wrap field)).isSome with
    | false =>
      obtain ⟨s₁, hrun, hwf, hframed, hcontent⟩ := insert_missing h hl hf str
      obtain ⟨s₂, hrun₂, hwf₂, hframed₂, hcontent₂⟩ := ih hwf ((hframed.live t).2 hl)
      refine ⟨s₂, by rw [hrun, hrun₂], hwf₂, hframed.trans hframed₂, ?_⟩
      rw [hcontent₂, hcontent, Record.addFields, if_neg (by rw [hf]; exact Bool.false_ne_true)]
    | true =>
      have hrun := insert_present h hl hf str
      have hcopy := (h.copyString str).mono subset_rfl (Set.subset_insert _ H)
      have hframed := h.framed_copyString t str
      obtain ⟨s₂, hrun₂, hwf₂, hframed₂, hcontent₂⟩ := ih hcopy hl
      refine ⟨s₂, by rw [hrun, hrun₂], hwf₂, hframed.trans hframed₂, ?_⟩
      rw [hcontent₂, content_copyString h, Record.addFields, if_pos hf]

theorem run_updateFields (h : s.Wf P H) {t : ℕ} (hl : s.Live t) (values : List KVPair) :
    ∃ s', (updateFields t values).run s = ((), s') ∧ s'.Wf P H ∧ s.Framed t s' ∧
      s'.content t = Record.setFields values (s.content t) := by
  induction values generalizing s with
  | nil => exact ⟨s, rfl, h, .refl t s, rfl⟩
  | cons pair values ih =>
    obtain ⟨field, str⟩ := pair
    simp only [updateFields, Program.run_bind, run_copyString_fst]
    cases hf : (s.content t (.wrap field)).isSome with
    | false =>
      obtain ⟨s₁, hrun, hwf, hframed, hcontent⟩ := insert_missing h hl hf str
      obtain ⟨s₂, hrun₂, hwf₂, hframed₂, hcontent₂⟩ := ih hwf ((hframed.live t).2 hl)
      refine ⟨s₂, ?_, hwf₂, hframed.trans hframed₂, ?_⟩
      · simp only [update_missing h hl hf str, Program.run_bind, hrun, hrun₂]
      · rw [hcontent₂, hcontent, Record.setFields]
    | true =>
      obtain ⟨old, s₁, hrun, hwf, hframed, hcontent⟩ := update_present h hl hf str
      obtain ⟨s₂, hrun₂, hwf₂, hframed₂, hcontent₂⟩ := ih hwf ((hframed.live t).2 hl)
      refine ⟨s₂, ?_, hwf₂, hframed.trans hframed₂, ?_⟩
      · simp only [hrun, Program.run_bind, run_deleteString, hrun₂]
      · rw [hcontent₂, hcontent, Record.setFields]

theorem run_insertFields (h : s.Wf P H) {t : ℕ} (hl : s.Live t) (values : List KVPair) :
    ∃ s', (insertFields t values).run s =
        ((Record.insertFields values (s.content t)).1, s') ∧
      s'.Wf P H ∧ s.Framed t s' ∧
      s'.content t = (Record.insertFields values (s.content t)).2 := by
  induction values generalizing s with
  | nil => exact ⟨s, rfl, h, .refl t s, rfl⟩
  | cons pair values ih =>
    obtain ⟨field, str⟩ := pair
    simp only [insertFields, Program.run_bind, run_copyString_fst, Record.insertFields]
    cases hf : (s.content t (.wrap field)).isSome with
    | false =>
      obtain ⟨s₁, hrun, hwf, hframed, hcontent⟩ := insert_missing h hl hf str
      obtain ⟨s₂, hrun₂, hwf₂, hframed₂, hcontent₂⟩ := ih hwf ((hframed.live t).2 hl)
      rw [hcontent] at hrun₂ hcontent₂
      exact ⟨s₂, by simp only [hrun, hrun₂, if_true, if_neg Bool.false_ne_true], hwf₂,
        hframed.trans hframed₂, by simp only [hcontent₂, if_neg Bool.false_ne_true]⟩
    | true =>
      obtain ⟨hwf, hcontent, hfields, hkey⟩ :=
        (h.copyString str).release (Set.mem_insert s.strings.next H)
      refine ⟨_, ?_, hwf.mono subset_rfl fun p hp => ⟨.inr hp, ?_⟩, ⟨hkey, fun t' => ?_,
        fun t' _ => by rw [hfields]; rfl, fun t' _ k => ?_⟩, funext fun k => ?_⟩
      · simp only [insert_present h hl hf str, if_neg Bool.false_ne_true, Program.run_bind,
          run_deleteString, Program.run_pure, if_true]
      · rintro rfl
        exact h.next_notMem hp
      · rw [Live, hfields]
        rfl
      · rw [hcontent, h.content_copyString]
      · rw [hcontent, h.content_copyString, if_pos rfl]

/-! ### Whole operations -/

end HashtableDB

namespace Store

variable {P H : Set ℕ} {s s' s'' : Store}

/-- The record of a key of `key_table_`. -/
def record (s : Store) (k : VmpString) : Option Record :=
  (s.keyTable.find k).map s.content

/-- A store in which no record but that of `k₀` has changed. -/
structure OnlyAt (k₀ : VmpString) (s s' : Store) : Prop where
  find : ∀ k, k ≠ k₀ → s'.keyTable.find k = s.keyTable.find k
  fields : ∀ k, k ≠ k₀ → ∀ t, s.keyTable.find k = some t → s'.fields.get t = s.fields.get t
  content : ∀ k, k ≠ k₀ → ∀ t, s.keyTable.find k = some t → ∀ f, s'.content t f = s.content t f

theorem OnlyAt.refl (k₀ : VmpString) (s : Store) : s.OnlyAt k₀ s :=
  ⟨fun _ _ => rfl, fun _ _ _ _ => rfl, fun _ _ _ _ _ => rfl⟩

theorem OnlyAt.trans {k₀ : VmpString} (h : s.OnlyAt k₀ s') (h' : s'.OnlyAt k₀ s'') :
    s.OnlyAt k₀ s'' where
  find k hk := (h'.find k hk).trans (h.find k hk)
  fields k hk t ht :=
    (h'.fields k hk t ((h.find k hk).trans ht)).trans (h.fields k hk t ht)
  content k hk t ht f :=
    (h'.content k hk t ((h.find k hk).trans ht) f).trans (h.content k hk t ht f)

/-- A change of the field table of `k₀` changes no other record. -/
theorem Wf.onlyAt_of_framed (h : s.Wf P H) {k₀ : VmpString} {t : ℕ}
    (ht : s.keyTable.find k₀ = some t) (hs : s.Framed t s') : s.OnlyAt k₀ s' where
  find k _ := by rw [hs.keyTable]
  fields k hk t' ht' := hs.fields t' fun hc => hk (h.keyTable_inj k k₀ t (hc ▸ ht') ht)
  content k hk t' ht' := hs.content t' fun hc => hk (h.keyTable_inj k k₀ t (hc ▸ ht') ht)

theorem OnlyAt.record {k₀ : VmpString} (h : s.OnlyAt k₀ s') {k : VmpString} (hk : k ≠ k₀) :
    s'.record k = s.record k := by
  rw [Store.record, Store.record, h.find k hk]
  cases ht : s.keyTable.find k with
  | none => rfl
  | some t => simp only [Option.map_some, funext (h.content k hk t ht)]

theorem record_of_find {k : VmpString} {t : ℕ} (ht : s.keyTable.find k = some t) :
    s.record k = some (s.content t) := by
  rw [record, ht, Option.map_some]

theorem Framed.record {k : VmpString} {t : ℕ} (h : s.Framed t s')
    (ht : s.keyTable.find k = some t) : s'.record k = some (s'.content t) :=
  record_of_find (h.keyTable ▸ ht)

theorem record_eq_none {k : VmpString} : s.record k = none ↔ s.keyTable.find k = none :=
  Option.map_eq_none_iff

end Store

namespace HashtableDB

open Store

variable {P H : Set ℕ} {s : Store}

/-- The memory after a new field table has been allocated and offered for a key that is
missing. -/
theorem publish_new (h : s.Wf P H) {key : Str} (hkey : s.keyTable.get key = none) :
    ∃ s', (keyInsert key s.fields.next).run (newFieldHashtable.run s).2 = (true, s') ∧
      s'.Wf P H ∧ s'.keyTable.find (.wrap key) = some s.fields.next ∧
      s'.content s.fields.next = Record.empty ∧ s.OnlyAt (.wrap key) s' ∧
      s'.keyTable.size = s.keyTable.size + 1 := by
  obtain ⟨hwf, hcontent, hlive, -⟩ := h.newFieldHashtable
  have hout : s.fields.next ∉ P := fun hmem => by
    obtain ⟨table, ht⟩ := h.table_live _ hmem
    exact Heap.ne_next ht rfl
  have hfind : ∀ k, (s.keyTable.insert key s.fields.next).2.find k =
      if k = .wrap key then some s.fields.next else s.keyTable.find k := fun k => by
    rw [StlHashtable.find_insert, hkey, Option.getD_none]
  refine ⟨_, Prod.ext ?_ rfl, (hwf.keyInsert hkey (Set.mem_insert _ P)).mono ?_ subset_rfl,
    ?_, funext fun k => ?_, ⟨fun k hk => ?_, fun k _ t ht => ?_, fun k _ t _ f => hcontent t f⟩,
    UnorderedMap.size_insert_of_find_none hkey _⟩
  · rw [run_keyInsert, StlHashtable.insert_fst]
    simp [hkey]
  · exact fun t ht => ⟨.inr ht, fun hc => hout (hc ▸ ht)⟩
  · exact (hfind _).trans (if_pos rfl)
  · exact (hcontent _ k).trans (by simp [Store.content, Heap.get_next, Record.empty])
  · exact (hfind k).trans (if_neg hk)
  · obtain ⟨table, htable⟩ := h.keyTable_live k t ht
    exact (Heap.get_alloc_of_some htable _).trans htable.symm

/-- What an `Update` leaves of the record that it names. -/
def updatedRecord (values : List KVPair) : Option Record → Record
  | none => Record.addFields values Record.empty
  | some r => Record.setFields values r

/-- `HashtableDB::Update` on well-formed memory. -/
theorem run_update (h : s.Wf P H) (table key : Str) (values : List KVPair) :
    ∃ s', (update table key values).run s = (.kOK, s') ∧ s'.Wf P H ∧
      s.OnlyAt (.wrap (keyIndex table key)) s' ∧
      s'.record (.wrap (keyIndex table key)) =
        some (updatedRecord values (s.record (.wrap (keyIndex table key)))) ∧
      s'.keyTable.size = s.keyTable.size +
        if (s.record (.wrap (keyIndex table key))).isSome then 0 else 1 := by
  simp only [update, Program.run_bind, run_keyGet]
  generalize keyIndex table key = key
  cases hkey : s.keyTable.get key with
  | none =>
    obtain ⟨s₁, hrun₁, hwf₁, hfind₁, hcontent₁, honly₁, hsize₁⟩ := publish_new h hkey
    obtain ⟨s₂, hrun₂, hwf₂, hframed₂, hcontent₂⟩ :=
      run_fillFields hwf₁ (hwf₁.keyTable_live _ _ hfind₁) values
    refine ⟨s₂, ?_, hwf₂, honly₁.trans (hwf₁.onlyAt_of_framed hfind₁ hframed₂), ?_, ?_⟩
    · simp only [updateAt, Program.run_bind, run_newFieldHashtable] at hrun₁ ⊢
      rw [hrun₁, hrun₂, Program.run_pure]
    · rw [record_eq_none.2 hkey, hframed₂.record hfind₁, hcontent₂, hcontent₁,
        updatedRecord]
    · rw [hframed₂.keyTable, hsize₁, record_eq_none.2 hkey]
      rfl
  | some t =>
    obtain ⟨s₂, hrun₂, hwf₂, hframed₂, hcontent₂⟩ :=
      run_updateFields h (h.keyTable_live _ t hkey) values
    refine ⟨s₂, ?_, hwf₂, h.onlyAt_of_framed hkey hframed₂, ?_, ?_⟩
    · simp only [updateAt, Program.run_bind, hrun₂, Program.run_pure]
    · rw [record_of_find hkey, hframed₂.record hkey, hcontent₂, updatedRecord]
    · rw [hframed₂.keyTable, record_of_find hkey]
      rfl

/-- `HashtableDB::Insert` on well-formed memory. -/
theorem run_insert (h : s.Wf P H) (table key : Str) (values : List KVPair) :
    ∃ s', (insert table key values).run s =
        ((Record.insertFields values
          ((s.record (.wrap (keyIndex table key))).getD Record.empty)).1, s') ∧
      s'.Wf P H ∧ s.OnlyAt (.wrap (keyIndex table key)) s' ∧
      s'.record (.wrap (keyIndex table key)) = some (Record.insertFields values
          ((s.record (.wrap (keyIndex table key))).getD Record.empty)).2 ∧
      s'.keyTable.size = s.keyTable.size +
        if (s.record (.wrap (keyIndex table key))).isSome then 0 else 1 := by
  simp only [insert, Program.run_bind, run_keyGet]
  generalize keyIndex table key = key
  cases hkey : s.keyTable.get key with
  | none =>
    obtain ⟨s₁, hrun₁, hwf₁, hfind₁, hcontent₁, honly₁, hsize₁⟩ := publish_new h hkey
    obtain ⟨s₂, hrun₂, hwf₂, hframed₂, hcontent₂⟩ :=
      run_insertFields hwf₁ (hwf₁.keyTable_live _ _ hfind₁) values
    rw [hcontent₁] at hrun₂ hcontent₂
    refine ⟨s₂, ?_, hwf₂, honly₁.trans (hwf₁.onlyAt_of_framed hfind₁ hframed₂), ?_, ?_⟩
    · simp only [insertAt, Program.run_bind, run_newFieldHashtable] at hrun₁ ⊢
      rw [hrun₁, hrun₂, record_eq_none.2 hkey, Option.getD_none]
    · rw [record_eq_none.2 hkey, hframed₂.record hfind₁, hcontent₂, Option.getD_none]
    · rw [hframed₂.keyTable, hsize₁, record_eq_none.2 hkey]
      rfl
  | some t =>
    obtain ⟨s₂, hrun₂, hwf₂, hframed₂, hcontent₂⟩ :=
      run_insertFields h (h.keyTable_live _ t hkey) values
    refine ⟨s₂, ?_, hwf₂, h.onlyAt_of_framed hkey hframed₂, ?_, ?_⟩
    · simp only [insertAt, hrun₂, record_of_find hkey, Option.getD_some]
    · rw [record_of_find hkey, hframed₂.record hkey, hcontent₂, Option.getD_some]
    · rw [hframed₂.keyTable, record_of_find hkey]
      rfl

/-- `HashtableDB::Delete` on well-formed memory. -/
theorem run_delete (h : s.Wf P H) (order : IterationOrder VmpString) (table key : Str) :
    ∃ s', (delete order table key).run s =
        (if (s.record (.wrap (keyIndex table key))).isSome then .kOK else .kErrorNoData, s') ∧
      s'.Wf P H ∧ s.OnlyAt (.wrap (keyIndex table key)) s' ∧
      s'.record (.wrap (keyIndex table key)) = none := by
  simp only [delete, Program.run_bind, run_keyRemove]
  generalize keyIndex table key = key
  cases hkey : s.keyTable.get key with
  | none =>
    have hfind : s.keyTable.find (.wrap key) = none := hkey
    have hremove : (s.keyTable.remove key).2 = s.keyTable := by
      simp only [StlHashtable.remove, hfind]
    refine ⟨s, ?_, h, .refl _ s, record_eq_none.2 hfind⟩
    simp only [hremove, Program.run_pure, record_eq_none.2 hfind, Option.isSome_none,
      if_neg Bool.false_ne_true]
  | some t =>
    have hwf := h.unpublish hkey
    rw [run_keyRemove] at hwf
    obtain ⟨s', hrun, hkey', hfields', hfaults', -, -, hstrings'⟩ :=
      hwf.run_deleteFieldHashtable order (h.keyTable_live _ t hkey)
    obtain ⟨hwf', hcontent'⟩ :=
      hwf.deleteFieldHashtable (Set.mem_insert t P) hkey' hfields' hfaults' hstrings'
    have hfind : ∀ k, s'.keyTable.find k = if k = .wrap key then none else s.keyTable.find k := by
      rw [hkey']
      exact StlHashtable.find_remove s.keyTable key
    have hother : ∀ k, k ≠ .wrap key → ∀ t', s.keyTable.find k = some t' → t' ≠ t :=
      fun k hk t' ht' hc => hk (h.keyTable_inj k (.wrap key) t (hc ▸ ht') hkey)
    have hout : t ∉ P := fun hmem => h.table_unpublished t hmem _ hkey
    refine ⟨s', ?_, hwf'.mono (fun t' ht' => ⟨.inr ht', fun hc => hout (hc ▸ ht')⟩) subset_rfl,
      ⟨fun k hk => (hfind k).trans (if_neg hk), fun k hk t' ht' => ?_, fun k hk t' ht' f => ?_⟩,
      record_eq_none.2 ((hfind _).trans (if_pos rfl))⟩
    · simp only [Program.run_bind, hrun, Program.run_pure, record_of_find hkey,
        Option.isSome_some, if_true]
    · rw [hfields', Heap.get_free, if_neg (hother k hk t' ht')]
    · exact hcontent' t' (hother k hk t' ht') f

end HashtableDB

end YcsbC
