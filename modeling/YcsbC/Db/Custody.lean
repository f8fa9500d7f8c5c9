import Mathlib.Data.Set.Insert
import YcsbC.Db.HashtableDB

/-!
# Who owns the memory of the store

The memory of a `LockStlDB` is well formed when every pointer leads to a live block and no block
is reachable along two ways. While an operation runs it also holds blocks of its own: a field
table that it has allocated and not yet published in `key_table_`, and a value string that it has
copied and not yet stored, or taken out and not yet deleted. `Store.Wf P H` says that the memory is
well formed when the field tables in `P` and the value strings in `H` are held in this way. Every
atomic step of the write operations moves blocks between the store and the holders; this is what
its lemma says, together with the change of the contents.

## Main definitions

* `Store.Holds`, `Store.content`: the entries of the field tables, and the values they point to.
* `Store.Wf`: the invariant.

## Main results

* `Store.Wf.copyString`, `Wf.release`, `Wf.fieldInsert`, `Wf.fieldUpdate`,
  `Wf.newFieldHashtable`, `Wf.keyInsert`, `Wf.unpublish`, `Wf.deleteFieldHashtable`: one lemma for
  each atomic step.
-/

namespace YcsbC

namespace Store

/-- The field table `t` has an entry for `k` that points to the value string `p`. -/
def Holds (s : Store) (t : ℕ) (k : VmpString) (p : ℕ) : Prop :=
  ∃ table, s.fields.get t = some table ∧ table.find k = some p

/-- The field table `t` is allocated. -/
def Live (s : Store) (t : ℕ) : Prop := ∃ table, s.fields.get t = some table

/-- The value that the field table `t` has for `k`. -/
def content (s : Store) (t : ℕ) (k : VmpString) : Option Str :=
  ((s.fields.get t).bind fun table => table.find k).bind s.strings.get

/-- The memory is well formed, where the field tables in `P` and the value strings in `H` are held
by running operations. -/
structure Wf (P H : Set ℕ) (s : Store) : Prop where
  keyTable_live : ∀ k t, s.keyTable.find k = some t → s.Live t
  keyTable_inj : ∀ k k' t, s.keyTable.find k = some t → s.keyTable.find k' = some t → k = k'
  table_live : ∀ t ∈ P, s.Live t
  table_unpublished : ∀ t ∈ P, ∀ k, s.keyTable.find k ≠ some t
  string_live : ∀ t k p, s.Holds t k p → ∃ str, s.strings.get p = some str
  string_inj : ∀ t k t' k' p, s.Holds t k p → s.Holds t' k' p → t = t' ∧ k = k'
  held_live : ∀ p ∈ H, ∃ str, s.strings.get p = some str
  held_unstored : ∀ p ∈ H, ∀ t k, ¬ s.Holds t k p
  no_faults : s.faults = []

variable {P H P' H' : Set ℕ} {s : Store}

theorem Wf.mono (h : s.Wf P H) (hP : P' ⊆ P) (hH : H' ⊆ H) : s.Wf P' H' :=
  { h with
    table_live := fun t ht => h.table_live t (hP ht)
    table_unpublished := fun t ht => h.table_unpublished t (hP ht)
    held_live := fun p hp => h.held_live p (hH hp)
    held_unstored := fun p hp => h.held_unstored p (hH hp) }

theorem wf_empty : Store.empty.Wf ∅ ∅ where
  keyTable_live k t h := by simp [Store.empty] at h
  keyTable_inj k k' t h := by simp [Store.empty] at h
  table_live t ht := ht.elim
  table_unpublished t ht := ht.elim
  string_live t k p h := by simp [Holds, Store.empty] at h
  string_inj t k t' k' p h := by simp [Holds, Store.empty] at h
  held_live p hp := hp.elim
  held_unstored p hp := hp.elim
  no_faults := rfl

theorem content_eq_some {t : ℕ} {k : VmpString} {str : Str} :
    s.content t k = some str ↔ ∃ p, s.Holds t k p ∧ s.strings.get p = some str := by
  simp only [content, Holds, Option.bind_eq_some_iff]

/-- In well-formed memory a field has a value as soon as its table has an entry for it. -/
theorem Wf.content_isSome (h : s.Wf P H) {t : ℕ} {k : VmpString} :
    (s.content t k).isSome ↔ ∃ p, s.Holds t k p := by
  rw [Option.isSome_iff_exists]
  constructor
  · rintro ⟨str, hstr⟩
    obtain ⟨p, hp, -⟩ := content_eq_some.1 hstr
    exact ⟨p, hp⟩
  · rintro ⟨p, hp⟩
    obtain ⟨str, hstr⟩ := h.string_live t k p hp
    exact ⟨str, content_eq_some.2 ⟨p, hp, hstr⟩⟩

/-! ### Copying and deleting value strings -/

@[simp] theorem run_copyString_fst (str : Str) (s : Store) :
    ((copyString str).run s).1 = s.strings.next :=
  rfl

theorem run_copyString_snd (str : Str) (s : Store) :
    ((copyString str).run s).2 = { s with strings := (s.strings.alloc (cStr str)).2 } :=
  rfl

@[simp] theorem get_copyString (str : Str) (s : Store) :
    ((copyString str).run s).2.strings.get s.strings.next = some (cStr str) := by
  rw [run_copyString_snd, Heap.get_alloc, if_pos rfl]

/-- A copied string is held by the operation that made it. -/
theorem Wf.copyString (h : s.Wf P H) (str : Str) :
    ((Store.copyString str).run s).2.Wf P (insert s.strings.next H) := by
  have hne : ∀ t k p, s.Holds t k p → p ≠ s.strings.next := fun t k p hp => by
    obtain ⟨v, hv⟩ := h.string_live t k p hp
    exact Heap.ne_next hv
  refine { h with string_live := ?_, held_live := ?_, held_unstored := ?_ }
  · intro t k p hp
    obtain ⟨v, hv⟩ := h.string_live t k p hp
    exact ⟨v, Heap.get_alloc_of_some hv _⟩
  · rintro p (rfl | hp)
    · exact ⟨cStr str, get_copyString str s⟩
    · obtain ⟨v, hv⟩ := h.held_live p hp
      exact ⟨v, Heap.get_alloc_of_some hv _⟩
  · rintro p (rfl | hp) t k hk
    · exact hne t k _ hk rfl
    · exact h.held_unstored p hp t k hk

/-- A copy is in no one's hands before. -/
theorem Wf.next_notMem (h : s.Wf P H) : s.strings.next ∉ H := fun hmem => by
  obtain ⟨v, hv⟩ := h.held_live _ hmem
  exact Heap.ne_next hv rfl

theorem Wf.content_copyString (h : s.Wf P H) (str : Str) (t : ℕ) (k : VmpString) :
    ((Store.copyString str).run s).2.content t k = s.content t k := by
  cases hk : (s.fields.get t).bind fun table => table.find k with
  | none => simp [content, run_copyString_snd, hk]
  | some p =>
    obtain ⟨table, ht, hp⟩ := Option.bind_eq_some_iff.1 hk
    obtain ⟨v, hv⟩ := h.string_live t k p ⟨table, ht, hp⟩
    simp [content, run_copyString_snd, hk, hv, Heap.get_alloc_of_some hv]

theorem release_of_live {p : ℕ} {str : Str} (hp : s.strings.get p = some str) :
    s.release p = { s with strings := s.strings.free p } := by
  simp only [release, hp]

@[simp] theorem run_deleteString (p : ℕ) (s : Store) :
    (deleteString p).run s = ((), s.release p) :=
  rfl

/-- Only the holder of a string deletes it. -/
theorem Wf.release (h : s.Wf P H) {p : ℕ} (hp : p ∈ H) :
    (s.release p).Wf P (H \ {p}) ∧ (∀ t k, (s.release p).content t k = s.content t k) ∧
      (s.release p).fields = s.fields ∧ (s.release p).keyTable = s.keyTable := by
  obtain ⟨str, hstr⟩ := h.held_live p hp
  have hne : ∀ t k q, s.Holds t k q → q ≠ p := by
    rintro t k q hq rfl
    exact h.held_unstored q hp t k hq
  rw [release_of_live hstr]
  refine ⟨{ h with string_live := ?_, held_live := ?_, held_unstored := ?_ }, fun t k => ?_,
    rfl, rfl⟩
  · intro t k q hq
    obtain ⟨v, hv⟩ := h.string_live t k q hq
    exact ⟨v, by rw [Heap.get_free, if_neg (hne t k q hq), hv]⟩
  · rintro q ⟨hq, hqp⟩
    obtain ⟨v, hv⟩ := h.held_live q hq
    exact ⟨v, by rw [Heap.get_free, if_neg (by simpa using hqp), hv]⟩
  · rintro q ⟨hq, -⟩ t k hk
    exact h.held_unstored q hq t k hk
  · cases hk : (s.fields.get t).bind fun table => table.find k with
    | none => simp [content, hk]
    | some q =>
      obtain ⟨table, ht, hq⟩ := Option.bind_eq_some_iff.1 hk
      simp [content, hk, Heap.get_free, hne t k q ⟨table, ht, hq⟩]

/-! ### Storing a value string in a field table -/

/-- The store after the field table `t` has become `table`. -/
def withTable (s : Store) (t : ℕ) (table : StlHashtable ℕ) : Store :=
  { s with fields := s.fields.write t table }

section withTable

variable {t : ℕ} {table table' : StlHashtable ℕ}

theorem withTable_self (ht : s.fields.get t = some table) : s.withTable t table = s := by
  rw [withTable, Heap.write_self ht]

theorem get_withTable (ht : s.fields.get t = some table) (t' : ℕ) :
    (s.withTable t table').fields.get t' = if t' = t then some table' else s.fields.get t' :=
  Heap.get_write s.fields ht table' t'

theorem live_withTable (ht : s.fields.get t = some table) (t' : ℕ) :
    (s.withTable t table').Live t' ↔ s.Live t' := by
  rw [Live, get_withTable ht, Live]
  split_ifs with h
  · simp [h, ht]
  · rfl

theorem holds_withTable (ht : s.fields.get t = some table) (t' : ℕ) (k : VmpString) (p : ℕ) :
    (s.withTable t table').Holds t' k p ↔
      if t' = t then table'.find k = some p else s.Holds t' k p := by
  rw [Holds, get_withTable ht]
  split_ifs with h
  · simp
  · rfl

/-- A field of a live table is made to point to a held string; what it pointed to before is held
from now on. -/
theorem Wf.link (h : s.Wf P H) (ht : s.fields.get t = some table) {p : ℕ} (hp : p ∈ H)
    {k : VmpString}
    (hfind : ∀ k', table'.find k' = if k' = k then some p else table.find k') :
    (s.withTable t table').Wf P {q | (q ∈ H ∧ q ≠ p) ∨ table.find k = some q} := by
  -- An entry of the new store is the new entry or an old entry at another place.
  have hold : ∀ t' k' q, (s.withTable t table').Holds t' k' q →
      (t' = t ∧ k' = k ∧ q = p) ∨ (s.Holds t' k' q ∧ ¬ (t' = t ∧ k' = k)) := by
    intro t' k' q hq
    rw [holds_withTable ht] at hq
    split_ifs at hq with ht'
    · rw [hfind] at hq
      split_ifs at hq with hk'
      · exact .inl ⟨ht', hk', (Option.some.inj hq).symm⟩
      · exact .inr ⟨⟨table, by rw [ht', ht], hq⟩, fun hc => hk' hc.2⟩
    · exact .inr ⟨hq, fun hc => ht' hc.1⟩
  refine { h with
    keyTable_live := fun k' t' hk' => (live_withTable ht t').2 (h.keyTable_live k' t' hk')
    table_live := fun t' ht' => (live_withTable ht t').2 (h.table_live t' ht')
    string_live := ?_, string_inj := ?_, held_live := ?_, held_unstored := ?_ }
  · intro t' k' q hq
    rcases hold t' k' q hq with ⟨-, -, rfl⟩ | ⟨hq, -⟩
    · exact h.held_live q hp
    · exact h.string_live t' k' q hq
  · intro t₁ k₁ t₂ k₂ q h₁ h₂
    rcases hold t₁ k₁ q h₁ with ⟨ht₁, hk₁, hq₁⟩ | ⟨hq₁, -⟩ <;>
      rcases hold t₂ k₂ q h₂ with ⟨ht₂, hk₂, hq₂⟩ | ⟨hq₂, -⟩
    · exact ⟨ht₁.trans ht₂.symm, hk₁.trans hk₂.symm⟩
    · exact absurd (hq₁ ▸ hq₂) (h.held_unstored p hp t₂ k₂)
    · exact absurd (hq₂ ▸ hq₁) (h.held_unstored p hp t₁ k₁)
    · exact h.string_inj t₁ k₁ t₂ k₂ q hq₁ hq₂
  · rintro q (⟨hq, -⟩ | hq)
    · exact h.held_live q hq
    · exact h.string_live t k q ⟨table, ht, hq⟩
  · rintro q (⟨hq, hqp⟩ | hq) t' k' hk'
    · rcases hold t' k' q hk' with ⟨-, -, rfl⟩ | ⟨hk', -⟩
      · exact hqp rfl
      · exact h.held_unstored q hq t' k' hk'
    · rcases hold t' k' q hk' with ⟨-, -, rfl⟩ | ⟨hk', hne⟩
      · exact h.held_unstored _ hp t k ⟨table, ht, hq⟩
      · exact hne (h.string_inj t' k' t k q hk' ⟨table, ht, hq⟩)

theorem content_link (ht : s.fields.get t = some table) {p : ℕ} {k : VmpString}
    (hfind : ∀ k', table'.find k' = if k' = k then some p else table.find k') (t' : ℕ)
    (k' : VmpString) :
    (s.withTable t table').content t' k' =
      if t' = t ∧ k' = k then s.strings.get p else s.content t' k' := by
  simp only [content, get_withTable ht]
  by_cases ht' : t' = t
  · by_cases hk' : k' = k
    · simp [ht', hk', hfind, withTable]
    · simp [ht', hk', hfind, ht, withTable]
  · simp [ht', withTable]

end withTable

theorem run_onTable {α : Type} {t : ℕ} {table : StlHashtable ℕ} (ht : s.fields.get t = some table)
    (dflt : α) (call : StlHashtable ℕ → α × StlHashtable ℕ) :
    (onTable t dflt call).run s = ((call table).1, s.withTable t (call table).2) := by
  simp only [onTable, Program.run_atomic, ht, withTable]

theorem run_fieldGet {t : ℕ} {table : StlHashtable ℕ} (ht : s.fields.get t = some table)
    (field : Str) : (fieldGet t field).run s = (table.get field, s) := by
  rw [fieldGet, run_onTable ht, withTable_self ht]

theorem run_fieldEntries (order : IterationOrder VmpString) {t : ℕ} {table : StlHashtable ℕ}
    (ht : s.fields.get t = some table) :
    (fieldEntries order t).run s = (table.entries order none none, s) := by
  rw [fieldEntries, run_onTable ht, withTable_self ht]

theorem run_fieldInsert_of_some {t : ℕ} {table : StlHashtable ℕ}
    (ht : s.fields.get t = some table) {field : Str} {old : ℕ} (hf : table.get field = some old)
    (p : ℕ) : (fieldInsert t field p).run s = (false, s) := by
  rw [fieldInsert, run_onTable ht, StlHashtable.insert_of_get_some hf, withTable_self ht]

theorem run_fieldUpdate_of_none {t : ℕ} {table : StlHashtable ℕ}
    (ht : s.fields.get t = some table) {field : Str} (hf : table.get field = none) (p : ℕ) :
    (fieldUpdate t field p).run s = (none, s) := by
  rw [fieldUpdate, run_onTable ht, StlHashtable.update_of_get_none hf, withTable_self ht]

/-- `field_table->Insert` of a new field stores a held string. -/
theorem Wf.fieldInsert (h : s.Wf P H) {t : ℕ} {table : StlHashtable ℕ}
    (ht : s.fields.get t = some table) {field : Str} (hf : table.get field = none) {p : ℕ}
    (hp : p ∈ H) :
    ∃ s', (fieldInsert t field p).run s = (true, s') ∧ s'.Wf P (H \ {p}) ∧
      (∀ t' k, s'.content t' k =
        if t' = t ∧ k = .wrap field then s.strings.get p else s.content t' k) ∧
      (∀ t', s'.Live t' ↔ s.Live t') ∧ s'.keyTable = s.keyTable ∧
      (∀ t', t' ≠ t → s'.fields.get t' = s.fields.get t') ∧ s'.strings = s.strings := by
  have hfind : ∀ k, (table.insert field p).2.find k =
      if k = .wrap field then some p else table.find k := fun k => by
    rw [StlHashtable.find_insert, hf, Option.getD_none]
  refine ⟨s.withTable t (table.insert field p).2, ?_, (h.link ht hp hfind).mono subset_rfl ?_,
    content_link ht hfind, live_withTable ht, rfl, fun t' ht' => ?_, rfl⟩
  · rw [Store.fieldInsert, run_onTable ht, StlHashtable.insert_fst, hf, Option.isNone_none]
  · exact fun q hq => .inl hq
  · rw [get_withTable ht, if_neg ht']

/-- `field_table->Update` of a field that is present stores a held string and hands the old one
out. -/
theorem Wf.fieldUpdate (h : s.Wf P H) {t : ℕ} {table : StlHashtable ℕ}
    (ht : s.fields.get t = some table) {field : Str} {old : ℕ} (hf : table.get field = some old)
    {p : ℕ} (hp : p ∈ H) :
    ∃ s', (fieldUpdate t field p).run s = (some old, s') ∧ s'.Wf P (insert old (H \ {p})) ∧
      (∀ t' k, s'.content t' k =
        if t' = t ∧ k = .wrap field then s.strings.get p else s.content t' k) ∧
      (∀ t', s'.Live t' ↔ s.Live t') ∧ s'.keyTable = s.keyTable ∧
      (∀ t', t' ≠ t → s'.fields.get t' = s.fields.get t') ∧ s'.strings = s.strings := by
  have hfind : ∀ k, (table.update field p).2.find k =
      if k = .wrap field then some p else table.find k := fun k => by
    rw [StlHashtable.find_update, hf, Option.map_some]
  refine ⟨s.withTable t (table.update field p).2, ?_, (h.link ht hp hfind).mono subset_rfl ?_,
    content_link ht hfind, live_withTable ht, rfl, fun t' ht' => ?_, rfl⟩
  · rw [Store.fieldUpdate, run_onTable ht, StlHashtable.update_fst, hf]
  · rintro q (rfl | hq)
    · exact .inr hf
    · exact .inl hq
  · rw [get_withTable ht, if_neg ht']

/-! ### Allocating and publishing a field table -/

@[simp] theorem run_newFieldHashtable (s : Store) :
    newFieldHashtable.run s =
      (s.fields.next, { s with fields := (s.fields.alloc .empty).2 }) :=
  rfl

theorem Wf.newFieldHashtable (h : s.Wf P H) :
    (newFieldHashtable.run s).2.Wf (insert s.fields.next P) H ∧
      (∀ t k, (newFieldHashtable.run s).2.content t k = s.content t k) ∧
      (newFieldHashtable.run s).2.Live s.fields.next ∧
      (∀ t, s.Live t → (newFieldHashtable.run s).2.Live t) := by
  have hlive : ∀ t, s.Live t → (Store.newFieldHashtable.run s).2.Live t := fun t ⟨table, ht⟩ =>
    ⟨table, Heap.get_alloc_of_some ht _⟩
  have hnext : (Store.newFieldHashtable.run s).2.Live s.fields.next :=
    ⟨.empty, by simp [Heap.get_alloc]⟩
  have hold : ∀ t k p, (Store.newFieldHashtable.run s).2.Holds t k p → s.Holds t k p := by
    rintro t k p ⟨table, ht, hk⟩
    simp only [run_newFieldHashtable, Heap.get_alloc] at ht
    split_ifs at ht with h'
    · cases ht
      simp at hk
    · exact ⟨table, ht, hk⟩
  refine ⟨{ h with
    keyTable_live := fun k t hk => hlive t (h.keyTable_live k t hk)
    table_live := ?_, table_unpublished := ?_
    string_live := fun t k p hp => h.string_live t k p (hold t k p hp)
    string_inj := fun t k t' k' p hp hp' =>
      h.string_inj t k t' k' p (hold t k p hp) (hold t' k' p hp')
    held_unstored := fun p hp t k hk => h.held_unstored p hp t k (hold t k p hk) },
    fun t k => ?_, hnext, hlive⟩
  · rintro t (rfl | ht)
    · exact hnext
    · exact hlive t (h.table_live t ht)
  · rintro t (rfl | ht) k hk
    · obtain ⟨table, htable⟩ := h.keyTable_live k _ hk
      exact Heap.ne_next htable rfl
    · exact h.table_unpublished t ht k hk
  · simp only [content, run_newFieldHashtable, Heap.get_alloc]
    split_ifs with ht
    · simp [ht, Heap.get_next]
    · rfl

@[simp] theorem run_keyGet (key : Str) (s : Store) :
    (keyGet key).run s = (s.keyTable.get key, s) :=
  rfl

@[simp] theorem run_keyInsert (key : Str) (t : ℕ) (s : Store) :
    (keyInsert key t).run s =
      ((s.keyTable.insert key t).1, { s with keyTable := (s.keyTable.insert key t).2 }) :=
  rfl

/-- A held field table is published under a new key. -/
theorem Wf.keyInsert (h : s.Wf P H) {key : Str} (hkey : s.keyTable.get key = none) {t : ℕ}
    (ht : t ∈ P) : ((keyInsert key t).run s).2.Wf (P \ {t}) H := by
  have hfind : ∀ k, (s.keyTable.insert key t).2.find k =
      if k = .wrap key then some t else s.keyTable.find k := fun k => by
    rw [StlHashtable.find_insert, hkey, Option.getD_none]
  simp only [run_keyInsert]
  refine { h with
    keyTable_live := ?_, keyTable_inj := ?_
    table_live := fun t' ht' => h.table_live t' ht'.1
    table_unpublished := ?_ }
  · intro k t' hk
    rw [hfind] at hk
    split_ifs at hk with hk'
    · exact Option.some.inj hk ▸ h.table_live t ht
    · exact h.keyTable_live k t' hk
  · intro k k' t' hk hk'
    rw [hfind] at hk hk'
    split_ifs at hk hk' with h₁ h₂ h₂
    · rw [h₁, h₂]
    · exact absurd (Option.some.inj hk ▸ hk') (h.table_unpublished t ht k')
    · exact absurd (Option.some.inj hk' ▸ hk) (h.table_unpublished t ht k)
    · exact h.keyTable_inj k k' t' hk hk'
  · rintro t' ⟨ht', hne⟩ k hk
    rw [hfind] at hk
    split_ifs at hk with hk'
    · exact hne (Option.some.inj hk).symm
    · exact h.table_unpublished t' ht' k hk

/-- A field table that is offered for a key already present stays unpublished. -/
theorem run_keyInsert_of_some {key : Str} {t₀ : ℕ} (hkey : s.keyTable.get key = some t₀) (t : ℕ) :
    (keyInsert key t).run s = (false, s) := by
  rw [run_keyInsert, StlHashtable.insert_of_get_some hkey]

/-! ### Removing and releasing a field table -/

@[simp] theorem run_keyRemove (key : Str) (s : Store) :
    (keyRemove key).run s =
      (s.keyTable.get key, { s with keyTable := (s.keyTable.remove key).2 }) :=
  Prod.ext (StlHashtable.remove_fst s.keyTable key) rfl

/-- The memory after a record may have been taken out of `key_table_`. -/
theorem Wf.keyRemove (h : s.Wf P H) (key : Str) : ((keyRemove key).run s).2.Wf P H := by
  have hfind : ∀ {k t}, (s.keyTable.remove key).2.find k = some t → s.keyTable.find k = some t := by
    intro k t hk
    rw [StlHashtable.find_remove] at hk
    split_ifs at hk
    exact hk
  exact { h with
    keyTable_live := fun k t hk => h.keyTable_live k t (hfind hk)
    keyTable_inj := fun k k' t hk hk' => h.keyTable_inj k k' t (hfind hk) (hfind hk')
    table_unpublished := fun t ht k hk => h.table_unpublished t ht k (hfind hk) }

/-- The field table that has been taken out is held by the operation that took it. -/
theorem Wf.unpublish (h : s.Wf P H) {key : Str} {t : ℕ} (hkey : s.keyTable.get key = some t) :
    ((Store.keyRemove key).run s).2.Wf (insert t P) H := by
  refine { h.keyRemove key with table_live := ?_, table_unpublished := ?_ }
  · rintro t' (rfl | ht')
    · exact h.keyTable_live _ _ hkey
    · exact h.table_live t' ht'
  · rintro t' (rfl | ht') k hk
    · rw [run_keyRemove, StlHashtable.find_remove] at hk
      split_ifs at hk with hne
      exact hne (h.keyTable_inj k (.wrap key) t' hk hkey)
    · exact (h.keyRemove key).table_unpublished t' ht' k hk

theorem Wf.nodup_values (h : s.Wf P H) (order : IterationOrder VmpString) {t : ℕ}
    {table : StlHashtable ℕ} (ht : s.fields.get t = some table) :
    ((table.entries order none none).map Prod.snd).Nodup :=
  StlHashtable.nodup_values_entries_all order fun k k' p hk hk' =>
    (h.string_inj t k t k' p ⟨table, ht, hk⟩ ⟨table, ht, hk'⟩).2

/-- What a field table holds is released one string after another. -/
theorem foldl_release (es : List (Str × ℕ)) (hes : (es.map Prod.snd).Nodup)
    (h : ∀ e ∈ es, ∃ str, s.strings.get e.2 = some str) :
    let s' := es.foldl (fun s pair => s.release pair.2) s
    s'.keyTable = s.keyTable ∧ s'.fields = s.fields ∧ s'.faults = s.faults ∧
      s'.strings.next = s.strings.next ∧
      ∀ p, s'.strings.get p = if p ∈ es.map Prod.snd then none else s.strings.get p := by
  induction es generalizing s with
  | nil => exact ⟨rfl, rfl, rfl, rfl, fun _ => rfl⟩
  | cons e es ih =>
    obtain ⟨str, hstr⟩ := h e List.mem_cons_self
    simp only [List.map_cons, List.nodup_cons] at hes
    have hrest : ∀ e' ∈ es, ∃ str, (s.release e.2).strings.get e'.2 = some str := by
      intro e' he'
      obtain ⟨str', hstr'⟩ := h e' (List.mem_cons_of_mem _ he')
      have hne : e'.2 ≠ e.2 := fun hc => hes.1 (hc ▸ List.mem_map_of_mem he')
      exact ⟨str', by rw [release_of_live hstr, Heap.get_free, if_neg hne, hstr']⟩
    obtain ⟨hkey, hfields, hfaults, hnext, hstrings⟩ := ih hes.2 hrest
    rw [release_of_live hstr] at hkey hfields hfaults hnext hstrings
    simp only [List.foldl_cons, release_of_live hstr]
    refine ⟨hkey, hfields, hfaults, hnext, fun p => ?_⟩
    rw [hstrings, Heap.get_free, List.map_cons]
    by_cases hp : p = e.2
    · simp [hp]
    · simp only [List.mem_cons, hp, false_or, if_false]

/-- `DeleteFieldHashtable` releases a field table and the strings that it points to. -/
theorem Wf.run_deleteFieldHashtable (h : s.Wf P H) (order : IterationOrder VmpString) {t : ℕ}
    (hl : s.Live t) :
    ∃ s', (deleteFieldHashtable order t).run s = ((), s') ∧ s'.keyTable = s.keyTable ∧
      s'.fields = s.fields.free t ∧ s'.faults = s.faults ∧ s'.strings.next = s.strings.next ∧
      (∀ k p, s.Holds t k p → s'.strings.get p = none) ∧
      ∀ p, (∀ k, ¬ s.Holds t k p) → s'.strings.get p = s.strings.get p := by
  obtain ⟨table, ht⟩ := hl
  obtain ⟨hkey, hfields, hfaults, hnext, hstrings⟩ := foldl_release
    (table.entries order none none) (h.nodup_values order ht) fun e he =>
      h.string_live t (.wrap e.1) e.2 ⟨table, ht, StlHashtable.get_of_mem_entries he⟩
  simp only [deleteFieldHashtable, Program.run_atomic, ht]
  refine ⟨_, rfl, hkey, congrArg (Heap.free · t) hfields, hfaults, hnext, ?_, fun p hp => ?_⟩
  · rintro k p ⟨table', ht', hp⟩
    cases ht.symm.trans ht'
    refine (hstrings p).trans (if_pos (List.mem_map.2 ⟨(k.value, p), ?_, rfl⟩))
    refine (StlHashtable.mem_entries_all order table k.value p).2 ⟨k.value_nulFree, ?_⟩
    rw [StlHashtable.get, VmpString.wrap_value, hp]
  · refine (hstrings p).trans (if_neg fun hmem => ?_)
    obtain ⟨e, he, rfl⟩ := List.mem_map.1 hmem
    exact hp _ ⟨table, ht, StlHashtable.get_of_mem_entries he⟩

/-- A held field table is released with the strings that it points to; the others keep theirs. -/
theorem Wf.deleteFieldHashtable (h : s.Wf P H) {s' : Store} {t : ℕ} (ht : t ∈ P)
    (hkeyTable : s'.keyTable = s.keyTable) (hfields : s'.fields = s.fields.free t)
    (hfaults : s'.faults = s.faults)
    (hstrings : ∀ p, (∀ k, ¬ s.Holds t k p) → s'.strings.get p = s.strings.get p) :
    s'.Wf (P \ {t}) H ∧ ∀ t', t' ≠ t → ∀ k, s'.content t' k = s.content t' k := by
  have hget : ∀ t', t' ≠ t → s'.fields.get t' = s.fields.get t' := fun t' ht' => by
    rw [hfields, Heap.get_free, if_neg ht']
  have hlive : ∀ t', t' ≠ t → s.Live t' → s'.Live t' := fun t' ht' ⟨table, htable⟩ =>
    ⟨table, (hget t' ht').trans htable⟩
  have hold : ∀ t' k p, s'.Holds t' k p → s.Holds t' k p ∧ t' ≠ t := by
    rintro t' k p ⟨table, htable, hp⟩
    rw [hfields, Heap.get_free] at htable
    split_ifs at htable with ht'
    exact ⟨⟨table, htable, hp⟩, ht'⟩
  -- a string that another table points to is not among the released ones
  have hkeep : ∀ t' k p, s.Holds t' k p → t' ≠ t → s'.strings.get p = s.strings.get p :=
    fun t' k p hp ht' => hstrings p fun k' hp' => ht' (h.string_inj t' k t k' p hp hp').1
  have hheld : ∀ p ∈ H, s'.strings.get p = s.strings.get p := fun p hp =>
    hstrings p fun k hk => h.held_unstored p hp t k hk
  refine ⟨{
    keyTable_live := fun k t' ht' => ?_
    keyTable_inj := fun k k' t' hk hk' => h.keyTable_inj k k' t' (hkeyTable ▸ hk) (hkeyTable ▸ hk')
    table_live := fun t' ht' => hlive t' ht'.2 (h.table_live t' ht'.1)
    table_unpublished := fun t' ht' k hk => h.table_unpublished t' ht'.1 k (hkeyTable ▸ hk)
    string_live := fun t' k p hp => ?_
    string_inj := fun t' k t'' k' p hp hp' =>
      h.string_inj t' k t'' k' p (hold t' k p hp).1 (hold t'' k' p hp').1
    held_live := fun p hp => by rw [hheld p hp]; exact h.held_live p hp
    held_unstored := fun p hp t' k hk => h.held_unstored p hp t' k (hold t' k p hk).1
    no_faults := hfaults.trans h.no_faults }, fun t' ht' k => ?_⟩
  · rw [hkeyTable] at ht'
    refine hlive t' ?_ (h.keyTable_live k t' ht')
    rintro rfl
    exact h.table_unpublished t' ht k ht'
  · obtain ⟨hp, ht'⟩ := hold t' k p hp
    rw [hkeep t' k p hp ht']
    exact h.string_live t' k p hp
  · simp only [Store.content, hget t' ht']
    cases hp : (s.fields.get t').bind fun table => table.find k with
    | none => rfl
    | some p =>
      obtain ⟨table, htable, hf⟩ := Option.bind_eq_some_iff.1 hp
      exact hkeep t' k p ⟨table, htable, hf⟩ ht'

end Store

end YcsbC
