import Mathlib.Data.Set.Lattice
import Mathlib.Order.CompletePartialOrder
import YcsbC.Db.Operations

/-!
# Concurrent writers of the store

Several clients run `Insert` and `Update` on one store, and their atomic steps interleave in any
order. Each writer owns the field table that it has allocated until it has published it, and the
value string in its hands; a ghost value records these together with the fields that it has
written. Every atomic step keeps the memory well formed for the owners, and the store evolves in
one direction only: an entry of `key_table_` stays, and a field changes only to a value that one of
the calls writes.

## Main definitions

* `Write`: the calls.
* `Store.Written`, `Store.Evolves`: a field has a value of one of the calls; what a race may change.
* `Ghost`, `Ghost.Facts`, `Ghost.Effect`: what a writer owns and knows, and one step of it.

## Main results

* `Ghost.move_copyString`, `move_deleteString`, `move_fieldInsert`, `move_fieldUpdate`,
  `move_newFieldHashtable`, `move_keyInsert`: the steps of a writer.
-/

namespace YcsbC

/-- The two operations that add fields to a record. -/
inductive WriteKind where
  | insert
  | update
  deriving DecidableEq, Repr

/-- A call of `Insert` or `Update`. -/
structure Write where
  kind : WriteKind
  table : Str
  key : Str
  values : List KVPair

open Store HashtableDB

namespace Write

/-- The key of `key_table_` that a call names. -/
def index (w : Write) : VmpString := .wrap (keyIndex w.table w.key)

/-- The program of a call. -/
def program (w : Write) : Program Store Status :=
  match w.kind with
  | .insert => HashtableDB.insert w.table w.key w.values
  | .update => HashtableDB.update w.table w.key w.values

/-- The program of a call once `key_table_->Get` has returned. -/
def rest (w : Write) : Option ℕ → Program Store Status :=
  match w.kind with
  | .insert => insertAt (keyIndex w.table w.key) w.values
  | .update => updateAt (keyIndex w.table w.key) w.values

theorem program_eq (w : Write) :
    w.program = keyGet (keyIndex w.table w.key) >>= fun t => w.rest t := by
  obtain ⟨kind, table, key, values⟩ := w
  cases kind <;> rfl

end Write

variable {ι : Type}

/-! ### How the store evolves -/

namespace Store

variable {ws : ι → Write} {s s' s'' : Store}

/-- The field has a value that one of the calls writes to it. -/
def Written (ws : ι → Write) (s : Store) (t : ℕ) (k : VmpString) : Prop :=
  ∃ i, ∃ pair ∈ (ws i).values, VmpString.wrap pair.1 = k ∧ s.content t k = some (cStr pair.2)

theorem Written.congr {t : ℕ} {k : VmpString} (h : s.Written ws t k)
    (hc : s'.content t k = s.content t k) : s'.Written ws t k := by
  obtain ⟨i, pair, hpair, hk, hcontent⟩ := h
  exact ⟨i, pair, hpair, hk, hc.trans hcontent⟩

/-- What a race may change: entries of `key_table_` are added for the keys of the calls, field
tables are added, and fields get values that the calls write. -/
structure Evolves (ws : ι → Write) (s s' : Store) : Prop where
  find : ∀ k t, s.keyTable.find k = some t → s'.keyTable.find k = some t
  found : ∀ k t, s'.keyTable.find k = some t →
    s.keyTable.find k = some t ∨ ∃ i, (ws i).index = k
  live : ∀ t, s.Live t → s'.Live t
  content : ∀ t k, s'.content t k = s.content t k ∨ s'.Written ws t k

theorem Evolves.refl (ws : ι → Write) (s : Store) : s.Evolves ws s :=
  ⟨fun _ _ h => h, fun _ _ h => .inl h, fun _ h => h, fun _ _ => .inl rfl⟩

theorem Evolves.trans (h : s.Evolves ws s') (h' : s'.Evolves ws s'') : s.Evolves ws s'' where
  find k t hk := h'.find k t (h.find k t hk)
  found k t hk := by
    rcases h'.found k t hk with hk | hi
    · exact h.found k t hk
    · exact .inr hi
  live t ht := h'.live t (h.live t ht)
  content t k := by
    rcases h'.content t k with heq | hw
    · rcases h.content t k with heq' | hw'
      · exact .inl (heq.trans heq')
      · exact .inr (hw'.congr heq)
    · exact .inr hw

/-- A step that leaves `key_table_` and the contents of the field tables as they are. -/
theorem Evolves.of_content (hkey : s'.keyTable = s.keyTable) (hlive : ∀ t, s.Live t → s'.Live t)
    (hcontent : ∀ t k, s'.content t k = s.content t k) : s.Evolves ws s' :=
  ⟨fun k t hk => by rw [hkey, hk], fun k t hk => .inl (by rwa [hkey] at hk), hlive,
    fun t k => .inl (hcontent t k)⟩

theorem Evolves.written {t : ℕ} {k : VmpString} (h : s.Evolves ws s') (hw : s.Written ws t k) :
    s'.Written ws t k := by
  rcases h.content t k with heq | hw'
  · exact hw.congr heq
  · exact hw'

end Store

/-! ### What a writer owns and knows -/

/-- The ghost value of a writer: the field table on which it works and whether this table is its
own, the copy of a value in its hands, the fields that it has written, and the fields that it knows
to be missing or to have a value of the calls. -/
structure Ghost where
  table : Option ℕ
  isOwn : Bool
  copy : Option (ℕ × Str)
  done : Set VmpString
  clean : Set VmpString

namespace Ghost

/-- A writer that has not found its field table yet. -/
def start : Ghost := ⟨none, false, none, ∅, ∅⟩

/-- The field tables that a writer owns. -/
def own (g : Ghost) : Set ℕ := {t | g.isOwn = true ∧ g.table = some t}

/-- The value strings that a writer owns. -/
def held (g : Ghost) : Set ℕ := {p | ∃ str, g.copy = some (p, str)}

/-- The writer has a copy of a value in its hands. -/
def take (g : Ghost) (p : ℕ) (str : Str) : Ghost := { g with copy := some (p, str) }

/-- The writer has no copy in its hands any more. -/
def drop (g : Ghost) : Ghost := { g with copy := none }

/-- The writer has written a field. -/
def write (g : Ghost) (k : VmpString) : Ghost := { g with done := insert k g.done }

/-- The writer has seen that a field is missing. -/
def miss (g : Ghost) (k : VmpString) : Ghost := { g with clean := insert k g.clean }

variable {g : Ghost} {p : ℕ} {str : Str} {k : VmpString}

theorem mem_held_of_copy (h : g.copy = some (p, str)) : p ∈ g.held := ⟨str, h⟩

theorem held_of_copy (h : g.copy = some (p, str)) : g.held = {p} := by
  ext q
  simp only [held, h, Option.some.injEq, Prod.mk.injEq, Set.mem_ofPred_eq, Set.mem_singleton_iff]
  exact ⟨fun ⟨_, hq, _⟩ => hq.symm, fun hq => ⟨str, hq.symm, rfl⟩⟩

theorem held_of_none (h : g.copy = none) : g.held = ∅ := by
  ext q
  simp [held, h]

@[simp] theorem own_take : (g.take p str).own = g.own := rfl
@[simp] theorem own_drop : g.drop.own = g.own := rfl
@[simp] theorem own_write : (g.write k).own = g.own := rfl
@[simp] theorem own_miss : (g.miss k).own = g.own := rfl
@[simp] theorem held_write : (g.write k).held = g.held := rfl
@[simp] theorem held_miss : (g.miss k).held = g.held := rfl
@[simp] theorem held_take : (g.take p str).held = {p} := held_of_copy rfl
@[simp] theorem held_drop : g.drop.held = ∅ := held_of_none rfl

/-- What a writer knows about the store, which was `s₀` when the race began. -/
structure Facts (ws : ι → Write) (s₀ : Store) (w : Write) (g : Ghost) (s : Store) : Prop where
  live : ∀ t, g.table = some t → s.Live t
  known : ∀ t, g.table = some t →
    (g.isOwn = true ∧ s₀.keyTable.find w.index = none) ∨ s.keyTable.find w.index = some t
  copy : ∀ p str, g.copy = some (p, str) → s.strings.get p = some str
  done : ∀ k ∈ g.done, ∃ t, g.table = some t ∧ s.Written ws t k
  clean : ∀ k ∈ g.clean, ∃ t, g.table = some t ∧ (s.content t k = none ∨ s.Written ws t k)

variable {ws : ι → Write} {s₀ s s' : Store} {w : Write} {P H : Set ℕ}

theorem facts_start (ws : ι → Write) (s₀ : Store) (w : Write) (s : Store) :
    start.Facts ws s₀ w s where
  live t ht := by cases ht
  known t ht := by cases ht
  copy p str hp := by cases hp
  done k hk := hk.elim
  clean k hk := hk.elim

/-- The facts outlive the steps of the other writers. -/
theorem Facts.evolve (h : g.Facts ws s₀ w s) (he : s.Evolves ws s')
    (hcopy : ∀ p str, g.copy = some (p, str) → s'.strings.get p = some str) :
    g.Facts ws s₀ w s' where
  live t ht := he.live t (h.live t ht)
  known t ht := (h.known t ht).imp_right (he.find w.index t)
  copy := hcopy
  done k hk := by
    obtain ⟨t, ht, hw⟩ := h.done k hk
    exact ⟨t, ht, he.written hw⟩
  clean k hk := by
    obtain ⟨t, ht, hc | hw⟩ := h.clean k hk
    · rcases he.content t k with heq | hw
      · exact ⟨t, ht, .inl (heq.trans hc)⟩
      · exact ⟨t, ht, .inr hw⟩
    · exact ⟨t, ht, .inr (he.written hw)⟩

theorem Facts.drop (h : g.Facts ws s₀ w s) : g.drop.Facts ws s₀ w s :=
  { h with copy := fun _ _ hp => by cases hp }

theorem Facts.take (h : g.Facts ws s₀ w s) (hp : s.strings.get p = some str) :
    (g.take p str).Facts ws s₀ w s :=
  { h with copy := fun _ _ hq => by cases hq; exact hp }

theorem Facts.write (h : g.Facts ws s₀ w s) {t : ℕ} (ht : g.table = some t)
    (hk : s.Written ws t k) : (g.write k).Facts ws s₀ w s := by
  refine { h with done := ?_ }
  rintro k' (rfl | hk')
  · exact ⟨t, ht, hk⟩
  · exact h.done k' hk'

theorem Facts.miss (h : g.Facts ws s₀ w s) {t : ℕ} (ht : g.table = some t)
    (hk : s.content t k = none) : (g.miss k).Facts ws s₀ w s := by
  refine { h with clean := ?_ }
  rintro k' (rfl | hk')
  · exact ⟨t, ht, .inl hk⟩
  · exact h.clean k' hk'

/-- One step of a writer, while the others own the field tables in `P` and the value strings in
`H`. -/
structure Effect (ws : ι → Write) (s₀ : Store) (w : Write) (P H : Set ℕ) (g : Ghost) (s : Store)
    (g' : Ghost) (s' : Store) : Prop where
  wf : s'.Wf (P ∪ g'.own) (H ∪ g'.held)
  own : Disjoint P g'.own
  held : Disjoint H g'.held
  strings : ∀ p ∈ H, s'.strings.get p = s.strings.get p
  evolves : s.Evolves ws s'
  changes : ∀ t k, s'.content t k ≠ s.content t k → g'.table = some t
  table : ∀ t, g.table = some t → g'.table = some t
  facts : g'.Facts ws s₀ w s'

/-- A step of a writer, whatever the others own. -/
def Move (ws : ι → Write) (s₀ : Store) (w : Write) (g : Ghost) (s : Store) (g' : Ghost)
    (s' : Store) : Prop :=
  ∀ P H, Disjoint P g.own → Disjoint H g.held → s.Wf (P ∪ g.own) (H ∪ g.held) →
    Effect ws s₀ w P H g s g' s'

/-- A step that does not change the store. -/
theorem move_self {g' : Ghost} (htable : ∀ t, g.table = some t → g'.table = some t)
    (hown : g'.own = g.own) (hheld : g'.held ⊆ g.held) (hfacts : g'.Facts ws s₀ w s) :
    Move ws s₀ w g s g' s := fun P H hP hH h =>
  { wf := h.mono (by rw [hown]) (Set.union_subset_union_right H hheld)
    own := by rwa [hown]
    held := hH.mono_right hheld
    strings := fun _ _ => rfl
    evolves := .refl ws s
    changes := fun _ _ hne => absurd rfl hne
    table := htable
    facts := hfacts }

/-! ### The steps of a writer -/

/-- A step that changes nothing but the strings in the writer's hands. -/
theorem effect_of_content {g' : Ghost} (hown : g'.own = g.own)
    (hP : Disjoint P g.own) (hwf : s'.Wf (P ∪ g.own) (H ∪ g'.held)) (hheld : Disjoint H g'.held)
    (hstrings : ∀ p ∈ H, s'.strings.get p = s.strings.get p)
    (hevolves : s.Evolves ws s') (hcontent : ∀ t k, s'.content t k = s.content t k)
    (htable : ∀ t, g.table = some t → g'.table = some t) (hfacts : g'.Facts ws s₀ w s') :
    Effect ws s₀ w P H g s g' s' :=
  { wf := by rwa [hown]
    own := by rwa [hown]
    held := hheld
    strings := hstrings
    evolves := hevolves
    changes := fun t k hne => absurd (hcontent t k) hne
    table := htable
    facts := hfacts }

/-- `CopyString`. -/
theorem move_copyString (hf : g.Facts ws s₀ w s) (hcopy : g.copy = none) (str : Str) :
    Move ws s₀ w g s (g.take s.strings.next (cStr str)) ((copyString str).run s).2 := by
  intro P H hP _ h
  have hevolves : s.Evolves ws ((copyString str).run s).2 :=
    .of_content rfl (fun _ ht => ht) (h.content_copyString str)
  have hnext : s.strings.next ∉ H := fun hmem => h.next_notMem (.inl hmem)
  refine effect_of_content rfl hP ((h.copyString str).mono subset_rfl ?_) ?_ (fun p hp => ?_)
    hevolves (h.content_copyString str) (fun _ ht => ht) ?_
  · rintro p (hp | hp)
    · exact .inr (.inl hp)
    · rw [held_take] at hp
      exact .inl hp
  · rw [held_take, Set.disjoint_singleton_right]
    exact hnext
  · obtain ⟨v, hv⟩ := h.held_live p (.inl hp)
    rw [run_copyString_snd, Heap.get_alloc_of_some hv, hv]
  · refine (hf.evolve hevolves fun p v hp => ?_).take (get_copyString str s)
    rw [hcopy] at hp
    cases hp

/-- `DeleteString` of the string in the writer's hands. -/
theorem move_deleteString (hf : g.Facts ws s₀ w s) (hcopy : g.copy = some (p, str)) :
    Move ws s₀ w g s g.drop ((deleteString p).run s).2 := by
  intro P H hP hH h
  rw [run_deleteString]
  obtain ⟨hwf, hcontent, hfields, hkey⟩ := h.release (.inr (mem_held_of_copy hcopy))
  have hevolves : s.Evolves ws (s.release p) :=
    .of_content hkey (fun t ht => by rwa [Live, hfields]) hcontent
  have hout : ∀ q ∈ H, q ≠ p := by
    rintro q hq rfl
    exact Set.disjoint_left.1 hH hq (mem_held_of_copy hcopy)
  refine effect_of_content rfl hP (hwf.mono subset_rfl ?_) ?_ (fun q hq => ?_) hevolves hcontent
    (fun _ ht => ht) (hf.drop.evolve hevolves fun _ _ hq => by cases hq)
  · rw [held_drop, Set.union_empty]
    exact fun q hq => ⟨.inl hq, hout q hq⟩
  · rw [held_drop]
    exact Set.disjoint_empty H
  · rw [release_of_live (hf.copy p str hcopy), Heap.get_free, if_neg (hout q hq)]

/-- Storing the copy in a field of the writer's table; `c` is in the writer's hands afterwards. -/
theorem effect_store {t : ℕ} {field : Str} (c : Option (ℕ × Str)) (hf : g.Facts ws s₀ w s)
    (hw : ∃ i, ∃ pair ∈ (ws i).values, .wrap pair.1 = VmpString.wrap field ∧ cStr pair.2 = str)
    (ht : g.table = some t) (hcopy : g.copy = some (p, str)) (hP : Disjoint P g.own)
    (hwf : s'.Wf (P ∪ g.own) (H ∪ { g with copy := c }.held))
    (hheld : Disjoint H { g with copy := c }.held)
    (hcontent : ∀ t' k, s'.content t' k =
      if t' = t ∧ k = .wrap field then s.strings.get p else s.content t' k)
    (hlive : ∀ t', s'.Live t' ↔ s.Live t') (hkey : s'.keyTable = s.keyTable)
    (hstrings : s'.strings = s.strings)
    (hc : ∀ q v, c = some (q, v) → s.strings.get q = some v) :
    Effect ws s₀ w P H g s ({ g with copy := c }.write (.wrap field)) s' := by
  obtain ⟨i, pair, hpair, hk, hstr⟩ := hw
  have hp := hf.copy p str hcopy
  have hwritten : s'.Written ws t (.wrap field) :=
    ⟨i, pair, hpair, hk, by rw [hcontent, if_pos ⟨rfl, rfl⟩, hp, hstr]⟩
  have hother : ∀ t' k, ¬ (t' = t ∧ k = .wrap field) → s'.content t' k = s.content t' k :=
    fun t' k hne => by rw [hcontent, if_neg hne]
  have hevolves : s.Evolves ws s' := by
    refine ⟨fun k t hk => by rw [hkey, hk], fun k t hk => .inl (by rwa [hkey] at hk),
      fun t' ht' => (hlive t').2 ht', fun t' k => ?_⟩
    by_cases hplace : t' = t ∧ k = .wrap field
    · rw [hplace.1, hplace.2]
      exact .inr hwritten
    · exact .inl (hother t' k hplace)
  have hold := hf.drop.evolve hevolves fun _ _ hq => by cases hq
  have hfacts : { g with copy := c }.Facts ws s₀ w s' :=
    { hold with copy := fun q v hq => by rw [hstrings]; exact hc q v hq }
  exact
    { wf := hwf
      own := hP
      held := hheld
      strings := fun q _ => by rw [hstrings]
      evolves := hevolves
      changes := fun t' k hne => by
        by_cases hplace : t' = t ∧ k = .wrap field
        · rw [hplace.1]
          exact ht
        · exact absurd (hother t' k hplace) hne
      table := fun t' ht' => ht'
      facts := hfacts.write ht hwritten }

/-- A field without an entry has no value. -/
theorem content_eq_none {t : ℕ} {table : StlHashtable ℕ} {field : Str}
    (htable : s.fields.get t = some table) (hget : table.get field = none) :
    s.content t (.wrap field) = none := by
  rw [StlHashtable.get] at hget
  simp [Store.content, htable, hget]

/-- `field_table->Insert` of a field that is missing. -/
theorem move_fieldInsert {t : ℕ} {table : StlHashtable ℕ} {field : Str}
    (hf : g.Facts ws s₀ w s)
    (hw : ∃ i, ∃ pair ∈ (ws i).values, .wrap pair.1 = VmpString.wrap field ∧ cStr pair.2 = str)
    (ht : g.table = some t) (hcopy : g.copy = some (p, str)) (htable : s.fields.get t = some table)
    (hget : table.get field = none) :
    Move ws s₀ w g s (g.drop.write (.wrap field)) ((fieldInsert t field p).run s).2 := by
  intro P H hP hH h
  obtain ⟨s', hrun, hwf, hcontent, hlive, hkey, -, hstrings⟩ :=
    h.fieldInsert htable hget (.inr (mem_held_of_copy hcopy))
  rw [hrun]
  refine effect_store none hf hw ht hcopy hP (hwf.mono subset_rfl ?_) ?_ hcontent hlive hkey
    hstrings fun _ _ hq => by cases hq
  · rintro q (hq | ⟨v, hv⟩)
    · refine ⟨.inl hq, ?_⟩
      rintro rfl
      exact Set.disjoint_left.1 hH hq (mem_held_of_copy hcopy)
    · cases hv
  · rw [held_of_none rfl]
    exact Set.disjoint_empty H

/-- `field_table->Insert` of a field that is present with a value of the calls. -/
theorem move_fieldInsert_present {t old : ℕ} {table : StlHashtable ℕ} {field : Str}
    (hf : g.Facts ws s₀ w s) (ht : g.table = some t) (htable : s.fields.get t = some table)
    (hget : table.get field = some old) (hclean : VmpString.wrap field ∈ g.clean) :
    Move ws s₀ w g s (g.drop.write (.wrap field)) ((fieldInsert t field p).run s).2 := by
  intro P H hP hH h
  rw [run_fieldInsert_of_some htable hget]
  have hsome : (s.content t (.wrap field)).isSome := h.content_isSome.2 ⟨old, table, htable, hget⟩
  have hwritten : s.Written ws t (.wrap field) := by
    obtain ⟨t', ht', hcase⟩ := hf.clean _ hclean
    cases ht.symm.trans ht'
    rcases hcase with hnone | hwritten
    · rw [hnone] at hsome
      cases hsome
    · exact hwritten
  have hmove : Move ws s₀ w g s (g.drop.write (.wrap field)) s := by
    refine move_self (fun _ ht' => ht') rfl ?_ (hf.drop.write ht hwritten)
    rw [held_write, held_drop]
    exact Set.empty_subset _
  exact hmove P H hP hH h

/-- `field_table->Update` of a field that is missing. -/
theorem move_fieldUpdate_missing {t : ℕ} {table : StlHashtable ℕ} {field : Str}
    (hf : g.Facts ws s₀ w s) (ht : g.table = some t) (htable : s.fields.get t = some table)
    (hget : table.get field = none) :
    Move ws s₀ w g s (g.miss (.wrap field)) ((fieldUpdate t field p).run s).2 := by
  rw [run_fieldUpdate_of_none htable hget]
  exact move_self (fun _ ht' => ht') rfl subset_rfl (hf.miss ht (content_eq_none htable hget))

/-- `field_table->Update` of a field that is present: the old string is in the writer's hands. -/
theorem move_fieldUpdate {t old : ℕ} {table : StlHashtable ℕ} {field : Str}
    (hf : g.Facts ws s₀ w s)
    (hw : ∃ i, ∃ pair ∈ (ws i).values, .wrap pair.1 = VmpString.wrap field ∧ cStr pair.2 = str)
    (ht : g.table = some t) (hcopy : g.copy = some (p, str)) (htable : s.fields.get t = some table)
    (hget : table.get field = some old) :
    Move ws s₀ w g s ((g.take old ((s.strings.get old).getD [])).write (.wrap field))
      ((fieldUpdate t field p).run s).2 := by
  intro P H hP hH h
  obtain ⟨v, hold⟩ := h.string_live t (.wrap field) old ⟨table, htable, hget⟩
  rw [hold, Option.getD_some]
  obtain ⟨s', hrun, hwf, hcontent, hlive, hkey, -, hstrings⟩ :=
    h.fieldUpdate htable hget (.inr (mem_held_of_copy hcopy))
  rw [hrun]
  refine effect_store (some (old, v)) hf hw ht hcopy hP (hwf.mono subset_rfl ?_) ?_ hcontent
    hlive hkey hstrings fun q u hq => by cases hq; exact hold
  · rintro q (hq | hq)
    · refine .inr ⟨.inl hq, ?_⟩
      rintro rfl
      exact Set.disjoint_left.1 hH hq (mem_held_of_copy hcopy)
    · rw [held_of_copy rfl] at hq
      exact .inl hq
  · rw [held_of_copy rfl, Set.disjoint_singleton_right]
    exact fun hmem => h.held_unstored old (.inl hmem) t (.wrap field) ⟨table, htable, hget⟩

/-- `NewFieldHashtable`: the writer owns an empty field table. -/
theorem move_newFieldHashtable (hkey : s₀.keyTable.find w.index = none) :
    Move ws s₀ w start s ⟨some s.fields.next, true, none, ∅, Set.univ⟩
      (newFieldHashtable.run s).2 := by
  intro P H hP hH h
  obtain ⟨hwf, hcontent, hlive, hlive'⟩ := h.newFieldHashtable
  have hevolves : s.Evolves ws (newFieldHashtable.run s).2 := .of_content rfl hlive' hcontent
  have hout : s.fields.next ∉ P := fun hmem => by
    obtain ⟨table, htable⟩ := h.table_live _ (.inl hmem)
    exact Heap.ne_next htable rfl
  refine
    { wf := hwf.mono ?_ subset_rfl
      own := ?_
      held := hH
      strings := fun p _ => rfl
      evolves := hevolves
      changes := fun t k hne => absurd (hcontent t k) hne
      table := fun t ht => by cases ht
      facts := ⟨?_, fun t _ => .inl ⟨rfl, hkey⟩, ?_, fun k hk => hk.elim, fun k _ => ?_⟩ }
  · rintro t (ht | ⟨-, ht⟩)
    · exact .inr (.inl ht)
    · exact .inl (Option.some.inj ht).symm
  · rw [Set.disjoint_left]
    rintro t ht ⟨-, hnext⟩
    exact hout (Option.some.inj hnext ▸ ht)
  · intro t ht
    exact Option.some.inj ht ▸ hlive
  · intro p str hp
    cases hp
  · exact ⟨_, rfl, .inl ((hcontent _ k).trans (by simp [Store.content, Heap.get_next]))⟩

/-- `key_table_->Insert` of the writer's own table, which the store may or may not take. -/
theorem move_keyInsert {t : ℕ} {done clean : Set VmpString}
    (hf : Facts ws s₀ w ⟨some t, true, none, done, clean⟩ s) (hi : ∃ i, ws i = w) :
    ∃ isOwn, Move ws s₀ w ⟨some t, true, none, done, clean⟩ s ⟨some t, isOwn, none, done, clean⟩
      ((keyInsert (keyIndex w.table w.key) t).run s).2 := by
  cases hget : s.keyTable.get (keyIndex w.table w.key) with
  | some t₀ =>
    rw [run_keyInsert_of_some hget]
    exact ⟨true, move_self (fun _ ht => ht) rfl subset_rfl hf⟩
  | none =>
    refine ⟨false, fun P H hP hH h => ?_⟩
    have hfind : ∀ k, (s.keyTable.insert (keyIndex w.table w.key) t).2.find k =
        if k = w.index then some t else s.keyTable.find k := fun k => by
      rw [StlHashtable.find_insert, hget, Option.getD_none, Write.index]
    have hwf := h.keyInsert hget (.inr ⟨rfl, rfl⟩)
    have hevolves : s.Evolves ws ((keyInsert (keyIndex w.table w.key) t).run s).2 := by
      refine ⟨fun k t' hk => ?_, fun k t' hk => ?_, fun _ ht => ht, fun _ _ => .inl rfl⟩
      · rw [run_keyInsert, hfind, if_neg, hk]
        rintro rfl
        cases hget.symm.trans hk
      · rw [run_keyInsert, hfind] at hk
        split_ifs at hk with hk'
        · obtain ⟨i, rfl⟩ := hi
          exact .inr ⟨i, hk'.symm⟩
        · exact .inl hk
    have hold := hf.evolve hevolves fun _ _ hp => by cases hp
    exact
      { wf := hwf.mono (by
          rintro t' (ht' | ⟨hfalse, -⟩)
          · refine ⟨.inl ht', ?_⟩
            rintro rfl
            exact Set.disjoint_left.1 hP ht' ⟨rfl, rfl⟩
          · cases hfalse) subset_rfl
        own := Set.disjoint_left.2 fun _ _ hown => Bool.false_ne_true hown.1
        held := hH
        strings := fun _ _ => rfl
        evolves := hevolves
        changes := fun _ _ hne => absurd rfl hne
        table := fun _ ht => ht
        facts := { hold with
          known := fun t' ht' => by
            cases ht'
            exact .inr ((hfind w.index).trans (if_pos rfl)) } }

end Ghost

end YcsbC
