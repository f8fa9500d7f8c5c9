import YcsbC.Db.Reachable

/-!
# Lost updates

`Insert` and `Update` look up the field table of their record first and create one when there is
none; the result of publishing it in `key_table_` is ignored. When two clients write a record that
does not exist yet, both may find it missing. The second one then fills a field table that
`key_table_` does not reference and still returns `kOK`. When the record exists already, no write
is lost, whatever the order of the steps.

## Main definitions

* `NothingLost`: after the race a `Read` returns every field that was written.

## Main results

* `lost_write`: the order of steps that loses a write.
* `race_nothingLost_iff`: when two calls that return `kOK` never lose a write.
-/

namespace YcsbC

open Store HashtableDB

/-- After a race of the calls `ws` on one record, `Read(key, NULL)` returns every field that a call
names, with a value that a call gives it, and every value that was written went to the field table
that `key_table_` references. -/
structure NothingLost {ι : Type} (order : IterationOrder VmpString) (ws : ι → Write)
    (table key : Str) (s s' : Store) : Prop where
  fields : ∀ i, ∀ pair ∈ (ws i).values, ∃ str,
    (cStr pair.1, str) ∈ ((HashtableDB.read order table key none []).run s').1.2 ∧
      ∃ j, ∃ pair' ∈ (ws j).values, cStr pair'.1 = cStr pair.1 ∧ cStr pair'.2 = str
  referenced : ∀ t k, s'.content t k ≠ s.content t k →
    s'.keyTable.find (.wrap (keyIndex table key)) = some t

/-! ### New records -/

/-- The record that a call leaves in a new field table. -/
def Write.newRecord (w : Write) : Record :=
  match w.kind with
  | .insert => (Record.insertFields w.values Record.empty).2
  | .update => Record.addFields w.values Record.empty

/-- The part of a call that fills a new field table. -/
def Write.fill (w : Write) (t : ℕ) : Program Store Status :=
  match w.kind with
  | .insert => insertFields t w.values
  | .update => do
    fillFields t w.values
    pure .kOK

/-- A call that does not fail on a new record: an `Update`, or an `Insert` that names no field
twice. -/
def Write.Clean (w : Write) : Prop := w.kind = .insert → (Record.names w.values).Nodup

variable {s s' : Store}

theorem Write.newRecord_isSome {w : Write} (hw : w.Clean) {k : VmpString}
    (hk : k ∈ Record.names w.values) : (w.newRecord k).isSome := by
  obtain ⟨kind, table, key, values⟩ := w
  cases kind with
  | insert =>
    rw [Write.newRecord, Record.insertFields_missing (hw rfl) fun _ _ => rfl]
    exact Record.setFields_isSome.2 (.inr hk)
  | update => exact Record.addFields_isSome.2 (.inr hk)

/-- The rest of a call fills a field table that is new to it. -/
theorem Write.run_fill {w : Write} (hw : w.Clean) (hwf : s.Wf ∅ ∅) {t : ℕ} (hlive : s.Live t)
    (hempty : s.content t = Record.empty) :
    ∃ s', (w.fill t).run s = (.kOK, s') ∧ s'.Wf ∅ ∅ ∧ s.Framed t s' ∧
      s'.content t = w.newRecord := by
  obtain ⟨kind, table, key, values⟩ := w
  cases kind with
  | insert =>
    obtain ⟨s', hrun, hwf', hframed, hcontent⟩ := run_insertFields hwf hlive values
    rw [hempty] at hrun hcontent
    have hstatus : (Record.insertFields values Record.empty).1 = .kOK := by
      rw [Record.insertFields_missing (hw rfl) fun _ _ => rfl]
    rw [hstatus] at hrun
    exact ⟨s', hrun, hwf', hframed, hcontent⟩
  | update =>
    obtain ⟨s', hrun, hwf', hframed, hcontent⟩ := run_fillFields hwf hlive values
    rw [hempty] at hcontent
    refine ⟨s', ?_, hwf', hframed, hcontent⟩
    simp only [Write.fill, Program.run_bind, hrun, Program.run_pure]

theorem Write.rest_none (w : Write) :
    w.rest none = (newFieldHashtable >>= fun t =>
      keyInsert (keyIndex w.table w.key) t >>= fun _ => w.fill t) := by
  obtain ⟨kind, table, key, values⟩ := w
  cases kind <;> rfl

theorem Write.run_rest_missing {w : Write} (hw : w.Clean) (hwf : s.Wf ∅ ∅)
    (hkey : s.keyTable.find w.index = none) :
    ∃ s', (w.rest none).run s = (.kOK, s') ∧ s'.Wf ∅ ∅ ∧ s'.record w.index = some w.newRecord := by
  obtain ⟨s₁, hrun₁, hwf₁, hfind₁, hcontent₁, -, -⟩ := publish_new hwf hkey
  obtain ⟨s₂, hrun₂, hwf₂, hframed₂, hcontent₂⟩ :=
    Write.run_fill hw hwf₁ (hwf₁.keyTable_live _ _ hfind₁) hcontent₁
  refine ⟨s₂, ?_, hwf₂, ?_⟩
  · simp only [Write.rest_none, Program.run_bind, run_newFieldHashtable] at hrun₁ ⊢
    rw [hrun₁, hrun₂]
  · rw [← hcontent₂]
    exact hframed₂.record hfind₁

/-- A call that has found its record missing and loses the race to create it: it fills a field
table that `key_table_` does not reference. -/
theorem Write.run_rest_late {w : Write} (hw : w.Clean) (hwf : s.Wf ∅ ∅) {t : ℕ}
    (hkey : s.keyTable.find w.index = some t) :
    ∃ s', (w.rest none).run s = (.kOK, s') ∧ s'.keyTable = s.keyTable ∧
      s'.content t = s.content t ∧ ¬ s.Live s.fields.next ∧
      s'.content s.fields.next = w.newRecord := by
  obtain ⟨hwf₁, hcontent₁, hlive₁, -⟩ := hwf.newFieldHashtable
  have hnext : ¬ s.Live s.fields.next := fun ⟨table, htable⟩ => Heap.ne_next htable rfl
  have hne : t ≠ s.fields.next := by
    rintro rfl
    exact hnext (hwf.keyTable_live _ _ hkey)
  have hempty : (newFieldHashtable.run s).2.content s.fields.next = Record.empty := by
    funext k
    rw [hcontent₁]
    simp [Store.content, Heap.get_next, Record.empty]
  obtain ⟨s₂, hrun₂, -, hframed₂, hcontent₂⟩ :=
    Write.run_fill hw (hwf₁.mono (Set.empty_subset _) subset_rfl) hlive₁ hempty
  refine ⟨s₂, ?_, hframed₂.keyTable, ?_, hnext, hcontent₂⟩
  · have hinsert : (keyInsert (keyIndex w.table w.key) s.fields.next).run
        (newFieldHashtable.run s).2 = (false, (newFieldHashtable.run s).2) :=
      run_keyInsert_of_some (s := (newFieldHashtable.run s).2) hkey _
    simp only [Write.rest_none, Program.run_bind, run_newFieldHashtable] at hinsert hrun₂ ⊢
    rw [hinsert, hrun₂]
  · funext k
    rw [hframed₂.content t hne, hcontent₁]

/-! ### The race -/

variable {order : IterationOrder VmpString} {ws : Fin 2 → Write} {table key : Str}

/-- **The order of steps that loses a write.** Two calls on one record find it missing, one after
the other; then `j` runs to its end, and then `i` does. Both return `kOK`, `key_table_` references
what `j` has written, and a field that `i` names is in no field table that it references. -/
theorem lost_write {i j : Fin 2} (hij : i ≠ j) (hws : ∀ l, (ws l).table = table ∧ (ws l).key = key)
    (hclean : ∀ l, (ws l).Clean) (hwf : s.Wf ∅ ∅)
    (hkey : s.keyTable.find (.wrap (keyIndex table key)) = none) (hi : (ws i).values ≠ []) :
    ∃ s', Config.Steps (race ws s) ⟨s', fun _ => pure .kOK⟩ ∧
      s'.record (.wrap (keyIndex table key)) = some (ws j).newRecord ∧
      ¬ NothingLost order ws table key s s' := by
  have hindex : ∀ l, (ws l).index = .wrap (keyIndex table key) := fun l => by
    rw [Write.index, (hws l).1, (hws l).2]
  -- a thread that looks the record up finds nothing
  have hget : ∀ l (thread : Fin 2 → Program Store Status), thread l = (ws l).program →
      Config.Step ⟨s, thread⟩ ⟨s, Function.update thread l ((ws l).rest none)⟩ := by
    intro l thread hl
    have hstep := Config.step_atomic_bind (s := s) (hl.trans (ws l).program_eq)
    have hnone : s.keyTable.get (keyIndex (ws l).table (ws l).key) = none := by
      rw [(hws l).1, (hws l).2]
      exact hkey
    rwa [hnone] at hstep
  have hj := hget j (fun l => (ws l).program) rfl
  have hi' := hget i (Function.update (fun l => (ws l).program) j ((ws j).rest none))
    (Function.update_of_ne hij _ _)
  obtain ⟨s₁, hrun₁, hwf₁, hrecord₁⟩ :=
    (ws j).run_rest_missing (hclean j) hwf ((hindex j).symm ▸ hkey)
  obtain ⟨t, ht, hcontent₁⟩ := Option.map_eq_some_iff.1 hrecord₁
  rw [hindex] at ht
  obtain ⟨s₂, hrun₂, hkey₂, hcontent₂, hnext, hlost⟩ :=
    (ws i).run_rest_late (hclean i) hwf₁ ((hindex i).symm ▸ ht)
  have hsteps₁ : Config.Steps (race ws s) ⟨s₁, Function.update (Function.update
      (Function.update (fun l => (ws l).program) j ((ws j).rest none)) i ((ws i).rest none)) j
      (pure .kOK)⟩ := by
    have hrun := Config.steps_run s (Function.update
      (Function.update (fun l => (ws l).program) j ((ws j).rest none)) i ((ws i).rest none)) j
    rw [Function.update_of_ne hij.symm, Function.update_self, hrun₁] at hrun
    exact .head hj (.head hi' hrun)
  have hsteps₂ : Config.Steps (race ws s) ⟨s₂, fun _ => pure .kOK⟩ := by
    have hrun := Config.steps_run s₁ (Function.update (Function.update
      (Function.update (fun l => (ws l).program) j ((ws j).rest none)) i ((ws i).rest none)) j
      (pure .kOK)) i
    rw [Function.update_of_ne hij, Function.update_self, hrun₂] at hrun
    have hthreads : Function.update (Function.update (Function.update
        (Function.update (fun l => (ws l).program) j ((ws j).rest none)) i ((ws i).rest none)) j
        (pure .kOK)) i (pure .kOK) = fun _ => (pure .kOK : Program Store Status) := by
      funext l
      have hl : l = i ∨ l = j := by omega
      rcases hl with rfl | rfl
      · rw [Function.update_self]
      · rw [Function.update_of_ne hij.symm, Function.update_self]
    rw [hthreads] at hrun
    exact hsteps₁.trans hrun
  refine ⟨s₂, hsteps₂, ?_, fun hlost' => ?_⟩
  · rw [← hcontent₁, ← hcontent₂]
    exact record_of_find (by rw [hkey₂]; exact ht)
  · -- the first field that `i` names is in its own table only
    obtain ⟨pair, values, hvalues⟩ := List.exists_cons_of_ne_nil hi
    have hsome : ((ws i).newRecord (.wrap pair.1)).isSome := by
      refine (ws i).newRecord_isSome (hclean i) ?_
      rw [hvalues]
      exact List.mem_cons_self
    have hbefore : s.content s₁.fields.next (.wrap pair.1) = none := by
      obtain ⟨g, hinv, -⟩ := race_follows hwf hsteps₁
      cases hfields : s.fields.get s₁.fields.next with
      | none => simp [Store.content, hfields]
      | some table => exact absurd (hinv.evolves.live _ ⟨table, hfields⟩) hnext
    have hreferenced := hlost'.referenced s₁.fields.next (.wrap pair.1) (by
      rw [hbefore, hlost]
      exact Option.isSome_iff_ne_none.1 hsome)
    rw [hkey₂, ht] at hreferenced
    exact hnext (Option.some.inj hreferenced ▸ hwf₁.keyTable_live _ t ht)

theorem RaceInvariant.table_eq {g : Fin 2 → Ghost} (hinv : RaceInvariant ws s g s')
    (hws : ∀ l, (ws l).table = table ∧ (ws l).key = key) {t : ℕ}
    (ht : s.keyTable.find (.wrap (keyIndex table key)) = some t) {l : Fin 2} {t' : ℕ}
    (ht' : (g l).table = some t') : t' = t := by
  have hindex : (ws l).index = .wrap (keyIndex table key) := by
    rw [Write.index, (hws l).1, (hws l).2]
  rcases (hinv.facts l).known t' ht' with ⟨-, hnone⟩ | hfind
  · rw [hindex, ht] at hnone
    cases hnone
  · rw [hindex, hinv.evolves.find _ t ht] at hfind
    exact (Option.some.inj hfind).symm

/-- **No write is lost on a record that exists.** -/
theorem nothingLost_of_present (hws : ∀ l, (ws l).table = table ∧ (ws l).key = key)
    (hwf : s.Wf ∅ ∅) {t : ℕ} (ht : s.keyTable.find (.wrap (keyIndex table key)) = some t)
    (hsteps : Config.Steps (race ws s) ⟨s', fun _ => pure .kOK⟩) :
    NothingLost order ws table key s s' := by
  obtain ⟨g, hinv, hdone⟩ := race_returns hwf hsteps fun _ => rfl
  have hwf' := hinv.wf.mono (Set.empty_subset _) (Set.empty_subset _)
  have hfind := hinv.evolves.find _ t ht
  refine ⟨fun i pair hpair => ?_, fun t' k hne => ?_⟩
  · obtain ⟨t', ht', j, pair', hpair', hk, hcontent⟩ :=
      (hinv.facts i).done _ ((hdone i rfl).1 _ (List.mem_map_of_mem hpair))
    rw [hinv.table_eq hws ht ht'] at hcontent
    have hget : s'.keyTable.get (keyIndex table key) = some t := hfind
    refine ⟨cStr pair'.2, ?_, j, pair', hpair', VmpString.wrap_inj.1 hk, rfl⟩
    rw [run_read hwf', hget]
    refine (mem_pairs order s' t _ _).2 ⟨nulFree_cStr _, ?_⟩
    rw [VmpString.wrap_inj.2 (cStr_cStr pair.1)]
    exact hcontent
  · obtain ⟨i, hi⟩ := hinv.changes t' k hne
    rw [hinv.table_eq hws ht hi]
    exact hfind

/-- **When two acknowledged writes are safe.** In any interleaving of two calls on one record that
both return `kOK`, nothing is lost, if and only if the record existed before, or neither call names
a field, or one call is an `Insert` that names a field twice and so never returns `kOK`. -/
theorem race_nothingLost_iff {W : Set (Str × Str)} (hs : Reachable order W s)
    (hws : ∀ l, (ws l).table = table ∧ (ws l).key = key) :
    (∀ s', Config.Steps (race ws s) ⟨s', fun _ => pure .kOK⟩ →
        NothingLost order ws table key s s') ↔
      (s.record (.wrap (keyIndex table key))).isSome ∨ (∀ l, (ws l).values = []) ∨
        ∃ l, (ws l).kind = .insert ∧ ¬ (Record.names (ws l).values).Nodup := by
  constructor
  · intro hall
    by_contra hcon
    simp only [not_or, not_forall, not_exists, not_and, not_not, Option.not_isSome_iff_eq_none]
      at hcon
    obtain ⟨hrecord, ⟨i, hi⟩, hclean⟩ := hcon
    have hij : ∃ j, i ≠ j := ⟨1 - i, by omega⟩
    obtain ⟨j, hij⟩ := hij
    obtain ⟨s', hsteps, -, hlost⟩ :=
      lost_write hij hws hclean hs.wf (record_eq_none.1 hrecord) hi
    exact hlost (hall s' hsteps)
  · rintro (hrecord | hempty | ⟨l, hinsert, hrepeat⟩) s' hsteps
    · obtain ⟨t, ht, -⟩ := Option.map_eq_some_iff.1 (Option.eq_some_of_isSome hrecord)
      exact nothingLost_of_present hws hs.wf ht hsteps
    · obtain ⟨g, hinv, -⟩ := race_returns hs.wf hsteps fun _ => rfl
      refine ⟨fun i pair hpair => ?_, fun t k hne => ?_⟩
      · rw [hempty i] at hpair
        cases hpair
      · rcases hinv.evolves.content t k with heq | ⟨i, pair, hpair, -⟩
        · exact absurd heq hne
        · rw [hempty i] at hpair
          cases hpair
    · obtain ⟨g, -, hdone⟩ := race_returns hs.wf hsteps fun _ => rfl
      exact absurd ((hdone l rfl).2 hinsert) hrepeat

/-- Two updates of a record that an insertion has created. -/
theorem race_nothingLost_iff_after_insert :
    let s := ((Call.program (LockStlDB (.newestFirst _))
      (.insert "t".toList "u1".toList [("f0".toList, "a".toList)])).run Store.empty).2
    let ws : Fin 2 → Write := fun l => ⟨.update, "t".toList, "u1".toList,
      [(if l = 0 then "f1".toList else "f2".toList, "b".toList)]⟩
    ∀ s', Config.Steps (race ws s) ⟨s', fun _ => pure .kOK⟩ →
      NothingLost (.newestFirst _) ws "t".toList "u1".toList s s' := by
  intro s ws
  have hs : Reachable (.newestFirst _) (∅ ∪ {("t".toList, "u1".toList)}) s :=
    .call (.insert "t".toList "u1".toList [("f0".toList, "a".toList)]) .empty
  have hws : ∀ l, (ws l).table = "t".toList ∧ (ws l).key = "u1".toList := fun _ => ⟨rfl, rfl⟩
  exact (race_nothingLost_iff hs hws).2 (.inl (by decide))

/-- Two updates of one record of the empty store: both return `kOK`, and afterwards a `Read` does
not return the field that the second one has written. -/
theorem two_updates_lose_a_write :
    let ws : Fin 2 → Write := fun l => ⟨.update, "usertable".toList, "user1".toList,
      [(if l = 0 then "field0".toList else "field1".toList, "x".toList)]⟩
    Reachable (.newestFirst _) ∅ Store.empty ∧
      ∃ s', Config.Steps (race ws Store.empty) ⟨s', fun _ => pure .kOK⟩ ∧
        (∀ str, ("field1".toList, str) ∉ ((HashtableDB.read (.newestFirst _) "usertable".toList
          "user1".toList none []).run s').1.2) ∧
        ¬ NothingLost (.newestFirst _) ws "usertable".toList "user1".toList Store.empty s' := by
  intro ws
  have hlost : ∃ s', Config.Steps (race ws Store.empty) ⟨s', fun _ => pure .kOK⟩ ∧
      s'.record (.wrap (keyIndex "usertable".toList "user1".toList)) = some (ws 0).newRecord ∧
      ¬ NothingLost (.newestFirst _) ws "usertable".toList "user1".toList Store.empty s' :=
    lost_write (show (1 : Fin 2) ≠ 0 by decide) (fun _ => ⟨rfl, rfl⟩) (fun _ hc => by cases hc)
      wf_empty (by decide) (by decide)
  obtain ⟨s', hsteps, hrecord, hlost⟩ := hlost
  refine ⟨.empty, s', hsteps, fun str hmem => ?_, hlost⟩
  obtain ⟨t, ht, hcontent⟩ := Option.map_eq_some_iff.1 hrecord
  have hget : s'.keyTable.get (keyIndex "usertable".toList "user1".toList) = some t := ht
  rw [run_read (wf_race wf_empty hsteps).1, hget] at hmem
  have hfield := ((mem_pairs _ s' t _ _).1 hmem).2
  rw [hcontent] at hfield
  have hnone : (ws 0).newRecord (.wrap "field1".toList) = none := by decide
  cases hnone.symm.trans hfield

end YcsbC
