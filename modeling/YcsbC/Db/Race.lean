import YcsbC.Foundation.Interleaving
import YcsbC.Db.Writers

/-!
# Races of writers

Any number of clients run one `Insert` or `Update` each on a shared store, and their atomic steps
interleave in any order. Each program follows the protocol of `YcsbC.Db.Writers`, so the memory
stays well formed for the blocks that the writers own, whatever the order of the steps.

## Main definitions

* `race`: the writers on a store.
* `RaceInvariant`: the memory with the ghost values of all writers.

## Main results

* `Write.obeys_program`: a writer follows the protocol.
* `race_returns`: the invariant holds when all writers have returned.
-/

namespace YcsbC

open Store HashtableDB Program

variable {ι : Type} {ws : ι → Write} {s₀ s s' : Store} {w : Write}

/-- The writers start on a store. -/
def race (ws : ι → Write) (s : Store) : Config ι Store Status :=
  ⟨s, fun i => (ws i).program⟩

/-! ### A writer follows the protocol -/

namespace Ghost

/-- The stores that a writer may meet: they have evolved from `s₀`, and what it knows holds. -/
def Allowed (ws : ι → Write) (s₀ : Store) (w : Write) (g : Ghost) (s : Store) : Prop :=
  s₀.Evolves ws s ∧ g.Facts ws s₀ w s

/-- From `g` to `g'` the writer has written the fields of `values`. -/
def Wrote (values : List KVPair) (g g' : Ghost) : Prop :=
  g.done ⊆ g'.done ∧ ∀ k ∈ Record.names values, k ∈ g'.done

theorem wrote_nil (g : Ghost) : Wrote [] g g :=
  ⟨subset_rfl, fun k hk => by simp [Record.names] at hk⟩

theorem Wrote.cons {field str : Str} {values : List KVPair} {g g₁ g' : Ghost}
    (hdone : g₁.done = insert (.wrap field) g.done) (h : Wrote values g₁ g') :
    Wrote ((field, str) :: values) g g' := by
  refine ⟨fun k hk => h.1 (hdone ▸ .inr hk), fun k hk => ?_⟩
  rcases List.mem_cons.1 hk with rfl | hk
  · exact h.1 (hdone ▸ .inl rfl)
  · exact h.2 k hk

variable {t : ℕ}

theorem exists_written {field str : Str} {values : List KVPair}
    (hv : ∀ pair ∈ (field, str) :: values, ∃ i, pair ∈ (ws i).values) :
    ∃ i, ∃ pair ∈ (ws i).values, .wrap pair.1 = VmpString.wrap field ∧ cStr pair.2 = cStr str := by
  obtain ⟨i, hi⟩ := hv _ List.mem_cons_self
  exact ⟨i, _, hi, rfl, rfl⟩

/-- `field_table->Insert` with the result ignored, of a field that is missing or has a value of the
calls: in the end it has a value of the calls. -/
theorem obeys_fieldInsert_bind {α : Type} {post : Ghost → α → Prop} {rest : Bool → Program Store α}
    {field str : Str} {p : ℕ} {g : Ghost}
    (hw : ∃ i, ∃ pair ∈ (ws i).values, .wrap pair.1 = VmpString.wrap field ∧ cStr pair.2 = str)
    (ht : g.table = some t) (hcopy : g.copy = some (p, str))
    (hclean : VmpString.wrap field ∈ g.clean)
    (hrest : ∀ ok, (rest ok).Obeys (Allowed ws s₀ w) (Move ws s₀ w) post
      (g.drop.write (.wrap field))) :
    (fieldInsert t field p >>= rest).Obeys (Allowed ws s₀ w) (Move ws s₀ w) post g := by
  refine obeys_atomic_bind fun s hs => ⟨_, ?_, hrest _⟩
  obtain ⟨table, htable⟩ := hs.2.live t ht
  cases hget : table.get field with
  | none => exact move_fieldInsert hs.2 hw ht hcopy htable hget
  | some old => exact move_fieldInsert_present hs.2 ht htable hget hclean

theorem obeys_fillFields {values : List KVPair} (hv : ∀ pair ∈ values, ∃ i, pair ∈ (ws i).values)
    {g : Ghost} (ht : g.table = some t) (hcopy : g.copy = none) (hclean : ∀ k, k ∈ g.clean) :
    (fillFields t values).Obeys (Allowed ws s₀ w) (Move ws s₀ w) (fun g' _ => Wrote values g g')
      g := by
  induction values generalizing g with
  | nil => exact wrote_nil g
  | cons pair values ih =>
    obtain ⟨field, str⟩ := pair
    refine obeys_atomic_bind fun s hs => ⟨_, move_copyString hs.2 hcopy str, ?_⟩
    refine obeys_fieldInsert_bind (exists_written hv) ht rfl (hclean _) fun _ => ?_
    have hrest := ih (fun p hp => hv p (List.mem_cons_of_mem _ hp))
      (g := (g.take s.strings.next (cStr str)).drop.write (.wrap field)) ht rfl hclean
    exact hrest.mono fun g' _ h => h.cons rfl

theorem obeys_updateFields {values : List KVPair}
    (hv : ∀ pair ∈ values, ∃ i, pair ∈ (ws i).values) {g : Ghost} (ht : g.table = some t)
    (hcopy : g.copy = none) :
    (updateFields t values).Obeys (Allowed ws s₀ w) (Move ws s₀ w) (fun g' _ => Wrote values g g')
      g := by
  induction values generalizing g with
  | nil => exact wrote_nil g
  | cons pair values ih =>
    obtain ⟨field, str⟩ := pair
    have hw := exists_written hv
    have hrest := fun (g₁ : Ghost) => ih (fun p hp => hv p (List.mem_cons_of_mem _ hp)) (g := g₁)
    refine obeys_atomic_bind fun s hs => ⟨_, move_copyString hs.2 hcopy str, ?_⟩
    refine obeys_atomic_bind_of_eq fun s' hs' => ?_
    obtain ⟨table, htable⟩ := hs'.2.live t ht
    cases hget : table.get field with
    | none =>
      -- the field is missing now; another writer may add it before this one does
      have hresult := congrArg Prod.fst (run_fieldUpdate_of_none htable hget s.strings.next)
      refine ⟨_, none, hresult, move_fieldUpdate_missing hs'.2 ht htable hget, ?_⟩
      refine obeys_fieldInsert_bind hw ht rfl (.inl rfl) fun _ => ?_
      have hloop := hrest
        (((g.take s.strings.next (cStr str)).miss (.wrap field)).drop.write (.wrap field)) ht rfl
      exact hloop.mono fun g' _ h => h.cons rfl
    | some old =>
      have hresult : ((fieldUpdate t field s.strings.next).run s').1 = some old := by
        rw [fieldUpdate, run_onTable htable, StlHashtable.update_fst, hget]
      refine ⟨_, some old, hresult, move_fieldUpdate hs'.2 hw ht rfl htable hget, ?_⟩
      refine obeys_atomic_bind fun s'' hs'' => ⟨_, move_deleteString hs''.2 rfl, ?_⟩
      have hloop := hrest (((g.take s.strings.next (cStr str)).take old
        ((s'.strings.get old).getD [])).write (.wrap field)).drop ht rfl
      exact hloop.mono fun g' _ h => h.cons rfl

/-- The loop of `Insert`; when it ends with `kOK`, no field was named twice. -/
theorem obeys_insertFields {values : List KVPair}
    (hv : ∀ pair ∈ values, ∃ i, pair ∈ (ws i).values) {g : Ghost} (ht : g.table = some t)
    (hcopy : g.copy = none) :
    (insertFields t values).Obeys (Allowed ws s₀ w) (Move ws s₀ w)
      (fun g' st => st = .kOK → Wrote values g g' ∧ (Record.names values).Nodup ∧
        ∀ k ∈ Record.names values, k ∉ g.done) g := by
  induction values generalizing g with
  | nil => exact fun _ => ⟨wrote_nil g, List.nodup_nil, fun k hk => by simp [Record.names] at hk⟩
  | cons pair values ih =>
    obtain ⟨field, str⟩ := pair
    have hw := exists_written hv
    refine obeys_atomic_bind fun s hs => ⟨_, move_copyString hs.2 hcopy str, ?_⟩
    refine obeys_atomic_bind_of_eq fun s' hs' => ?_
    obtain ⟨table, htable⟩ := hs'.2.live t ht
    cases hget : table.get field with
    | none =>
      have hresult : ((fieldInsert t field s.strings.next).run s').1 = true := by
        rw [fieldInsert, run_onTable htable, StlHashtable.insert_fst, hget, Option.isNone_none]
      -- a field that this writer has written is present
      have hnew : VmpString.wrap field ∉ g.done := fun hmem => by
        obtain ⟨t', ht', i, pair, -, -, hcontent⟩ := hs'.2.done _ hmem
        cases ht.symm.trans ht'
        rw [content_eq_none htable hget] at hcontent
        cases hcontent
      have hrest := ih (fun p hp => hv p (List.mem_cons_of_mem _ hp))
        (g := (g.take s.strings.next (cStr str)).drop.write (.wrap field)) ht rfl
      refine ⟨_, true, hresult, move_fieldInsert hs'.2 hw ht rfl htable hget, ?_⟩
      refine hrest.mono fun g' st h hst => ?_
      obtain ⟨hwrote, hnodup, hnotin⟩ := h hst
      refine ⟨hwrote.cons rfl, List.nodup_cons.2 ⟨fun hmem => hnotin _ hmem (.inl rfl), hnodup⟩,
        fun k hk => ?_⟩
      rcases List.mem_cons.1 hk with rfl | hk
      · exact hnew
      · exact fun hmem => hnotin k hk (.inr hmem)
    | some old =>
      have hresult := congrArg Prod.fst (run_fieldInsert_of_some htable hget s.strings.next)
      have hmove : Move ws s₀ w (g.take s.strings.next (cStr str)) s'
          (g.take s.strings.next (cStr str)) ((fieldInsert t field s.strings.next).run s').2 := by
        rw [run_fieldInsert_of_some htable hget]
        exact move_self (fun _ h => h) rfl subset_rfl hs'.2
      refine ⟨_, false, hresult, hmove, ?_⟩
      refine obeys_atomic_bind fun s'' hs'' => ⟨_, move_deleteString hs''.2 rfl, ?_⟩
      exact obeys_pure fun hst => by cases hst

end Ghost

/-- What a call that returns `kOK` has done. -/
def Write.Done (w : Write) (g : Ghost) (st : Status) : Prop :=
  st = .kOK → (∀ k ∈ Record.names w.values, k ∈ g.done) ∧
    (w.kind = .insert → (Record.names w.values).Nodup)

open Ghost in
/-- A call follows the protocol, once it knows its field table. -/
theorem Write.obeys_rest_some (hi : ∃ i, ws i = w) (t : ℕ) :
    (w.rest (some t)).Obeys (Allowed ws s₀ w) (Move ws s₀ w) w.Done
      ⟨some t, false, none, ∅, ∅⟩ := by
  have hv : ∀ pair ∈ w.values, ∃ i, pair ∈ (ws i).values := by
    obtain ⟨i, rfl⟩ := hi
    exact fun pair hpair => ⟨i, hpair⟩
  obtain ⟨kind, table, key, values⟩ := w
  cases kind with
  | insert => exact (obeys_insertFields hv rfl rfl).mono fun g' st h hst =>
      ⟨(h hst).1.2, fun _ => (h hst).2.1⟩
  | update =>
    refine (obeys_updateFields hv rfl rfl).bind fun _ g' h =>
      obeys_pure fun _ => ⟨h.2, fun hk => ?_⟩
    cases hk

open Ghost in
/-- A call follows the protocol when `key_table_` has no field table for it. -/
theorem Write.obeys_rest_none (hi : ∃ i, ws i = w) (hkey : s₀.keyTable.find w.index = none) :
    (w.rest none).Obeys (Allowed ws s₀ w) (Move ws s₀ w) w.Done start := by
  have hv : ∀ pair ∈ w.values, ∃ i, pair ∈ (ws i).values := by
    obtain ⟨i, rfl⟩ := hi
    exact fun pair hpair => ⟨i, hpair⟩
  obtain ⟨kind, table, key, values⟩ := w
  cases kind with
  | insert =>
    refine obeys_atomic_bind fun s hs => ⟨_, move_newFieldHashtable hkey, ?_⟩
    refine obeys_atomic_bind fun s' hs' => ?_
    obtain ⟨isOwn, hmove⟩ := move_keyInsert hs'.2 hi
    refine ⟨_, hmove, ?_⟩
    exact (obeys_insertFields hv rfl rfl).mono fun g' st h hst =>
      ⟨(h hst).1.2, fun _ => (h hst).2.1⟩
  | update =>
    refine obeys_atomic_bind fun s hs => ⟨_, move_newFieldHashtable hkey, ?_⟩
    refine obeys_atomic_bind fun s' hs' => ?_
    obtain ⟨isOwn, hmove⟩ := move_keyInsert hs'.2 hi
    refine ⟨_, hmove, ?_⟩
    refine (obeys_fillFields hv rfl rfl fun k => Set.mem_univ k).bind fun _ g' h =>
      obeys_pure fun _ => ⟨h.2, fun hk => ?_⟩
    cases hk

open Ghost in
/-- **A writer follows the protocol.** -/
theorem Write.obeys_program (hi : ∃ i, ws i = w) :
    w.program.Obeys (Allowed ws s₀ w) (Move ws s₀ w) w.Done start := by
  rw [Write.program_eq]
  refine obeys_atomic_bind_of_eq fun s hs => ?_
  cases hfind : s.keyTable.get (keyIndex w.table w.key) with
  | none =>
    refine ⟨start, none, rfl, move_self (fun _ h => h) rfl subset_rfl hs.2,
      w.obeys_rest_none hi ?_⟩
    -- an entry that was there when the race began would still be there
    rw [Option.eq_none_iff_forall_ne_some]
    intro t ht
    cases hfind.symm.trans (hs.1.find _ t ht)
  | some t =>
    refine ⟨_, some t, rfl, fun P H hP hH h => ?_, w.obeys_rest_some hi t⟩
    have hmove : Move ws s₀ w start s ⟨some t, false, none, ∅, ∅⟩ s := by
      refine move_self (fun _ ht => by cases ht) ?_ subset_rfl
        ⟨fun t' ht' => ?_, fun t' ht' => .inr ?_, fun _ _ hp => (by cases hp),
          fun k hk => hk.elim, fun k hk => hk.elim⟩
      · simp [own, start]
      · cases ht'
        exact h.keyTable_live _ t hfind
      · cases ht'
        exact hfind
    exact hmove P H hP hH h

/-! ### The invariant of a race -/

/-- The memory and the ghost values of all writers, at any time of a race that began in `s₀`. -/
structure RaceInvariant (ws : ι → Write) (s₀ : Store) (g : ι → Ghost) (s : Store) : Prop where
  wf : s.Wf (⋃ i, (g i).own) (⋃ i, (g i).held)
  own : Pairwise fun i j => Disjoint (g i).own (g j).own
  held : Pairwise fun i j => Disjoint (g i).held (g j).held
  evolves : s₀.Evolves ws s
  changes : ∀ t k, s.content t k ≠ s₀.content t k → ∃ i, (g i).table = some t
  facts : ∀ i, (g i).Facts ws s₀ (ws i) s

variable [DecidableEq ι]

theorem RaceInvariant.move {g : ι → Ghost} (h : RaceInvariant ws s₀ g s) {i : ι} {g' : Ghost}
    (hm : Ghost.Move ws s₀ (ws i) (g i) s g' s') :
    RaceInvariant ws s₀ (Function.update g i g') s' := by
  have hown : ∀ j, (Function.update g i g' j).own =
      Function.update (fun j => (g j).own) i g'.own j :=
    fun j => Function.apply_update (fun _ => Ghost.own) g i g' j
  have hheld : ∀ j, (Function.update g i g' j).held =
      Function.update (fun j => (g j).held) i g'.held j :=
    fun j => Function.apply_update (fun _ => Ghost.held) g i g' j
  have hwf := h.wf
  rw [iUnion_own (fun j => (g j).own) i, iUnion_own (fun j => (g j).held) i] at hwf
  have he := hm (othersOwn (fun j => (g j).own) i) (othersOwn (fun j => (g j).held) i)
    (disjoint_othersOwn h.own) (disjoint_othersOwn h.held) hwf
  refine ⟨?_, ?_, ?_, h.evolves.trans he.evolves, fun t k hne => ?_, fun j => ?_⟩
  · simp only [hown, hheld, iUnion_own_update]
    exact he.wf
  · simp only [hown]
    exact pairwise_own_update h.own he.own
  · simp only [hheld]
    exact pairwise_own_update h.held he.held
  · by_cases hsame : s'.content t k = s.content t k
    · obtain ⟨j, hj⟩ := h.changes t k (hsame ▸ hne)
      by_cases hji : j = i
      · subst hji
        exact ⟨j, by simpa only [Function.update_self] using he.table t hj⟩
      · exact ⟨j, by simpa only [Function.update_of_ne hji] using hj⟩
    · exact ⟨i, by simpa only [Function.update_self] using he.changes t k hsame⟩
  · by_cases hji : j = i
    · subst hji
      simpa only [Function.update_self] using he.facts
    · simp only [Function.update_of_ne hji]
      refine (h.facts j).evolve he.evolves fun p str hp => ?_
      rw [he.strings p ⟨j, hji, Ghost.mem_held_of_copy hp⟩]
      exact (h.facts j).copy p str hp

omit [DecidableEq ι] in
theorem raceInvariant_start (h : s₀.Wf ∅ ∅) :
    RaceInvariant ws s₀ (fun _ => .start) s₀ where
  wf := by simpa [Ghost.own, Ghost.held, Ghost.start] using h
  own i j _ := by simp [Ghost.own, Ghost.start]
  held i j _ := by simp [Ghost.held, Ghost.start]
  evolves := .refl ws s₀
  changes t k hne := absurd rfl hne
  facts i := Ghost.facts_start ws s₀ (ws i) s₀

/-- **The invariant holds throughout a race.** -/
theorem race_follows (h : s₀.Wf ∅ ∅) {c : Config ι Store Status}
    (hsteps : Config.Steps (race ws s₀) c) :
    c.Follows (fun i => Ghost.Allowed ws s₀ (ws i)) (fun i => Ghost.Move ws s₀ (ws i))
      (fun i => (ws i).Done) (RaceInvariant ws s₀) :=
  Config.invariant_of_obeys (fun _ _ i hinv => ⟨hinv.evolves, hinv.facts i⟩)
    (fun _ _ _ _ _ hinv hm => hinv.move hm)
    ⟨fun _ => .start, raceInvariant_start h, fun i => (ws i).obeys_program ⟨i, rfl⟩⟩ hsteps

/-- The invariant when all writers have returned, with what each of them has done. -/
theorem race_returns (h : s₀.Wf ∅ ∅) {c : Config ι Store Status}
    (hsteps : Config.Steps (race ws s₀) c) {r : ι → Status} (hr : c.Returns r) :
    ∃ g, RaceInvariant ws s₀ g c.state ∧ ∀ i, (ws i).Done (g i) (r i) :=
  (race_follows h hsteps).returns hr

end YcsbC
