import Mathlib.Data.Finset.Image
import YcsbC.Core.Transactions
import YcsbC.Db.Schema

/-!
# A benchmark run on the in-memory store

One client loads an empty `LockStlDB` and then runs transactions on it. At any time the store has a
record for exactly the keys of the numbers that `key_generator_` has handed out, every record has
the fields that `BuildValues` names, and a key that a transaction asks for is among those loaded.
Numbers that `BuildKeyName` folds to the same key share a record: the insertion of the second one
fails.

## Main definitions

* `Properties.recordKeys`, `Properties.schema`: the records and the fields that are expected.
* `Stage`: the state of a run after some numbers have been handed out.

## Main results

* `Stage.run_doInsert`, `Stage.run_doTransaction`: one step of a run.
* `stage_load`, `Stage.transactions`: whole runs.
-/

namespace YcsbC

open Bench Client CoreWorkload HashtableDB

/-! ### The records of a run -/

namespace Properties

/-- The number that the key of the `i`-th number handed out shows. -/
def sequenceNumber (p : Properties) (i : ℕ) : UInt64 :=
  keyNumber p.orderedInserts (UInt64.ofInt p.recordCount)
    (UInt64.ofInt p.insertStart + UInt64.ofNat i)

/-- The place in `key_table_` of the `i`-th number that is handed out. -/
def recordIndex (p : Properties) (i : ℕ) : VmpString :=
  .wrap (keyIndex p.tableName (p.sequenceKey i))

/-- The places of the first `drawn` numbers. -/
def recordKeys (p : Properties) (drawn : ℕ) : Finset VmpString :=
  (Finset.range drawn).image p.recordIndex

/-- The fields that `BuildValues` names. -/
def schema (p : Properties) : Finset VmpString :=
  (Finset.range p.fieldCount.toNat).image fun j => .wrap (fieldName j)

/-- What `Insert` returns for the `i`-th number, after the ones before it. -/
def insertStatus (p : Properties) (i : ℕ) : Status :=
  if p.recordIndex i ∈ p.recordKeys i ∧ 1 ≤ p.fieldCount then .kErrorConflict else .kOK

variable {p : Properties} {n drawn : ℕ}

theorem recordKeys_succ (p : Properties) (drawn : ℕ) :
    p.recordKeys (drawn + 1) = insert (p.recordIndex drawn) (p.recordKeys drawn) := by
  rw [recordKeys, Finset.range_add_one, Finset.image_insert, recordKeys]

theorem recordKeys_mono (p : Properties) (h : n ≤ drawn) : p.recordKeys n ⊆ p.recordKeys drawn :=
  Finset.image_subset_image (Finset.range_subset_range.2 h)

theorem mem_schema {f : VmpString} :
    f ∈ p.schema ↔ ∃ j < p.fieldCount.toNat, f = .wrap (fieldName j) := by
  simp only [schema, Finset.mem_image, Finset.mem_range, eq_comm]

/-- The values of `BuildValues` name exactly the fields of the schema, and each once. -/
theorem names_eq_schema {values : List KVPair}
    (hvalues : values.map Prod.fst = (List.range p.fieldCount.toNat).map fieldName) :
    (∀ f, f ∈ Record.names values ↔ f ∈ p.schema) ∧ (Record.names values).Nodup := by
  have hnames : Record.names values =
      (List.range p.fieldCount.toNat).map fun j => .wrap (fieldName j) := by
    rw [Record.names, ← Function.comp_def VmpString.wrap Prod.fst, ← List.map_map, hvalues,
      List.map_map, Function.comp_def]
  rw [hnames]
  constructor
  · intro f
    simp only [List.mem_map, List.mem_range, mem_schema, eq_comm]
  · refine List.nodup_range.map fun i j hij => fieldName_injective ?_
    exact (VmpString.wrap_inj_of_nulFree (nulFree_fieldName i) (nulFree_fieldName j)).1 hij

/-- A key that a transaction can ask for has been loaded. -/
theorem mem_recordKeys_of_le_last {w : CoreWorkload} (hw : Configured p w) (hp : p.InRange)
    (hn : p.recordCount = n) (hpos : 1 ≤ n) (hstart : p.insertStart = 0) (hdrawn : n ≤ drawn)
    {keyNum : UInt64} (hle : keyNum ≤ w.insertKeySequence.last) :
    .wrap (keyIndex p.tableName (p.keyName keyNum)) ∈ p.recordKeys drawn := by
  have hlt := toNat_lt_of_le_last hw hp hn hpos hle
  rw [← sequenceKey_toNat hstart]
  exact Finset.mem_image_of_mem _ (Finset.mem_range.2 (by omega))

end Properties

/-! ### One step of a run -/

/-- The state of a run after `drawn` numbers have been handed out. Fields that are not in the
schema may have been added when they are in `allowed`, as all fields are that can be drawn. -/
structure Stage (p : Properties) (allowed : Set VmpString) (drawn : ℕ) (b : Bench Store) :
    Prop where
  configured : Configured p b.workload
  counter : b.workload.keyGenerator.counter = UInt64.ofInt p.insertStart + UInt64.ofNat drawn
  chosen : ∀ n, .wrap (fieldName (b.workload.draws.fieldChooser.get n).toNat) ∈ allowed
  records : b.db.HasRecords p.schema allowed (p.recordKeys drawn)

namespace Stage

variable {p : Properties} {allowed : Set VmpString} {drawn : ℕ} {b : Bench Store}

theorem init (draws : Draws) (hdraws : ∀ n, .wrap (fieldName (draws.fieldChooser.get n).toNat) ∈
    allowed) : Stage p allowed 0 ⟨.init p draws, Store.empty⟩ where
  configured := configured_init p draws
  counter := (UInt64.add_zero _).symm
  chosen := hdraws
  records := Store.hasRecords_empty _ _

theorem used (h : Stage p allowed drawn b) {w : CoreWorkload} (hw : b.workload.Used w) :
    Stage p allowed drawn { b with workload := w } := by
  obtain ⟨draws, rfl, -, m, hm⟩ := hw
  refine ⟨h.configured.drawn ⟨draws, rfl⟩, h.counter, fun n => ?_, h.records⟩
  show VmpString.wrap (fieldName (draws.fieldChooser.get n).toNat) ∈ allowed
  rw [hm, Stream'.get_drop]
  exact h.chosen _

theorem buildKeyName (h : Stage p allowed drawn b) :
    b.workload.buildKeyName b.workload.keyGenerator.counter = p.sequenceKey drawn := by
  rw [h.configured.buildKeyName, h.counter, Properties.sequenceKey]

/-- `Insert` under the key of the next number: it adds a record, or it fails and changes
nothing. -/
theorem run_insert (h : Stage p allowed drawn b) (hsub : ∀ f ∈ p.schema, f ∈ allowed)
    {values : List KVPair}
    (hvalues : values.map Prod.fst = (List.range p.fieldCount.toNat).map fieldName)
    {w : CoreWorkload} (hw : b.workload.numberTaken.Used w) :
    ∃ s', (insert p.tableName (p.sequenceKey drawn) values).run b.db =
        (p.insertStatus drawn, s') ∧ Stage p allowed (drawn + 1) ⟨w, s'⟩ ∧
      (p.recordIndex drawn ∈ p.recordKeys drawn → b.db.Same s') := by
  have hstage : ∀ s', s'.HasRecords p.schema allowed (p.recordKeys (drawn + 1)) →
      Stage p allowed (drawn + 1) ⟨w, s'⟩ := by
    intro s' hs'
    have hnext : Stage p allowed (drawn + 1) ⟨b.workload.numberTaken, s'⟩ := by
      refine ⟨h.configured.numberTaken, ?_, h.chosen, hs'⟩
      show b.workload.keyGenerator.counter + 1 = _
      rw [h.counter, UInt64.ofNat_add, UInt64.add_assoc]
      rfl
    exact hnext.used hw
  obtain ⟨hnames, hnodup⟩ := Properties.names_eq_schema hvalues
  rw [Properties.recordKeys_succ] at hstage
  by_cases hkey : p.recordIndex drawn ∈ p.recordKeys drawn
  · obtain ⟨s', hrun, hsame, hs'⟩ := h.records.run_insert_present hkey hnames
    rw [Finset.insert_eq_of_mem hkey] at hstage
    refine ⟨s', ?_, hstage s' hs', fun _ => hsame⟩
    have hempty : values = [] ↔ ¬ 1 ≤ p.fieldCount := by
      rw [← List.map_eq_nil_iff (f := Prod.fst), hvalues, List.map_eq_nil_iff,
        List.range_eq_nil]
      omega
    rw [hrun, Properties.insertStatus]
    by_cases hfields : 1 ≤ p.fieldCount
    · rw [if_neg fun hc => hempty.1 hc hfields, if_pos ⟨hkey, hfields⟩]
    · rw [if_pos (hempty.2 hfields), if_neg fun hc => hfields hc.2]
  · obtain ⟨s', hrun, hs'⟩ := h.records.run_insert_new hkey hnames hnodup hsub
    refine ⟨s', ?_, hstage s' hs', fun hc => absurd hc hkey⟩
    rw [hrun, Properties.insertStatus, if_neg fun hc => hkey hc.1]

theorem run_transactionInsert (h : Stage p allowed drawn b) (hsub : ∀ f ∈ p.schema, f ∈ allowed)
    (order : IterationOrder VmpString) :
    ∃ b', (transactionInsert (LockStlDB order)).run b = (p.insertStatus drawn, b') ∧
      Stage p allowed (drawn + 1) b' ∧
      (p.recordIndex drawn ∈ p.recordKeys drawn → b.db.Same b'.db) := by
  obtain ⟨s', hrun, hstage, hsame⟩ := h.run_insert hsub
    h.configured.numberTaken.names_buildValues (used_buildValues _)
  refine ⟨⟨_, s'⟩, ?_, hstage, hsame⟩
  simp only [transactionInsert, nextTable, Program.run_bind, run_onWorkload, run_onDB,
    Program.run_atomic, run_nextSequenceKey, h.buildKeyName, h.configured.tableName, LockStlDB,
    hrun]

theorem run_doInsert (h : Stage p allowed drawn b) (hsub : ∀ f ∈ p.schema, f ∈ allowed)
    (order : IterationOrder VmpString) :
    ((doInsert (LockStlDB order)).run b).1 = (p.insertStatus drawn == .kOK) ∧
      Stage p allowed (drawn + 1) (inserted (LockStlDB order) b) := by
  have hused := used_buildValues b.workload.numberTaken
  have htable := (h.configured.numberTaken.drawn hused.drawn).tableName
  obtain ⟨s', hrun, hstage, -⟩ := h.run_insert hsub h.configured.numberTaken.names_buildValues hused
  have hdo : (doInsert (LockStlDB order)).run b = (p.insertStatus drawn == .kOK,
      ⟨(buildValues.run b.workload.numberTaken).2, s'⟩) := by
    simp only [doInsert, nextTable, Program.run_bind, run_onWorkload, run_onDB,
      Program.run_atomic, Program.run_pure, run_nextSequenceKey, h.buildKeyName, htable, LockStlDB,
      hrun]
  rw [inserted, hdo]
  exact ⟨rfl, hstage⟩

end Stage

/-! ### Transactions that need a key -/

/-- The rejection loop accepts one of its next `fuel` draws. -/
def CoreWorkload.Accepts (w : CoreWorkload) (fuel : ℕ) : Prop :=
  ∃ i < fuel, w.draws.keyChooser.get w.insertKeySequence.last i ≤ w.insertKeySequence.last

namespace Stage

variable {p : Properties} {allowed : Set VmpString} {drawn n : ℕ} {b : Bench Store}

/-- The transactions write fields that are allowed. -/
theorem names_updateValues (h : Stage p allowed drawn b) (hsub : ∀ f ∈ p.schema, f ∈ allowed) :
    ∀ f ∈ Record.names (updateValues.run b.workload).1, f ∈ allowed := by
  rw [run_updateValues]
  intro f hf
  split_ifs at hf
  · exact hsub f (((Properties.names_eq_schema h.configured.names_buildValues).1 f).1 hf)
  · rw [Record.names, ← Function.comp_def VmpString.wrap Prod.fst, ← List.map_map,
      (run_buildUpdate b.workload).1, List.map_singleton, List.mem_singleton] at hf
    rw [hf]
    exact h.chosen 0

section Keyed

variable (hp : p.InRange) (hn : p.recordCount = n) (hpos : 1 ≤ n) (hstart : p.insertStart = 0)
  (hdrawn : n ≤ drawn)

include hp hn hpos hstart hdrawn

/-- A transaction that needs a key gets one that has been loaded, unless all its draws are
rejected. -/
theorem run_withTransactionKey (h : Stage p allowed drawn b) (fuel : ℕ)
    {body : Str → Str → Program (Bench Store) Status}
    (hbody : ∀ b key, Stage p allowed drawn b →
      .wrap (keyIndex p.tableName key) ∈ p.recordKeys drawn →
      ∃ b', (body p.tableName key).run b = (.kOK, b') ∧ Stage p allowed drawn b') :
    ∃ status b', (withTransactionKey fuel body).run b = (status, b') ∧
      Stage p allowed drawn b' ∧
      (status = some .kOK ∨ status = none ∧ ¬ b.workload.Accepts fuel) := by
  obtain ⟨w, hused, ⟨hrun, hreject⟩ | ⟨keyNum, hle, hrun⟩⟩ :=
    Client.run_withTransactionKey fuel body b
  · exact ⟨none, _, hrun, h.used hused, .inr ⟨rfl, fun ⟨i, hi, haccept⟩ => hreject i hi haccept⟩⟩
  · rw [h.configured.tableName, h.configured.buildKeyName] at hrun
    obtain ⟨b', hb', hstage⟩ := hbody _ _ (h.used hused)
      (Properties.mem_recordKeys_of_le_last h.configured hp hn hpos hstart hdrawn hle)
    rw [hb'] at hrun
    exact ⟨_, b', hrun, hstage, .inl rfl⟩

theorem run_transaction (h : Stage p allowed drawn b) (hsub : ∀ f ∈ p.schema, f ∈ allowed)
    (order : IterationOrder VmpString) (fuel : ℕ) {op : Operation} (hop : op ≠ .INSERT) :
    ∃ status b', (transaction (LockStlDB order) fuel op).run b = (status, b') ∧
      Stage p allowed drawn b' ∧
      (status = some .kOK ∨ status = none ∧ ¬ b.workload.Accepts fuel) := by
  cases op with
  | INSERT => exact absurd rfl hop
  | READ =>
    refine h.run_withTransactionKey hp hn hpos hstart hdrawn fuel fun b key hb hkey => ?_
    obtain ⟨result, hread⟩ := hb.records.run_read order hkey (requestedFields.run b.workload).1
    simp only [Program.run_bind, run_onWorkload, run_onDB, Program.run_pure, LockStlDB, hread]
    exact ⟨_, rfl, hb.used (used_requestedFields b.workload)⟩
  | UPDATE =>
    refine h.run_withTransactionKey hp hn hpos hstart hdrawn fuel fun b key hb hkey => ?_
    obtain ⟨s', hupdate, hs'⟩ := hb.records.run_update hkey (hb.names_updateValues hsub)
    simp only [Program.run_bind, run_onWorkload, run_onDB, LockStlDB, hupdate]
    exact ⟨_, rfl, { hb.used (used_updateValues b.workload) with records := hs' }⟩
  | SCAN =>
    refine h.run_withTransactionKey hp hn hpos hstart hdrawn fuel fun b key hb hkey => ?_
    simp only [Program.run_bind, run_onWorkload, run_onDB, Program.run_pure, LockStlDB,
      run_scan hb.records.wf]
    exact ⟨_, rfl, hb.used ((used_nextScanLength b.workload).trans (used_requestedFields _))⟩
  | READMODIFYWRITE =>
    refine h.run_withTransactionKey hp hn hpos hstart hdrawn fuel fun b key hb hkey => ?_
    have hread := hb.used (used_requestedFields b.workload)
    obtain ⟨result, hrun⟩ := hb.records.run_read order hkey (requestedFields.run b.workload).1
    obtain ⟨s', hupdate, hs'⟩ := hread.records.run_update hkey (hread.names_updateValues hsub)
    simp only [Program.run_bind, run_onWorkload, run_onDB, LockStlDB, hrun, hupdate]
    exact ⟨_, rfl, { hread.used (used_updateValues _) with records := hs' }⟩

end Keyed

theorem operationChosen (h : Stage p allowed drawn b) :
    Stage p allowed drawn { b with workload := b.workload.operationChosen } :=
  ⟨h.configured.drawn ⟨_, rfl⟩, h.counter, h.chosen, h.records⟩

theorem run_doTransaction_insert (h : Stage p allowed drawn b)
    (hsub : ∀ f ∈ p.schema, f ∈ allowed) (order : IterationOrder VmpString) (fuel : ℕ)
    (hop : b.workload.draws.opChooser.head = .INSERT) :
    ∃ b', (doTransaction (LockStlDB order) fuel).run b =
        (some (p.insertStatus drawn == .kOK), b') ∧ Stage p allowed (drawn + 1) b' ∧
      (p.recordIndex drawn ∈ p.recordKeys drawn → b.db.Same b'.db) := by
  obtain ⟨b', hrun, hstage, hsame⟩ := h.operationChosen.run_transactionInsert hsub order
  refine ⟨b', ?_, hstage, hsame⟩
  rw [run_doTransaction, hop, transaction, Program.run_map, hrun]
  rfl

theorem run_doTransaction (h : Stage p allowed drawn b) (hp : p.InRange) (hn : p.recordCount = n)
    (hpos : 1 ≤ n) (hstart : p.insertStart = 0) (hdrawn : n ≤ drawn)
    (hsub : ∀ f ∈ p.schema, f ∈ allowed) (order : IterationOrder VmpString) (fuel : ℕ)
    (hop : b.workload.draws.opChooser.head ≠ .INSERT) :
    ∃ ok b', (doTransaction (LockStlDB order) fuel).run b = (ok, b') ∧
      Stage p allowed drawn b' ∧
      (ok = some true ∨ ok = none ∧ ¬ b.workload.Accepts fuel) := by
  obtain ⟨status, b', hrun, hstage, hstatus⟩ :=
    h.operationChosen.run_transaction hp hn hpos hstart hdrawn hsub order fuel hop
  refine ⟨status.map (· == .kOK), b', ?_, hstage, ?_⟩
  · rw [YcsbC.run_doTransaction, hrun]
  · obtain rfl | ⟨rfl, hreject⟩ := hstatus
    · exact .inl rfl
    · exact .inr ⟨rfl, hreject⟩

/-! ### Whole runs -/

theorem iterate_inserted (h : Stage p allowed drawn b) (hsub : ∀ f ∈ p.schema, f ∈ allowed)
    (order : IterationOrder VmpString) (i : ℕ) :
    Stage p allowed (drawn + i) ((inserted (LockStlDB order))^[i] b) := by
  induction i with
  | zero => exact h
  | succ i ih =>
    rw [Function.iterate_succ_apply']
    exact (ih.run_doInsert hsub order).2

theorem transactions (h : Stage p allowed drawn b) (hp : p.InRange) (hn : p.recordCount = n)
    (hpos : 1 ≤ n) (hstart : p.insertStart = 0) (hdrawn : n ≤ drawn)
    (hsub : ∀ f ∈ p.schema, f ∈ allowed) {order : IterationOrder VmpString}
    {ops : List Operation} {b' : Bench Store} (hops : Transactions (LockStlDB order) b ops b') :
    Stage p allowed (drawn + ops.count .INSERT) b' := by
  induction hops with
  | nil => exact h
  | @snoc ops b₁ b₂ _ fuel ok hrun ih =>
    rw [List.count_append, List.count_singleton, ← add_assoc]
    by_cases hop : b₁.workload.draws.opChooser.head = .INSERT
    · obtain ⟨b', hrun', hstage, -⟩ := ih.run_doTransaction_insert hsub order fuel hop
      rw [hrun] at hrun'
      obtain rfl : b₂ = b' := congrArg Prod.snd hrun'
      rwa [hop, if_pos (beq_self_eq_true _)]
    · obtain ⟨ok', b', hrun', hstage, -⟩ := ih.run_doTransaction hp hn hpos hstart
        (by omega) hsub order fuel hop
      rw [hrun] at hrun'
      obtain rfl : b₂ = b' := congrArg Prod.snd hrun'
      rwa [if_neg (by simpa using hop)]

end Stage

section Load

variable {p : Properties} {allowed : Set VmpString} {n : ℕ} {order : IterationOrder VmpString}
  {draws : Draws} {b : Bench Store} {r : Fin 1 → Option ℕ}

/-- The load phase of a single client hands out all numbers below the record count. -/
theorem opsPerThread_one (hn : p.recordCount = n) : opsPerThread p.recordCount 1 = n := by
  have h := mul_opsPerThread (one_dvd n)
  rwa [one_mul, ← hn] at h

/-- The state after the load phase. -/
theorem stage_load (hn : p.recordCount = n) (hsub : ∀ f ∈ p.schema, f ∈ allowed)
    (hdraws : ∀ i, .wrap (fieldName (draws.fieldChooser.get i).toNat) ∈ allowed)
    (hsteps : Config.Steps (loadClients (LockStlDB order) p draws 1 Store.empty)
      ⟨b, fun i => pure (r i)⟩) : Stage p allowed n b := by
  obtain ⟨hb, -⟩ := load_alone hsteps
  have h := (Stage.init (p := p) draws hdraws).iterate_inserted hsub order n
  rw [Nat.zero_add] at h
  rw [hb, opsPerThread_one hn]
  exact h

end Load

/-! ### The schema -/

/-- **Every record keeps the full schema**, after the load phase and after any transactions. No
loaded record is lost. An `INSERT` returns, and when it fails the store is unchanged. Every other
transaction returns true as soon as it leaves the rejection loop, and it leaves the loop with the
first draw that is accepted. -/
theorem records_keep_schema (order : IterationOrder VmpString) {p : Properties} (hp : p.InRange)
    {n : ℕ} (hn : p.recordCount = n) (hpos : 1 ≤ n) (hstart : p.insertStart = 0)
    {draws : Draws} (hdraws : ∀ i, (draws.fieldChooser.get i).toNat < p.fieldCount.toNat)
    {b : Bench Store} {r : Fin 1 → Option ℕ}
    (hsteps : Config.Steps (loadClients (LockStlDB order) p draws 1 Store.empty)
      ⟨b, fun i => pure (r i)⟩)
    {ops : List Operation} {b' : Bench Store} (hops : Transactions (LockStlDB order) b ops b') :
    (∀ k record, b'.db.record k = some record →
        ∀ f, (record f).isSome ↔ ∃ j < p.fieldCount.toNat, f = .wrap (fieldName j)) ∧
      (∀ i < n, (b.db.record (p.recordIndex i)).isSome) ∧
      (∀ k, (b.db.record k).isSome → (b'.db.record k).isSome) ∧
      ∀ fuel,
        (b'.workload.draws.opChooser.head = .INSERT →
          ∃ ok b'', (doTransaction (LockStlDB order) fuel).run b' = (some ok, b'') ∧
            (ok = false → b'.db.Same b''.db)) ∧
        (b'.workload.draws.opChooser.head ≠ .INSERT →
          ((doTransaction (LockStlDB order) fuel).run b').1 = some true ∨
            ((doTransaction (LockStlDB order) fuel).run b').1 = none ∧
              ¬ b'.workload.Accepts fuel) := by
  have hsub : ∀ f ∈ p.schema, f ∈ (p.schema : Set VmpString) := fun _ hf => hf
  have hloaded : Stage p p.schema n b := stage_load hn hsub
    (fun i => Properties.mem_schema.2 ⟨_, hdraws i, rfl⟩) hsteps
  have hstage := hloaded.transactions hp hn hpos hstart le_rfl hsub hops
  refine ⟨fun k record hrecord f => ?_, fun i hi => ?_, fun k hk => ?_, fun fuel =>
    ⟨fun hop => ?_, fun hop => ?_⟩⟩
  · rw [← Properties.mem_schema]
    exact ⟨hstage.records.allowed k record hrecord f, hstage.records.complete k record hrecord f⟩
  · exact (hloaded.records.found _).2 (Finset.mem_image_of_mem _ (Finset.mem_range.2 hi))
  · exact (hstage.records.found k).2 (p.recordKeys_mono (Nat.le_add_right _ _)
      ((hloaded.records.found k).1 hk))
  · obtain ⟨b'', hrun, -, hsame⟩ := hstage.run_doTransaction_insert hsub order fuel hop
    refine ⟨_, b'', hrun, fun hfail => hsame ?_⟩
    -- an insertion fails only when its number has the key of an earlier one
    by_contra hfresh
    rw [Properties.insertStatus, if_neg fun hc => hfresh hc.1] at hfail
    cases hfail
  · obtain ⟨ok, b'', hrun, -, hok⟩ :=
      hstage.run_doTransaction hp hn hpos hstart (Nat.le_add_right _ _) hsub order fuel hop
    rwa [hrun]

/-- Seven hashed records with two fields; an update writes one of them. -/
def hashedProperties : Properties :=
  { exampleProperties 7 0 false with fieldCount := 2, writeAllFields := false }

/-- The state after the load phase of these settings. -/
def hashedLoaded : Bench Store :=
  (inserted (LockStlDB (.newestFirst _)))^[7]
    ⟨.init hashedProperties updateInsertDraws, Store.empty⟩

/-- The state after a transaction. -/
def transacted (b : Bench Store) : Bench Store :=
  ((doTransaction (LockStlDB (.newestFirst _)) 1).run b).2

theorem transactions_hashedLoaded :
    Transactions (LockStlDB (.newestFirst _)) hashedLoaded [.UPDATE, .INSERT]
      (transacted (transacted hashedLoaded)) := by
  have hupdate : Transactions (LockStlDB (.newestFirst _)) hashedLoaded [.UPDATE]
      (transacted hashedLoaded) :=
    Transactions.nil.snoc_of_isSome 1 (by decide +kernel) (by decide +kernel)
  exact hupdate.snoc_of_isSome 1 (by decide +kernel) (by decide +kernel)

/-- The seven numbers fold to five keys; an `UPDATE` writes one field, and an `INSERT` adds the
record of a sixth key. -/
theorem records_keep_schema_hashed :
    ∃ (r : Fin 1 → Option ℕ) (b : Bench Store),
      Config.Steps (loadClients (LockStlDB (.newestFirst _)) hashedProperties updateInsertDraws 1
        Store.empty) ⟨hashedLoaded, fun i => pure (r i)⟩ ∧
      Transactions (LockStlDB (.newestFirst _)) hashedLoaded [.UPDATE, .INSERT] b ∧
      (∀ k record, b.db.record k = some record →
        ∀ f, (record f).isSome ↔ ∃ j < 2, f = .wrap (fieldName j)) ∧
      (∀ i < 7, (hashedLoaded.db.record (hashedProperties.recordIndex i)).isSome) ∧
      (∀ k, (hashedLoaded.db.record k).isSome → (b.db.record k).isSome) ∧
      hashedLoaded.db.record (hashedProperties.recordIndex 7) = none ∧
      (b.db.record (hashedProperties.recordIndex 7)).isSome := by
  obtain ⟨b, r, hsteps⟩ := Config.exists_returns
    (loadClients (LockStlDB (.newestFirst _)) hashedProperties updateInsertDraws 1 Store.empty)
  obtain ⟨hb, -⟩ := load_alone hsteps
  rw [show b = hashedLoaded from hb] at hsteps
  have hdraws : ∀ i, (updateInsertDraws.fieldChooser.get i).toNat <
      hashedProperties.fieldCount.toNat := fun _ => Nat.zero_lt_two
  obtain ⟨hschema, hloaded, hkept, -⟩ := records_keep_schema _ ⟨by decide, by decide, by decide⟩
    (n := 7) rfl (by decide) rfl hdraws hsteps transactions_hashedLoaded
  exact ⟨r, _, hsteps, transactions_hashedLoaded, hschema, hloaded, hkept, by decide +kernel,
    by decide +kernel⟩

/-- A uniform chooser over the record count is accepted at once. -/
theorem accepts_uniform {w : CoreWorkload} {keys : Stream' UInt64}
    (hw : w.draws.keyChooser = .uniform keys) (hkeys : keys.get 0 ≤ w.insertKeySequence.last)
    {fuel : ℕ} (hfuel : 1 ≤ fuel) : w.Accepts fuel := by
  refine ⟨0, hfuel, ?_⟩
  rw [hw]
  exact hkeys

/-- So is the chooser for `latest`, whose draws stay below `Last()`. -/
theorem accepts_latest {w : CoreWorkload} {back : Stream' UInt64}
    (hw : w.draws.keyChooser = .latest back) (hback : back.get 0 ≤ w.insertKeySequence.last)
    {fuel : ℕ} (hfuel : 1 ≤ fuel) : w.Accepts fuel := by
  refine ⟨0, hfuel, ?_⟩
  rw [hw, UInt64.le_iff_toNat_le]
  show (w.insertKeySequence.last - back.get 0).toNat ≤ _
  rw [UInt64.toNat_sub_of_le _ _ hback]
  exact Nat.sub_le _ _

end YcsbC
