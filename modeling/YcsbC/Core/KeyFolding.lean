import YcsbC.Core.Benchmark

/-!
# Numbers that share a key

`BuildKeyName` folds every number into the range below the record count: an ordered number by its
remainder, a hashed one by the remainder of its hash. Two numbers with the same remainder have the
same key, so the second insertion adds no record. How many records a load phase stores, and whether
an `INSERT` adds one, is a matter of these remainders only.

## Main definitions

* `Properties.Fresh`: no earlier number has the key of a number.

## Main results

* `load_stores_distinct_numbers`: what the load phase stores.
* `transactionInsert_adds_iff_fresh`: what an `INSERT` adds.
-/

namespace YcsbC

open Bench Client CoreWorkload HashtableDB

namespace Properties

/-- No number that has been handed out before the `i`-th one has its key. -/
def Fresh (p : Properties) (i : ℕ) : Prop := ∀ j < i, p.sequenceNumber j ≠ p.sequenceNumber i

/-- The numbers that the keys of the first `drawn` insertions show. -/
def keyNumbers (p : Properties) (drawn : ℕ) : Finset UInt64 :=
  (Finset.range drawn).image p.sequenceNumber

variable {p : Properties} {n i j : ℕ}

theorem fresh_iff : p.Fresh i ↔ p.sequenceNumber i ∉ p.keyNumbers i := by
  simp [Fresh, keyNumbers]

/-- Numbers have the same record iff they fold to the same remainder. -/
theorem recordIndex_inj (htable : NulFree p.tableName) :
    p.recordIndex i = p.recordIndex j ↔ p.sequenceNumber i = p.sequenceNumber j := by
  have hfree : ∀ i, NulFree (keyIndex p.tableName (p.sequenceKey i)) := fun i =>
    nulFree_append.2 ⟨htable, nulFree_userKey _⟩
  rw [recordIndex, recordIndex, VmpString.wrap_inj_of_nulFree (hfree i) (hfree j)]
  constructor
  · exact fun h => userKey_injective (List.append_cancel_left h)
  · exact fun h => congrArg (fun x => keyIndex p.tableName (userKey x)) h

theorem recordIndex_mem_iff (htable : NulFree p.tableName) :
    p.recordIndex i ∈ p.recordKeys i ↔ ¬ p.Fresh i := by
  simp only [recordKeys, Finset.mem_image, Finset.mem_range, recordIndex_inj htable, Fresh,
    not_forall, not_not, exists_prop]

theorem keyNumbers_succ (p : Properties) (drawn : ℕ) :
    p.keyNumbers (drawn + 1) = insert (p.sequenceNumber drawn) (p.keyNumbers drawn) := by
  rw [keyNumbers, Finset.range_add_one, Finset.image_insert, keyNumbers]

theorem card_recordKeys (htable : NulFree p.tableName) (drawn : ℕ) :
    (p.recordKeys drawn).card = (p.keyNumbers drawn).card := by
  induction drawn with
  | zero => rfl
  | succ drawn ih =>
    rw [recordKeys_succ, keyNumbers_succ]
    by_cases hfresh : p.Fresh drawn
    · rw [Finset.card_insert_of_notMem (fresh_iff.1 hfresh),
        Finset.card_insert_of_notMem fun h => (recordIndex_mem_iff htable).1 h hfresh, ih]
    · have hnumber : p.sequenceNumber drawn ∈ p.keyNumbers drawn := by
        rwa [fresh_iff, not_not] at hfresh
      rw [Finset.insert_eq_of_mem hnumber,
        Finset.insert_eq_of_mem ((recordIndex_mem_iff htable).2 hfresh), ih]

theorem insertStatus_eq (htable : NulFree p.tableName) :
    (p.Fresh i → p.insertStatus i = .kOK) ∧
      (¬ p.Fresh i → p.insertStatus i = if p.fieldCount < 1 then .kOK else .kErrorConflict) := by
  constructor
  · exact fun hfresh => if_neg fun hc => (recordIndex_mem_iff htable).1 hc.1 hfresh
  · intro hfresh
    have hmem := (recordIndex_mem_iff htable).2 hfresh
    rw [insertStatus]
    by_cases hfields : p.fieldCount < 1
    · rw [if_pos hfields, if_neg fun hc => by omega]
    · rw [if_neg hfields, if_pos ⟨hmem, by omega⟩]

theorem card_keyNumbers_succ (htable : NulFree p.tableName) (hfields : 1 ≤ p.fieldCount)
    (drawn : ℕ) : (p.keyNumbers (drawn + 1)).card =
      (p.keyNumbers drawn).card + (p.insertStatus drawn == .kOK).toNat := by
  obtain ⟨hfresh, hold⟩ := p.insertStatus_eq (i := drawn) htable
  rw [keyNumbers_succ]
  by_cases h : p.Fresh drawn
  · rw [Finset.card_insert_of_notMem (fresh_iff.1 h), hfresh h]
    rfl
  · have hnumber : p.sequenceNumber drawn ∈ p.keyNumbers drawn := by
      rwa [fresh_iff, not_not] at h
    rw [Finset.insert_eq_of_mem hnumber, hold h, if_neg (by omega)]
    rfl

theorem toNat_sequenceNumber_lt (hp : p.InRange) (hn : p.recordCount = n) (hpos : 1 ≤ n) (i : ℕ) :
    (p.sequenceNumber i).toNat < n := by
  rw [sequenceNumber, keyNumber, UInt64.toNat_mod, toNat_recordCount hp hn]
  exact Nat.mod_lt _ hpos

theorem card_keyNumbers_le (hp : p.InRange) (hn : p.recordCount = n) (hpos : 1 ≤ n) (drawn : ℕ) :
    (p.keyNumbers drawn).card ≤ n := by
  have hsub : (p.keyNumbers drawn).image UInt64.toNat ⊆ Finset.range n := by
    intro x hx
    simp only [keyNumbers, Finset.mem_image] at hx
    obtain ⟨_, ⟨i, -, rfl⟩, rfl⟩ := hx
    exact Finset.mem_range.2 (toNat_sequenceNumber_lt hp hn hpos i)
  rw [← Finset.card_image_of_injective _ fun _ _ => UInt64.toNat_inj.1]
  exact (Finset.card_le_card hsub).trans_eq (Finset.card_range n)

/-- In key order the numbers below the record count are their own remainders. -/
theorem toNat_sequenceNumber_ordered (hp : p.InRange) (hn : p.recordCount = n)
    (hstart : p.insertStart = 0) (hordered : p.orderedInserts = true) (hi : i < n) :
    (p.sequenceNumber i).toNat = i := by
  have hrange := hp.recordCount.2
  have hsum : UInt64.ofInt 0 + UInt64.ofNat i = UInt64.ofNat i := UInt64.zero_add _
  rw [sequenceNumber, keyNumber, hordered, if_pos rfl, hstart, hsum, UInt64.toNat_mod,
    toNat_recordCount hp hn, UInt64.toNat_ofNat', Nat.mod_eq_of_lt (by omega : i < 2 ^ 64),
    Nat.mod_eq_of_lt hi]

/-- So each of them is fresh, and no later number is. -/
theorem fresh_ordered (hp : p.InRange) (hn : p.recordCount = n) (hpos : 1 ≤ n)
    (hstart : p.insertStart = 0) (hordered : p.orderedInserts = true) : p.Fresh i ↔ i < n := by
  constructor
  · intro hfresh
    by_contra hi
    have hlt := toNat_sequenceNumber_lt hp hn hpos i
    refine hfresh (p.sequenceNumber i).toNat (by omega) (UInt64.toNat_inj.1 ?_)
    exact toNat_sequenceNumber_ordered hp hn hstart hordered hlt
  · intro hi j hj heq
    rw [← UInt64.toNat_inj, toNat_sequenceNumber_ordered hp hn hstart hordered hi,
      toNat_sequenceNumber_ordered hp hn hstart hordered (by omega)] at heq
    omega

end Properties

/-! ### The load phase -/

section Load

variable {p : Properties} {n : ℕ} {order : IterationOrder VmpString} {draws : Draws}
  {b : Bench Store} {r : Fin 1 → Option ℕ}

theorem loadInsert_eq (order : IterationOrder VmpString) (p : Properties) (draws : Draws) (i : ℕ) :
    ((doInsert (LockStlDB order)).run
      ((inserted (LockStlDB order))^[i] ⟨init p draws, Store.empty⟩)).1 =
        (p.insertStatus i == .kOK) := by
  have hinit : Stage p Set.univ 0 ⟨init p draws, Store.empty⟩ := .init draws fun _ => trivial
  have h := hinit.iterate_inserted (fun _ _ => trivial) order i
  rw [Nat.zero_add] at h
  exact (h.run_doInsert (fun _ _ => trivial) order).1

/-- The load phase stores a record for each remainder. -/
theorem size_after_load (hn : p.recordCount = n) (htable : NulFree p.tableName)
    (hsteps : Config.Steps (loadClients (LockStlDB order) p draws 1 Store.empty)
      ⟨b, fun i => pure (r i)⟩) : b.db.keyTable.size = (p.keyNumbers n).card := by
  have hstage : Stage p Set.univ n b :=
    stage_load hn (fun _ _ => trivial) (fun _ => trivial) hsteps
  rw [hstage.records.size, Properties.card_recordKeys htable]

theorem reported_after_load (hn : p.recordCount = n) (htable : NulFree p.tableName)
    (hfields : 1 ≤ p.fieldCount)
    (hsteps : Config.Steps (loadClients (LockStlDB order) p draws 1 Store.empty)
      ⟨b, fun i => pure (r i)⟩) : r 0 = some (p.keyNumbers n).card := by
  obtain ⟨-, hr⟩ := load_alone hsteps
  have hsum : ∀ drawn, ∑ i ∈ Finset.range drawn, (p.insertStatus i == .kOK).toNat =
      (p.keyNumbers drawn).card := by
    intro drawn
    induction drawn with
    | zero => rfl
    | succ drawn ih =>
      rw [Finset.sum_range_succ, ih, Properties.card_keyNumbers_succ htable hfields]
  rw [hr, opsPerThread_one hn, ← hsum]
  exact congrArg some (Finset.sum_congr rfl fun i _ =>
    congrArg Bool.toNat (loadInsert_eq order p draws i))

/-- **What the load phase stores**: one record for each remainder of the numbers, in key order one
for each number. A `DoInsert` fails iff an earlier number has the same remainder, and the client
reports as many successes as there are remainders. -/
theorem load_stores_distinct_numbers (hp : p.InRange) (hn : p.recordCount = n) (hpos : 1 ≤ n)
    (hstart : p.insertStart = 0) (htable : NulFree p.tableName)
    (hsteps : Config.Steps (loadClients (LockStlDB order) p draws 1 Store.empty)
      ⟨b, fun i => pure (r i)⟩) :
    b.db.keyTable.size = (p.keyNumbers n).card ∧
      (∀ i, ((doInsert (LockStlDB order)).run
          ((inserted (LockStlDB order))^[i] ⟨init p draws, Store.empty⟩)).1 = true ↔
        p.Fresh i ∨ p.fieldCount < 1) ∧
      (1 ≤ p.fieldCount → r 0 = some (p.keyNumbers n).card) ∧
      (p.orderedInserts = true → (p.keyNumbers n).card = n ∧ ∀ i < n, p.Fresh i) := by
  refine ⟨size_after_load hn htable hsteps, fun i => ?_,
    fun hfields => reported_after_load hn htable hfields hsteps, fun hordered => ⟨?_, ?_⟩⟩
  · rw [loadInsert_eq, beq_iff_eq]
    obtain ⟨hfresh, hold⟩ := p.insertStatus_eq (i := i) htable
    by_cases h : p.Fresh i
    · exact iff_of_true (hfresh h) (.inl h)
    · rw [hold h, or_iff_right h]
      split_ifs with hfields
      · exact iff_of_true rfl hfields
      · exact iff_of_false (fun hc => by cases hc) hfields
  · rw [Properties.keyNumbers, Finset.card_image_of_injOn, Finset.card_range]
    intro i hi j hj hij
    rw [← UInt64.toNat_inj] at hij
    rwa [Properties.toNat_sequenceNumber_ordered hp hn hstart hordered (Finset.mem_range.1 hi),
      Properties.toNat_sequenceNumber_ordered hp hn hstart hordered (Finset.mem_range.1 hj)] at hij
  · exact fun i hi => (Properties.fresh_ordered hp hn hpos hstart hordered).2 hi

end Load

/-- Three records are loaded in key order. -/
theorem load_stores_three_ordered :
    ∃ (b : Bench Store) (r : Fin 1 → Option ℕ),
      Config.Steps (loadClients (LockStlDB (.newestFirst _)) (exampleProperties 3 0 true) default
        1 Store.empty) ⟨b, fun i => pure (r i)⟩ ∧
      b.db.keyTable.size = 3 ∧ r 0 = some 3 := by
  obtain ⟨b, r, hsteps⟩ := Config.exists_returns
    (loadClients (LockStlDB (.newestFirst _)) (exampleProperties 3 0 true) default 1 Store.empty)
  obtain ⟨hsize, -, hreported, -⟩ := load_stores_distinct_numbers ⟨by decide, by decide, by decide⟩
    (n := 3) rfl (by decide) rfl (by decide) hsteps
  exact ⟨b, r, hsteps, hsize, hreported (by decide)⟩

/-- With hashed keys and a record count of 3, the numbers 0 and 2 have the same key: two records
are stored and the third `DoInsert` fails. -/
theorem load_three_hashed_stores_two :
    ∃ (b : Bench Store) (r : Fin 1 → Option ℕ),
      Config.Steps (loadClients (LockStlDB (.newestFirst _)) (exampleProperties 3 0 false) default
        1 Store.empty) ⟨b, fun i => pure (r i)⟩ ∧
      (exampleProperties 3 0 false).sequenceKey 0 = (exampleProperties 3 0 false).sequenceKey 2 ∧
      b.db.keyTable.size = 2 ∧ r 0 = some 2 := by
  obtain ⟨b, r, hsteps⟩ := Config.exists_returns
    (loadClients (LockStlDB (.newestFirst _)) (exampleProperties 3 0 false) default 1 Store.empty)
  have hfree : NulFree (exampleProperties 3 0 false).tableName := by decide
  have hcard : ((exampleProperties 3 0 false).keyNumbers 3).card = 2 := by decide
  refine ⟨b, r, hsteps, by decide, ?_, ?_⟩
  · rw [size_after_load (n := 3) rfl hfree hsteps, hcard]
  · rw [reported_after_load (n := 3) rfl hfree (by decide) hsteps, hcard]

/-! ### The transactions -/

section Transactions

variable {p : Properties} {n : ℕ} {order : IterationOrder VmpString} {draws : Draws}
  {b b' : Bench Store} {r : Fin 1 → Option ℕ} {ops : List Operation}

theorem stage_transactions (hp : p.InRange) (hn : p.recordCount = n) (hpos : 1 ≤ n)
    (hstart : p.insertStart = 0)
    (hsteps : Config.Steps (loadClients (LockStlDB order) p draws 1 Store.empty)
      ⟨b, fun i => pure (r i)⟩) (hops : Transactions (LockStlDB order) b ops b') :
    Stage p Set.univ (n + ops.count .INSERT) b' :=
  (stage_load hn (fun _ _ => trivial) (fun _ => trivial) hsteps).transactions hp hn hpos hstart
    le_rfl (fun _ _ => trivial) hops

/-- `TransactionInsert` at any time of the transaction phase: it returns the status that its
number has, and it adds a record iff the number is fresh. -/
theorem transactionInsert_spec (hp : p.InRange) (hn : p.recordCount = n) (hpos : 1 ≤ n)
    (hstart : p.insertStart = 0) (htable : NulFree p.tableName)
    (hsteps : Config.Steps (loadClients (LockStlDB order) p draws 1 Store.empty)
      ⟨b, fun i => pure (r i)⟩) (hops : Transactions (LockStlDB order) b ops b') :
    ∃ b'', (transactionInsert (LockStlDB order)).run b' =
        (p.insertStatus (n + ops.count .INSERT), b'') ∧
      (p.Fresh (n + ops.count .INSERT) → b''.db.keyTable.size = b'.db.keyTable.size + 1) ∧
      (¬ p.Fresh (n + ops.count .INSERT) → b'.db.Same b''.db) := by
  have hstage := stage_transactions hp hn hpos hstart hsteps hops
  obtain ⟨b'', hrun, hstage', hsame⟩ := hstage.run_transactionInsert (fun _ _ => trivial) order
  refine ⟨b'', hrun, fun hfresh => ?_, fun hold =>
    hsame ((Properties.recordIndex_mem_iff htable).2 hold)⟩
  rw [hstage'.records.size, hstage.records.size, Properties.recordKeys_succ,
    Finset.card_insert_of_notMem fun h => (Properties.recordIndex_mem_iff htable).1 h hfresh]

/-- **What an `INSERT` adds.** With `n` loaded numbers and some insertions before it, it takes the
next number. It returns `kOK` and adds a record iff no earlier number has the same remainder;
otherwise it reports a conflict (when there are fields) and changes nothing. In key order no number
is fresh any more, and in no order are there ever more than `n` records. -/
theorem transactionInsert_adds_iff_fresh (hp : p.InRange) (hn : p.recordCount = n) (hpos : 1 ≤ n)
    (hstart : p.insertStart = 0) (htable : NulFree p.tableName)
    (hsteps : Config.Steps (loadClients (LockStlDB order) p draws 1 Store.empty)
      ⟨b, fun i => pure (r i)⟩) (hops : Transactions (LockStlDB order) b ops b') :
    let taken := n + ops.count .INSERT
    let t := (transactionInsert (LockStlDB order)).run b'
    (nextSequenceKey.run b'.workload).1 = userKey (p.sequenceNumber taken) ∧
      (p.Fresh taken → t.1 = .kOK ∧ t.2.db.keyTable.size = b'.db.keyTable.size + 1) ∧
      (¬ p.Fresh taken → t.1 = (if p.fieldCount < 1 then .kOK else .kErrorConflict) ∧
        b'.db.Same t.2.db) ∧
      (p.orderedInserts = true → ¬ p.Fresh taken) ∧ b'.db.keyTable.size ≤ n := by
  have hstage := stage_transactions hp hn hpos hstart hsteps hops
  obtain ⟨b'', hrun, hadds, hsame⟩ :=
    transactionInsert_spec hp hn hpos hstart htable hsteps hops
  obtain ⟨hfresh, hold⟩ := p.insertStatus_eq (i := n + ops.count .INSERT) htable
  simp only [hrun]
  refine ⟨hstage.buildKeyName, fun h => ⟨hfresh h, hadds h⟩, fun h => ⟨hold h, hsame h⟩,
    fun hordered h => ?_, ?_⟩
  · have hlt := (Properties.fresh_ordered hp hn hpos hstart hordered).1 h
    omega
  · rw [hstage.records.size, Properties.card_recordKeys htable]
    exact Properties.card_keyNumbers_le hp hn hpos _

end Transactions

/-- With hashed keys and a record count of 7, the number 7 has a key of its own. -/
theorem transactionInsert_adds_seven_hashed :
    ∃ (b : Bench Store) (r : Fin 1 → Option ℕ),
      Config.Steps (loadClients (LockStlDB (.newestFirst _)) (exampleProperties 7 0 false) default
        1 Store.empty) ⟨b, fun i => pure (r i)⟩ ∧
      let t := (transactionInsert (LockStlDB (.newestFirst _))).run b
      t.1 = .kOK ∧ t.2.db.keyTable.size = b.db.keyTable.size + 1 := by
  obtain ⟨b, r, hsteps⟩ := Config.exists_returns
    (loadClients (LockStlDB (.newestFirst _)) (exampleProperties 7 0 false) default 1 Store.empty)
  have hfresh : (exampleProperties 7 0 false).Fresh 7 := by
    rw [Properties.fresh_iff]
    decide
  exact ⟨b, r, hsteps, (transactionInsert_adds_iff_fresh ⟨by decide, by decide, by decide⟩ (n := 7)
    rfl (by decide) rfl (by decide) hsteps .nil).2.1 hfresh⟩

/-- One record is loaded in key order. The first `INSERT` takes the number 1, whose key is that of
the number 0: it fails, and there is still one record. -/
theorem transactionInsert_adds_nothing :
    ∃ (b : Bench Store) (r : Fin 1 → Option ℕ),
      Config.Steps (loadClients (LockStlDB (.newestFirst _)) (exampleProperties 1 0 true) default
        1 Store.empty) ⟨b, fun i => pure (r i)⟩ ∧
      let t := (transactionInsert (LockStlDB (.newestFirst _))).run b
      t.1 = .kErrorConflict ∧ t.2.db.keyTable.size = 1 := by
  obtain ⟨b, r, hsteps⟩ := Config.exists_returns
    (loadClients (LockStlDB (.newestFirst _)) (exampleProperties 1 0 true) default 1 Store.empty)
  have hfree : NulFree (exampleProperties 1 0 true).tableName := by decide
  have hp : (exampleProperties 1 0 true).InRange := ⟨by decide, by decide, by decide⟩
  obtain ⟨b'', hrun, -, hsame⟩ :=
    transactionInsert_spec hp (n := 1) rfl le_rfl rfl hfree hsteps .nil
  refine ⟨b, r, hsteps, ?_⟩
  rw [hrun]
  have hold : ¬ (exampleProperties 1 0 true).Fresh 1 := fun h => h 0 Nat.one_pos (by decide)
  refine ⟨(Properties.insertStatus_eq hfree).2 hold, ?_⟩
  rw [(hsame hold).keyTable, size_after_load (n := 1) rfl hfree hsteps]
  decide

end YcsbC
