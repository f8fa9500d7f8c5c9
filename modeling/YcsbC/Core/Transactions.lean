import Mathlib.Data.Stream.Init
import Mathlib.Logic.Function.Iterate
import YcsbC.Core.Load
import YcsbC.Foundation.Words

/-!
# The transaction phase

After the load phase the clients run transactions. This file says what a transaction does to the
workload, whatever the back end: the transactions that need a key draw it and some values, and an
`INSERT` takes the next number of `key_generator_`. The counter `insert_key_sequence_`, whose
`Last()` bounds the keys of the transactions, is never advanced, so the two counters drift apart.

## Main definitions

* `CoreWorkload.Used`: a workload after some draws that leave the chosen operations alone.
* `Transactions`: a run of transactions.
* `CoreWorkload.InStep`: the two counters agree.

## Main results

* `Client.run_withTransactionKey`: the transactions that need a key.
* `counter_transactions`: `key_generator_` after a run of transactions.
* `inStep_transactions_iff`: when the two counters agree.
-/

namespace YcsbC

open Bench Client

/-! ### Draws of the transactions -/

namespace CoreWorkload

/-- The workload after draws of keys, fields and values: the settings, the counters and the
operations to come are the same, and the field chooser has moved on. -/
def Used (w w' : CoreWorkload) : Prop :=
  ∃ draws, w' = { w with draws := draws } ∧ draws.opChooser = w.draws.opChooser ∧
    ∃ n, draws.fieldChooser = w.draws.fieldChooser.drop n

variable {w w' w'' : CoreWorkload}

theorem Used.refl (w : CoreWorkload) : w.Used w := ⟨w.draws, rfl, rfl, 0, rfl⟩

theorem Used.trans (h : w.Used w') (h' : w'.Used w'') : w.Used w'' := by
  obtain ⟨draws, rfl, hop, m, hm⟩ := h
  obtain ⟨draws', rfl, hop', n, hn⟩ := h'
  refine ⟨draws', rfl, hop'.trans hop, m + n, ?_⟩
  rw [hn, hm, Stream'.drop_drop]

theorem Used.drawn (h : w.Used w') : w.Drawn w' := by
  obtain ⟨draws, hw, -⟩ := h
  exact ⟨draws, hw⟩

theorem used_nextTransactionKey (fuel : ℕ) (w : CoreWorkload) :
    w.Used ((nextTransactionKey fuel).run w).2 := by
  obtain ⟨chooser, hw⟩ := (run_nextTransactionKey fuel w).1
  exact ⟨_, hw, rfl, 0, rfl⟩

theorem used_nextScanLength (w : CoreWorkload) : w.Used (nextScanLength.run w).2 :=
  ⟨_, rfl, rfl, 0, rfl⟩

theorem used_buildValues (w : CoreWorkload) : w.Used (buildValues.run w).2 := by
  obtain ⟨-, lens, chars, hw⟩ := run_buildValues w
  exact ⟨_, hw, rfl, 0, rfl⟩

theorem used_buildUpdate (w : CoreWorkload) : w.Used (buildUpdate.run w).2 := by
  obtain ⟨-, lens, chars, hw⟩ := run_buildUpdate w
  exact ⟨_, hw, rfl, 1, rfl⟩

theorem run_requestedFields (w : CoreWorkload) :
    requestedFields.run w = if w.readAllFields then (none, w) else
      (some ["field".toList ++ fieldName w.draws.fieldChooser.head.toNat],
        { w with draws := { w.draws with fieldChooser := w.draws.fieldChooser.tail } }) := by
  have hround : requestedFields.run w = (if w.readAllFields then pure none
      else nextFieldName >>= fun name => pure (some ["field".toList ++ name])).run w := rfl
  rw [hround]
  split_ifs <;> rfl

theorem run_updateValues (w : CoreWorkload) :
    updateValues.run w = if w.writeAllFields then buildValues.run w else buildUpdate.run w := by
  have hround : updateValues.run w =
      (if w.writeAllFields then buildValues else buildUpdate).run w := rfl
  rw [hround]
  split_ifs <;> rfl

theorem used_requestedFields (w : CoreWorkload) : w.Used (requestedFields.run w).2 := by
  rw [run_requestedFields]
  split_ifs
  · exact .refl w
  · exact ⟨_, rfl, rfl, 1, rfl⟩

theorem used_updateValues (w : CoreWorkload) : w.Used (updateValues.run w).2 := by
  rw [run_updateValues]
  split_ifs
  · exact used_buildValues w
  · exact used_buildUpdate w

end CoreWorkload

open CoreWorkload

variable {σ : Type} {db : DB σ}

/-! ### One transaction -/

namespace Client

/-- A transaction that needs a key either does not leave the rejection loop, and then it has drawn
keys only, or it goes on with the key of a number up to `Last()`. It leaves the loop as soon as such
a number is drawn. -/
theorem run_withTransactionKey (fuel : ℕ) (body : Str → Str → Program (Bench σ) Status)
    (b : Bench σ) :
    ∃ w, b.workload.Used w ∧
      (((withTransactionKey fuel body).run b = (none, { b with workload := w }) ∧
          ∀ i < fuel, ¬ b.workload.draws.keyChooser.get b.workload.insertKeySequence.last i ≤
            b.workload.insertKeySequence.last) ∨
        ∃ keyNum, keyNum ≤ b.workload.insertKeySequence.last ∧
          (withTransactionKey fuel body).run b =
            (some ((body b.workload.tableName (b.workload.buildKeyName keyNum)).run
              { b with workload := w }).1,
             ((body b.workload.tableName (b.workload.buildKeyName keyNum)).run
              { b with workload := w }).2)) := by
  obtain ⟨-, hkey, hends⟩ := run_nextTransactionKey fuel b.workload
  refine ⟨_, used_nextTransactionKey fuel b.workload, ?_⟩
  simp only [withTransactionKey, nextTable, Program.run_bind, run_onWorkload, Program.run_atomic]
  cases hrun : ((nextTransactionKey fuel).run b.workload).1 with
  | none =>
    refine .inl ⟨rfl, fun i hi haccept => ?_⟩
    have hsome := hends i hi haccept
    rw [hrun] at hsome
    cases hsome
  | some key =>
    obtain ⟨keyNum, hle, rfl⟩ := hkey key hrun
    exact .inr ⟨keyNum, hle, by rw [Program.run_map]⟩

/-- Every transaction but an `INSERT` only draws from the workload. -/
theorem used_transaction (db : DB σ) (fuel : ℕ) {op : Operation} (hop : op ≠ .INSERT)
    (b : Bench σ) :
    b.workload.Used ((transaction db fuel op).run b).2.workload := by
  have hkeyed : ∀ body : Str → Str → Program (Bench σ) Status,
      (∀ table key (b : Bench σ), b.workload.Used ((body table key).run b).2.workload) →
      b.workload.Used ((withTransactionKey fuel body).run b).2.workload := by
    intro body hbody
    obtain ⟨w, hused, ⟨hrun, -⟩ | ⟨keyNum, -, hrun⟩⟩ := run_withTransactionKey fuel body b
    · rw [hrun]
      exact hused
    · rw [hrun]
      exact hused.trans (hbody _ _ { b with workload := w })
  cases op with
  | INSERT => exact absurd rfl hop
  | READ =>
    refine hkeyed _ fun table key b => ?_
    simp only [Program.run_bind, run_onWorkload, run_onDB, Program.run_pure]
    exact used_requestedFields b.workload
  | UPDATE =>
    refine hkeyed _ fun table key b => ?_
    simp only [Program.run_bind, run_onWorkload, run_onDB]
    exact used_updateValues b.workload
  | SCAN =>
    refine hkeyed _ fun table key b => ?_
    simp only [Program.run_bind, run_onWorkload, run_onDB, Program.run_pure]
    exact (used_nextScanLength b.workload).trans (used_requestedFields _)
  | READMODIFYWRITE =>
    refine hkeyed _ fun table key b => ?_
    simp only [Program.run_bind, run_onWorkload, run_onDB]
    exact (used_requestedFields b.workload).trans (used_updateValues _)

theorem used_transactionInsert (db : DB σ) (b : Bench σ) :
    b.workload.numberTaken.Used ((transactionInsert db).run b).2.workload := by
  simp only [transactionInsert, nextTable, Program.run_bind, run_onWorkload, run_onDB,
    Program.run_atomic, run_nextSequenceKey]
  exact used_buildValues _

end Client

/-! ### One loader thread -/

/-- The state after one `DoInsert`. -/
def inserted (db : DB σ) (b : Bench σ) : Bench σ := ((doInsert db).run b).2

/-- A `DoInsert` takes the next number of `key_generator_`. -/
theorem used_inserted (db : DB σ) (b : Bench σ) :
    b.workload.numberTaken.Used (inserted db b).workload := by
  simp only [inserted, doInsert, nextTable, Program.run_bind, run_onWorkload, run_onDB,
    Program.run_atomic, Program.run_pure, run_nextSequenceKey]
  exact used_buildValues _

/-- The loop of a loader thread that is alone: it counts the insertions that succeed. -/
theorem run_operations_loading (fuel numOps : ℕ) (b : Bench σ) :
    (operations db fuel true numOps).run b =
      (some (∑ i ∈ Finset.range numOps, ((doInsert db).run ((inserted db)^[i] b)).1.toNat),
        (inserted db)^[numOps] b) := by
  induction numOps generalizing b with
  | zero => rfl
  | succ numOps ih =>
    rw [operations_loading, Program.run_bind, Program.run_bind, Program.run_pure]
    have hrest := ih (inserted db b)
    rw [inserted] at hrest
    rw [hrest, Finset.sum_range_succ', Option.map_some, add_comm]
    rfl

/-- The load phase with one thread. -/
theorem load_alone {p : Properties} {draws : Draws} {s : σ} {b : Bench σ} {r : Fin 1 → Option ℕ}
    (hsteps : Config.Steps (loadClients db p draws 1 s) ⟨b, fun i => pure (r i)⟩) :
    let b₀ : Bench σ := ⟨init p draws, ((db.init true).run s).2⟩
    let n := opsPerThread p.recordCount 1
    b = (inserted db)^[n] b₀ ∧
      r 0 = some (∑ i ∈ Finset.range n, ((doInsert db).run ((inserted db)^[i] b₀)).1.toNat) := by
  have hrun : (r 0, b) = (delegateClient db 0 (opsPerThread p.recordCount 1) true).run
      ⟨init p draws, s⟩ := Config.run_of_steps hsteps 0
  rw [delegateClient, Program.run_bind, run_onDB, run_operations_loading] at hrun
  obtain ⟨hr, hb⟩ := Prod.mk.inj hrun
  exact ⟨hb, hr⟩

/-! ### Runs of transactions -/

/-- The workload after the choice of an operation. -/
def CoreWorkload.operationChosen (w : CoreWorkload) : CoreWorkload :=
  { w with draws := { w.draws with opChooser := w.draws.opChooser.tail } }

theorem run_doTransaction (db : DB σ) (fuel : ℕ) (b : Bench σ) :
    (doTransaction db fuel).run b =
      (((transaction db fuel b.workload.draws.opChooser.head).run
          { b with workload := b.workload.operationChosen }).1.map (· == .kOK),
        ((transaction db fuel b.workload.draws.opChooser.head).run
          { b with workload := b.workload.operationChosen }).2) := by
  simp only [doTransaction, nextOperation, Program.run_bind, run_onWorkload, Program.run_atomic,
    Program.run_pure, operationChosen]

/-- A run of transactions from `b`, one after the other, each of which has returned; `ops` are their
operations. -/
inductive Transactions (db : DB σ) (b : Bench σ) : List Operation → Bench σ → Prop
  | nil : Transactions db b [] b
  | snoc {ops : List Operation} {b' b'' : Bench σ} (h : Transactions db b ops b') (fuel : ℕ)
      (ok : Bool) (hrun : (doTransaction db fuel).run b' = (some ok, b'')) :
      Transactions db b (ops ++ [b'.workload.draws.opChooser.head]) b''

/-- **The counters after a run of transactions.** Each `INSERT` advances `key_generator_` by one;
`insert_key_sequence_` and the settings never change. -/
theorem counter_transactions {p : Properties} {b b' : Bench σ} {ops : List Operation}
    (hb : Configured p b.workload) (h : Transactions db b ops b') :
    Configured p b'.workload ∧ b'.workload.keyGenerator.counter =
      b.workload.keyGenerator.counter + UInt64.ofNat (ops.count .INSERT) := by
  induction h with
  | nil => exact ⟨hb, (UInt64.add_zero _).symm⟩
  | @snoc ops b₁ b₂ h fuel ok hrun ih =>
    obtain ⟨hconf, hcounter⟩ := ih
    rw [run_doTransaction] at hrun
    have hb₂ := congrArg (fun r => r.2.workload) hrun
    dsimp only at hb₂
    have hchosen : Configured p b₁.workload.operationChosen := hconf.drawn ⟨_, rfl⟩
    rw [List.count_append, UInt64.ofNat_add, ← UInt64.add_assoc, ← hcounter]
    by_cases hop : b₁.workload.draws.opChooser.head = .INSERT
    · rw [hop] at hb₂ ⊢
      have hused := used_transactionInsert db
        { b₁ with workload := b₁.workload.operationChosen }
      simp only [transaction, Program.run_map] at hb₂
      rw [hb₂] at hused
      refine ⟨hchosen.numberTaken.drawn hused.drawn, ?_⟩
      obtain ⟨draws, hw, -⟩ := hused
      rw [hw]
      rfl
    · have hused := used_transaction db fuel hop
        { b₁ with workload := b₁.workload.operationChosen }
      rw [hb₂] at hused
      refine ⟨hchosen.drawn hused.drawn, ?_⟩
      obtain ⟨draws, hw, -⟩ := hused
      rw [hw, List.count_singleton]
      simp [hop, operationChosen]

/-! ### The two counters -/

/-- `insert_key_sequence_.Last()` is the last number that `NextSequenceKey` has handed out. -/
def CoreWorkload.InStep (w : CoreWorkload) : Prop :=
  w.insertKeySequence.last = w.keyGenerator.last

/-- After `taken` numbers, the counters agree iff the last one taken is that of the last record. -/
theorem inStep_iff {p : Properties} {w : CoreWorkload} {taken : ℕ} (hw : Configured p w)
    (hcounter : w.keyGenerator.counter = UInt64.ofInt p.insertStart + UInt64.ofNat taken) :
    w.InStep ↔ p.insertStart + taken ≡ p.recordCount [ZMOD 2 ^ 64] := by
  have hsum : UInt64.ofInt p.insertStart + UInt64.ofNat taken =
      UInt64.ofInt (p.insertStart + taken) := by
    rw [UInt64.ofInt_add, ofInt_natCast]
  rw [InStep, hw.last, CounterGenerator.last, hcounter, hsum, UInt64.sub_left_inj, eq_comm,
    ofInt_inj_iff]

/-- **When the two counters agree.** The transactions leave `insert_key_sequence_` where `Init` has
put it, so its `Last()` is the last number that `NextSequenceKey` has handed out iff the load
phase and the insertions have together handed out all numbers up to the record count. -/
theorem inStep_transactions_iff (db : DB σ) (p : Properties) (draws : Draws) {numThreads : ℕ}
    (s : σ) {b : Bench σ} {r : Fin numThreads → Option ℕ}
    (hsteps : Config.Steps (loadClients db p draws numThreads s) ⟨b, fun i => pure (r i)⟩)
    {ops : List Operation} {b' : Bench σ} (h : Transactions db b ops b') :
    b'.workload.InStep ↔
      p.insertStart + (numThreads * opsPerThread p.recordCount numThreads + ops.count .INSERT : ℕ)
        ≡ p.recordCount [ZMOD 2 ^ 64] := by
  obtain ⟨hconf, hcounter, -⟩ := load_returns db.logs_nothing draws rfl hsteps
  obtain ⟨hconf', hcounter'⟩ := counter_transactions hconf h
  refine inStep_iff hconf' ?_
  rw [hcounter', hcounter, UInt64.ofNat_add, UInt64.add_assoc]

theorem Transactions.snoc_of_isSome {b b' : Bench σ} {ops : List Operation} {op : Operation}
    (h : Transactions db b ops b') (fuel : ℕ) (hop : b'.workload.draws.opChooser.head = op)
    (hsome : ((doTransaction db fuel).run b').1.isSome) :
    Transactions db b (ops ++ [op]) ((doTransaction db fuel).run b').2 := by
  obtain ⟨ok, hok⟩ := Option.isSome_iff_exists.1 hsome
  rw [← hop]
  exact h.snoc fuel ok (Prod.ext hok rfl)

theorem exists_insert_transaction (db : DB σ) {b : Bench σ}
    (hop : b.workload.draws.opChooser.head = .INSERT) : ∃ b', Transactions db b [.INSERT] b' := by
  refine ⟨_, Transactions.nil.snoc_of_isSome 0 hop ?_⟩
  rw [run_doTransaction, hop, transaction, Program.run_map]
  rfl

/-- Draws of a workload that only inserts. -/
def insertDraws : Draws := { (default : Draws) with opChooser := .const .INSERT }

/-- Draws of a workload that updates once and then only inserts. -/
def updateInsertDraws : Draws :=
  { (default : Draws) with opChooser := .cons .UPDATE (.const .INSERT) }

/-- A loader thread with one record. -/
def loadOne : Program (Bench Store) (Option ℕ) :=
  delegateClient (LockStlDB (.newestFirst _)) 0 1 true

/-- Two loader threads have shared three records, and each has loaded one. -/
def twoLoaded : Bench Store :=
  (loadOne.run (loadOne.run
    ⟨init (exampleProperties 3 0 true) updateInsertDraws, Store.empty⟩).2).2

/-- Two threads load two of three records, and after an `UPDATE` an `INSERT` takes the number of
the third: the counters agree. -/
theorem inStep_transactions_iff_three_records :
    ∃ (r : Fin 2 → Option ℕ) (b : Bench Store),
      Config.Steps (loadClients (LockStlDB (.newestFirst _)) (exampleProperties 3 0 true)
        updateInsertDraws 2 Store.empty) ⟨twoLoaded, fun i => pure (r i)⟩ ∧
      Transactions (LockStlDB (.newestFirst _)) twoLoaded [.UPDATE, .INSERT] b ∧
      b.workload.InStep := by
  obtain ⟨r, hsteps⟩ := Config.steps_run_two
    (⟨init (exampleProperties 3 0 true) updateInsertDraws, Store.empty⟩ : Bench Store)
    fun _ => loadOne
  have hupdate : Transactions (LockStlDB (.newestFirst _)) twoLoaded [.UPDATE] _ :=
    .snoc .nil 1 true rfl
  have hinsert : Transactions (LockStlDB (.newestFirst _)) twoLoaded [.UPDATE, .INSERT] _ :=
    hupdate.snoc 0 true rfl
  exact ⟨r, _, hsteps, hinsert,
    (inStep_transactions_iff _ (exampleProperties 3 0 true) _ _ hsteps hinsert).2 (by decide)⟩

/-- One record is loaded, and then one is inserted by a transaction: `Last()` is still 0, and the
number that has been handed out last is 1. -/
theorem insert_out_of_step :
    ∃ (b : Bench Store) (r : Fin 1 → Option ℕ) (b' : Bench Store),
      Config.Steps (loadClients (LockStlDB (.newestFirst _)) (exampleProperties 1 0 true)
        insertDraws 1 Store.empty) ⟨b, fun i => pure (r i)⟩ ∧
      Transactions (LockStlDB (.newestFirst _)) b [.INSERT] b' ∧ ¬ b'.workload.InStep := by
  obtain ⟨b, r, hsteps⟩ := Config.exists_returns
    (loadClients (LockStlDB (.newestFirst _)) (exampleProperties 1 0 true) insertDraws 1
      Store.empty)
  obtain ⟨hb, -⟩ := load_alone hsteps
  obtain ⟨draws, hw, hop, -⟩ := used_inserted (LockStlDB (.newestFirst _))
    ⟨init (exampleProperties 1 0 true) insertDraws, Store.empty⟩
  obtain ⟨b', h⟩ := exists_insert_transaction (LockStlDB (.newestFirst _)) (b := b) (by
    have hdraws : b.workload.draws = draws := by
      rw [hb]
      exact congrArg CoreWorkload.draws hw
    rw [hdraws, hop]
    rfl)
  obtain ⟨hconf, hcounter, -⟩ := load_returns (DB.logs_nothing _) insertDraws rfl hsteps
  obtain ⟨hconf', hcounter'⟩ := counter_transactions hconf h
  refine ⟨b, r, b', hsteps, h, ?_⟩
  have htaken : b'.workload.keyGenerator.counter =
      UInt64.ofInt (exampleProperties 1 0 true).insertStart + UInt64.ofNat 2 := by
    rw [hcounter', hcounter]
    rfl
  rw [inStep_iff hconf' htaken]
  decide

end YcsbC
