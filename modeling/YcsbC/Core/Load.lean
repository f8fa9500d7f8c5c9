import Mathlib.Algebra.BigOperators.Fin
import Mathlib.Algebra.Order.Group.Multiset
import Mathlib.Tactic.Abel
import YcsbC.Core.Client
import YcsbC.Db.HashtableDB

/-!
# The load phase

`main` divides the records among the loader threads, and every thread draws its key numbers from
the one `key_generator_` that they share. In any order of their atomic steps, the numbers that are
handed out are consecutive, and each number that has been handed out is either in the hands of its
thread or has been passed to `Insert`.

## Main definitions

* `DB.recording`: a back end with a record of the keys that are passed to `Insert`.
* `Loader`, `LoadInvariant`: what a loader thread has left to do, and the shared state.

## Main results

* `obeys_delegateClient`: a loader thread follows the protocol.
* `load_returns`: the state after the load phase.
-/

namespace YcsbC

open Bench Client CoreWorkload Program

variable {σ : Type}

/-! ### Recording the keys -/

/-- The state of a back end with the record of the keys. -/
def recordedPart (σ : Type) : Program.Part (σ × List Str) σ where
  get s := s.1
  set s s' := (s, s'.2)
  get_set _ _ := rfl
  set_set _ _ _ := rfl
  set_get _ := rfl

/-- A back end that records the keys that are passed to `Insert`. -/
def DB.recording (db : DB σ) : DB (σ × List Str) where
  init isLoading := (db.init isLoading).zoom (recordedPart σ)
  read table key fields result := (db.read table key fields result).zoom (recordedPart σ)
  scan table key len fields result := (db.scan table key len fields result).zoom (recordedPart σ)
  update table key values := (db.update table key values).zoom (recordedPart σ)
  insert table key values := do
    .atomic fun s => ((), (s.1, key :: s.2))
    (db.insert table key values).zoom (recordedPart σ)
  delete table key := (db.delete table key).zoom (recordedPart σ)

/-- A back end whose `Insert` adds `entry key` to the log once; `pending` is what the call still has
to add. -/
structure DB.Logs (db : DB σ) (log : σ → Multiset Str) (entry : Str → Multiset Str) : Prop where
  init : ∀ isLoading, (db.init isLoading).StepsBy fun s s' => log s' = log s
  insert : ∀ table key values, (db.insert table key values).Obeys (fun _ _ => True)
    (fun pending s pending' s' => log s' + pending' = log s + pending)
    (fun pending _ => pending = 0) (entry key)

theorem DB.logs_nothing (db : DB σ) : db.Logs (fun _ => 0) (fun _ => 0) where
  init _ := stepsBy_of_forall (fun _ _ => rfl) _
  insert _ _ _ := (stepsBy_of_forall (R := fun _ _ => True) (fun _ _ => trivial) _).obeys
    fun _ _ _ _ => rfl

theorem DB.logs_recording (db : DB σ) :
    db.recording.Logs (fun s => (s.2 : Multiset Str)) (fun key => {key}) where
  init _ := (stepsBy_of_forall (R := fun _ _ => True) (fun _ _ => trivial) _).zoom
    fun _ _ _ => rfl
  insert table key values := by
    refine obeys_atomic_bind fun s _ => ⟨0, ?_, ?_⟩
    · rw [add_zero, ← Multiset.cons_coe, ← Multiset.singleton_add, add_comm]
    · exact (stepsBy_of_forall (R := fun _ _ => True) (fun _ _ => trivial) _).zoom_obeys
        fun _ _ _ _ => rfl

/-! ### A loader thread -/

/-- The ghost value of a loader thread: how many numbers it still has to draw, and the log entry of
the key in its hands. -/
structure Loader where
  todo : ℕ
  pending : Multiset Str

section Loader

variable {p : Properties} {log : σ → Multiset Str} {entry : Str → Multiset Str}

/-- The states that a loader thread may meet. -/
def LoaderAllowed (p : Properties) (_ : Loader) (b : Bench σ) : Prop := Configured p b.workload

/-- A step of a loader thread draws a key number, or it draws values and works on the back end. -/
inductive LoaderMove (p : Properties) (log : σ → Multiset Str) (entry : Str → Multiset Str) :
    Loader → Bench σ → Loader → Bench σ → Prop
  | draw (n : ℕ) (b : Bench σ) :
      LoaderMove p log entry ⟨n + 1, 0⟩ b
        ⟨n, entry (p.keyName b.workload.keyGenerator.counter)⟩
        { b with workload := b.workload.numberTaken }
  | work {g : Loader} {b : Bench σ} {g' : Loader} {b' : Bench σ} (htodo : g'.todo = g.todo)
      (hdrawn : b.workload.Drawn b'.workload)
      (hlog : log b'.db + g'.pending = log b.db + g.pending) : LoaderMove p log entry g b g' b'

/-- `NextSequenceKey` puts a key into the hands of the thread. -/
theorem obeys_nextSequenceKey (n : ℕ) :
    (onWorkload nextSequenceKey : Program (Bench σ) Str).Obeys (LoaderAllowed p)
      (LoaderMove p log entry) (fun g key => g = ⟨n, entry key⟩) ⟨n + 1, 0⟩ := by
  rw [onWorkload, nextSequenceKey, keyGeneratorNext, zoom_bind, zoom_atomic]
  refine obeys_atomic_bind fun b _ => ⟨_, .draw n b, ?_⟩
  rw [zoom_atomic]
  refine obeys_atomic fun b' hb' => ⟨_, .work rfl (.refl _) rfl, ?_⟩
  exact congrArg (fun key => (⟨n, entry key⟩ : Loader)) (hb'.buildKeyName _).symm

theorem obeys_onWorkload {α : Type} {q : Program CoreWorkload α} (hq : q.StepsBy Drawn)
    (g : Loader) :
    (onWorkload q : Program (Bench σ) α).Obeys (LoaderAllowed p) (LoaderMove p log entry)
      (fun g' _ => g' = g) g :=
  hq.zoom_obeys fun _ _ _ hdrawn => .work rfl hdrawn rfl

/-- `DoInsert` draws one number and passes its key to `Insert`. -/
theorem obeys_doInsert {db : DB σ} (hdb : db.Logs log entry) (n : ℕ) :
    (doInsert db).Obeys (LoaderAllowed p) (LoaderMove p log entry) (fun g _ => g = ⟨n, 0⟩)
      ⟨n + 1, 0⟩ := by
  refine (obeys_nextSequenceKey n).bind ?_
  rintro key _ rfl
  refine (obeys_onWorkload stepsBy_buildValues _).bind ?_
  rintro pairs _ rfl
  refine (obeys_onWorkload (stepsBy_atomic Drawn.refl) _).bind ?_
  rintro table _ rfl
  have hinsert : (onDB (db.insert table key pairs)).Obeys (LoaderAllowed p)
      (LoaderMove p log entry) (fun g _ => g = ⟨n, 0⟩) ⟨n, entry key⟩ :=
    Obeys.zoom (f := Loader.mk n) (hdb.insert table key pairs) (fun _ _ _ => trivial)
      (fun _ _ _ _ _ hlog => .work rfl (.refl _) hlog)
      (fun _ _ hpending => congrArg (Loader.mk n) hpending)
  refine hinsert.bind ?_
  rintro status _ rfl
  exact obeys_pure rfl

theorem operations_loading (db : DB σ) (fuel numOps : ℕ) :
    operations db fuel true (numOps + 1) = doInsert db >>= fun ok =>
      operations db fuel true numOps >>= fun oks => pure (oks.map (ok.toNat + ·)) := by
  simp only [operations, if_true, map_eq_pure_bind, bind_assoc, pure_bind]

theorem obeys_operations {db : DB σ} (hdb : db.Logs log entry) (fuel numOps : ℕ) :
    (operations db fuel true numOps).Obeys (LoaderAllowed p) (LoaderMove p log entry)
      (fun g oks => g = ⟨0, 0⟩ ∧ oks.isSome) ⟨numOps, 0⟩ := by
  induction numOps with
  | zero => exact obeys_pure ⟨rfl, rfl⟩
  | succ numOps ih =>
    rw [operations_loading]
    refine (obeys_doInsert hdb numOps).bind ?_
    rintro ok _ rfl
    refine ih.bind ?_
    rintro oks _ ⟨rfl, hoks⟩
    exact obeys_pure ⟨rfl, by rwa [Option.isSome_map]⟩

/-- **A loader thread follows the protocol.** -/
theorem obeys_delegateClient {db : DB σ} (hdb : db.Logs log entry) (fuel numOps : ℕ) :
    (delegateClient db fuel numOps true).Obeys (LoaderAllowed p) (LoaderMove p log entry)
      (fun g oks => g = ⟨0, 0⟩ ∧ oks.isSome) ⟨numOps, 0⟩ := by
  have hinit : (onDB (db.init true)).Obeys (LoaderAllowed p) (LoaderMove p log entry)
      (fun g _ => g = ⟨numOps, 0⟩) ⟨numOps, 0⟩ :=
    (hdb.init true).zoom_obeys fun _ _ _ hlog => .work rfl (.refl _) (congrArg (· + 0) hlog)
  refine hinit.bind ?_
  rintro _ _ rfl
  exact obeys_operations hdb fuel numOps

end Loader

/-! ### All loader threads -/

theorem sum_update_add {ι M : Type} [Fintype ι] [DecidableEq ι] [AddCommMonoid M] (f : ι → M)
    (i : ι) (m : M) : ∑ j, Function.update f i m j + f i = ∑ j, f j + m := by
  rw [Finset.sum_update_of_mem (Finset.mem_univ i), add_comm m, add_assoc, add_comm m,
    ← add_assoc, Finset.sdiff_singleton_eq_erase, Finset.sum_erase_add _ _ (Finset.mem_univ i)]

/-- The key of the `i`-th number that is handed out. -/
def Properties.sequenceKey (p : Properties) (i : ℕ) : Str :=
  p.keyName (UInt64.ofInt p.insertStart + UInt64.ofNat i)

section LoadInvariant

variable {p : Properties} {log : σ → Multiset Str} {entry : Str → Multiset Str} {numThreads : ℕ}

/-- The shared state at any time of the load phase: the numbers that have been handed out are the
first `drawn` ones, and their keys are logged or in the hands of a thread. -/
structure LoadInvariant (p : Properties) (log : σ → Multiset Str) (entry : Str → Multiset Str)
    (total : ℕ) (g : Fin numThreads → Loader) (b : Bench σ) : Prop where
  configured : Configured p b.workload
  drawn : ∃ drawn, drawn + ∑ i, (g i).todo = total ∧
    b.workload.keyGenerator.counter = UInt64.ofInt p.insertStart + UInt64.ofNat drawn ∧
    log b.db + ∑ i, (g i).pending = ∑ i ∈ Finset.range drawn, entry (p.sequenceKey i)

theorem LoadInvariant.move {total : ℕ} {g : Fin numThreads → Loader} {b b' : Bench σ}
    (h : LoadInvariant p log entry total g b) {i : Fin numThreads} {g' : Loader}
    (hm : LoaderMove p log entry (g i) b g' b') :
    LoadInvariant p log entry total (Function.update g i g') b' := by
  obtain ⟨hconf, drawn, htotal, hcounter, hlog⟩ := h
  have htodo := sum_update_add (fun j => (g j).todo) i g'.todo
  have hpending := sum_update_add (fun j => (g j).pending) i g'.pending
  simp only [← Function.apply_update (fun _ => Loader.todo)] at htodo
  simp only [← Function.apply_update (fun _ => Loader.pending)] at hpending
  generalize hgi : g i = gi at hm htodo hpending
  cases hm with
  | draw n =>
    dsimp only at htodo hpending
    refine ⟨hconf.numberTaken, drawn + 1, by omega, ?_, ?_⟩
    · show b.workload.keyGenerator.counter + 1 = _
      rw [hcounter, UInt64.ofNat_add, UInt64.add_assoc]
      rfl
    · rw [add_zero] at hpending
      rw [Finset.sum_range_succ, hpending, ← add_assoc, hlog, hcounter]
      rfl
  | work hn hdrawn hstep =>
    refine ⟨hconf.drawn hdrawn, drawn, by omega, ?_, ?_⟩
    · obtain ⟨draws, hw⟩ := hdrawn
      rw [hw]
      exact hcounter
    · -- the entry of the thread moves between its hands and the log
      refine add_right_cancel (b := gi.pending) ?_
      rw [add_assoc, hpending, ← hlog]
      calc log b'.db + (∑ j, (g j).pending + g'.pending)
          = (log b'.db + g'.pending) + ∑ j, (g j).pending := by abel
        _ = (log b.db + gi.pending) + ∑ j, (g j).pending := by rw [hstep]
        _ = log b.db + ∑ j, (g j).pending + gi.pending := by abel

/-- **The state after the load phase.** In every order of the steps of the loader threads, when all
of them have returned, the numbers that have been handed out are consecutive and the keys of
exactly these numbers are logged. -/
theorem load_returns {db : DB σ} (hdb : db.Logs log entry) (draws : Draws) {s : σ}
    (hs : log s = 0) {b : Bench σ} {r : Fin numThreads → Option ℕ}
    (hsteps : Config.Steps (loadClients db p draws numThreads s) ⟨b, fun i => pure (r i)⟩) :
    Configured p b.workload ∧
      b.workload.keyGenerator.counter = UInt64.ofInt p.insertStart +
        UInt64.ofNat (numThreads * opsPerThread p.recordCount numThreads) ∧
      log b.db = ∑ i ∈ Finset.range (numThreads * opsPerThread p.recordCount numThreads),
        entry (p.sequenceKey i) := by
  have hfollows : (loadClients db p draws numThreads s).Follows (fun _ => LoaderAllowed p)
      (fun _ => LoaderMove p log entry) (fun _ g oks => g = ⟨0, 0⟩ ∧ oks.isSome)
      (LoadInvariant p log entry (numThreads * opsPerThread p.recordCount numThreads)) := by
    refine ⟨fun _ => ⟨opsPerThread p.recordCount numThreads, 0⟩,
      ⟨configured_init p draws, 0, ?_, ?_, ?_⟩, fun _ => obeys_delegateClient hdb 0 _⟩
    · rw [Finset.sum_const, Finset.card_univ, Fintype.card_fin, zero_add, smul_eq_mul]
    · exact (UInt64.add_zero _).symm
    · simp only [loadClients, hs, Finset.sum_const_zero, Finset.range_zero, Finset.sum_empty,
        add_zero]
  obtain ⟨g, ⟨hconf, drawn, htotal, hcounter, hlog⟩, hpost⟩ :=
    (Config.invariant_of_obeys (fun _ _ _ hinv => hinv.configured)
      (fun _ _ _ _ _ hinv hm => hinv.move hm) hfollows hsteps).returns fun _ => rfl
  simp only [(hpost _).1, Finset.sum_const_zero, add_zero] at htotal hlog
  subst htotal
  exact ⟨hconf, hcounter, hlog⟩

end LoadInvariant

/-! ### The keys of the transactions -/

theorem mul_opsPerThread {numThreads n : ℕ} (h : numThreads ∣ n) :
    numThreads * opsPerThread n numThreads = n := by
  rw [opsPerThread, ← Int.ofNat_tdiv, Int.toNat_natCast, Nat.mul_div_cancel' h]

section Keys

variable {p : Properties} {n : ℕ}

theorem toNat_recordCount (hp : p.InRange) (hn : p.recordCount = n) :
    (UInt64.ofInt p.recordCount).toNat = n := by
  have hrange := hp.recordCount.2
  rw [UInt64.ofInt, UInt64.toNat_ofNat', hn]
  omega

/-- `Last()` is the number of the last record of the load phase. -/
theorem toNat_lt_of_le_last {w : CoreWorkload} (hw : Configured p w) (hp : p.InRange)
    (hn : p.recordCount = n) (hpos : 1 ≤ n) {keyNum : UInt64}
    (hkey : keyNum ≤ w.insertKeySequence.last) : keyNum.toNat < n := by
  have hcount := toNat_recordCount hp hn
  rw [hw.last, UInt64.le_iff_toNat_le, UInt64.toNat_sub_of_le, hcount, UInt64.toNat_one] at hkey
  · omega
  · rw [UInt64.le_iff_toNat_le, hcount, UInt64.toNat_one]
    exact hpos

/-- When the load phase starts at 0, a number is handed out in its own turn. -/
theorem sequenceKey_toNat (hstart : p.insertStart = 0) (keyNum : UInt64) :
    p.sequenceKey keyNum.toNat = p.keyName keyNum := by
  rw [Properties.sequenceKey, hstart, UInt64.ofNat_toNat]
  exact congrArg p.keyName (UInt64.zero_add keyNum)

/-- Consecutive numbers run through all remainders. -/
theorem add_mod_rotate {start n k : ℕ} (hk : k < n) :
    (start + (k + (n - start % n)) % n) % n = k := by
  have hlt : start % n < n := Nat.mod_lt _ (by omega)
  have hdiv : start + (k + (n - start % n)) = k + n + n * (start / n) := by
    have := Nat.mod_add_div start n
    omega
  rw [Nat.add_mod_mod, hdiv, Nat.add_mul_mod_self_left, Nat.add_mod_right, Nat.mod_eq_of_lt hk]

/-- From a start that is not negative, `n` ordered insertions run through all keys. -/
theorem exists_sequenceKey_ordered (hp : p.InRange) (hn : p.recordCount = n) (hpos : 1 ≤ n)
    (hordered : p.orderedInserts = true) (hstart : 0 ≤ p.insertStart) {keyNum : UInt64}
    (hkey : keyNum.toNat < n) : ∃ i < n, p.sequenceKey i = p.keyName keyNum := by
  obtain ⟨start, hstart⟩ := Int.eq_ofNat_of_zero_le hstart
  have hrange := hp.insertStart.2
  have hcount := hp.recordCount.2
  refine ⟨(keyNum.toNat + (n - start % n)) % n, Nat.mod_lt _ hpos, ?_⟩
  simp only [Properties.sequenceKey, Properties.keyName, keyNumber, hordered, if_true]
  congr 1
  rw [← UInt64.toNat_inj, UInt64.toNat_mod, UInt64.toNat_mod, toNat_recordCount hp hn,
    UInt64.toNat_add, UInt64.toNat_ofNat', UInt64.ofInt, UInt64.toNat_ofNat', hstart,
    Nat.mod_eq_of_lt hkey]
  have hi : (keyNum.toNat + (n - start % n)) % n < n := Nat.mod_lt _ hpos
  have hsum : (((start : ℤ) % 2 ^ 64).toNat % 2 ^ 64 +
      (keyNum.toNat + (n - start % n)) % n % 2 ^ 64) % 2 ^ 64 =
      start + (keyNum.toNat + (n - start % n)) % n := by
    generalize (keyNum.toNat + (n - start % n)) % n = i at hi ⊢
    omega
  rw [hsum, add_mod_rotate hkey]

/-- The record of the keys after the load phase. -/
theorem recorded_perm (db : DB σ) (draws : Draws) {numThreads : ℕ} (s : σ)
    {b : Bench (σ × List Str)} {r : Fin numThreads → Option ℕ}
    (hsteps : Config.Steps (loadClients db.recording p draws numThreads (s, []))
      ⟨b, fun i => pure (r i)⟩) :
    b.db.2.Perm ((List.range (numThreads * opsPerThread p.recordCount numThreads)).map
      p.sequenceKey) := by
  obtain ⟨-, -, hlog⟩ := load_returns db.logs_recording draws rfl hsteps
  generalize numThreads * opsPerThread p.recordCount numThreads = total at hlog ⊢
  rw [← Multiset.coe_eq_coe, hlog, ← Multiset.map_coe, ← Multiset.range,
    ← Multiset.sum_map_singleton ((Multiset.range total).map p.sequenceKey), Multiset.map_map]
  rfl

/-- **Transactions only ask for keys that have been loaded**, when the number of loader threads
divides the number of records and the load phase starts at 0, or at a number that is not negative
and in key order. -/
theorem transaction_keys_loaded (db : DB σ) (hp : p.InRange) (draws : Draws) {numThreads : ℕ}
    (hn : p.recordCount = n) (hpos : 1 ≤ n) (hdvd : numThreads ∣ n) (s : σ)
    {b : Bench (σ × List Str)} {r : Fin numThreads → Option ℕ}
    (hsteps : Config.Steps (loadClients db.recording p draws numThreads (s, []))
      ⟨b, fun i => pure (r i)⟩) :
    b.db.2.Perm ((List.range n).map p.sequenceKey) ∧
      (p.insertStart = 0 ∨ (p.orderedInserts = true ∧ 0 ≤ p.insertStart) →
        ∀ w, Configured p w → ∀ fuel key, ((nextTransactionKey fuel).run w).1 = some key →
          key ∈ b.db.2) := by
  have hperm := recorded_perm db draws s hsteps
  rw [hn, mul_opsPerThread hdvd] at hperm
  refine ⟨hperm, fun hstart w hw fuel key hrun => ?_⟩
  obtain ⟨keyNum, hle, rfl⟩ := (run_nextTransactionKey fuel w).2.1 key hrun
  have hlt := toNat_lt_of_le_last hw hp hn hpos hle
  rw [hw.buildKeyName, hperm.mem_iff, List.mem_map]
  rcases hstart with hstart | ⟨hordered, hstart⟩
  · exact ⟨keyNum.toNat, List.mem_range.2 hlt, sequenceKey_toNat hstart keyNum⟩
  · obtain ⟨i, hi, heq⟩ := exists_sequenceKey_ordered hp hn hpos hordered hstart hlt
    exact ⟨i, List.mem_range.2 hi, heq⟩

/-- A key that a transaction can ask for, and that no loader thread passes to `Insert`. -/
theorem exists_key_not_loaded (db : DB σ) (draws : Draws) (numThreads : ℕ) (s : σ)
    (keyNum : UInt64) (hle : keyNum ≤ UInt64.ofInt p.recordCount - 1)
    (hkey : p.keyName keyNum ∉
      (List.range (numThreads * opsPerThread p.recordCount numThreads)).map p.sequenceKey) :
    ∃ (b : Bench (σ × List Str)) (r : Fin numThreads → Option ℕ),
      Config.Steps (loadClients db.recording p draws numThreads (s, []))
        ⟨b, fun i => pure (r i)⟩ ∧
      ∃ w fuel key, Configured p w ∧ ((nextTransactionKey fuel).run w).1 = some key ∧
        key ∉ b.db.2 := by
  obtain ⟨b, r, hsteps⟩ :=
    Config.exists_returns (loadClients db.recording p draws numThreads (s, []))
  have hperm := recorded_perm db draws s hsteps
  refine ⟨b, r, hsteps, init p { draws with keyChooser := .uniform (.const keyNum) }, 1,
    p.keyName keyNum, configured_init p _, ?_, fun hmem => hkey (hperm.mem_iff.1 hmem)⟩
  rw [run_nextTransactionKey_succ]
  exact congrArg Prod.fst (if_neg (UInt64.not_lt.2 hle))

end Keys

/-- The settings of a run with one field, for the examples. -/
def exampleProperties (recordCount insertStart : ℤ) (orderedInserts : Bool) : Properties :=
  ⟨"usertable".toList, 1, recordCount, insertStart, true, true, orderedInserts⟩

/-- Two threads load four ordered records. -/
theorem transaction_keys_loaded_two_threads :
    ∃ (b : Bench (Store × List Str)) (r : Fin 2 → Option ℕ),
      Config.Steps (loadClients (LockStlDB (.newestFirst _)).recording (exampleProperties 4 0 true)
        default 2 (Store.empty, [])) ⟨b, fun i => pure (r i)⟩ ∧
      ∀ w, Configured (exampleProperties 4 0 true) w → ∀ fuel key,
        ((nextTransactionKey fuel).run w).1 = some key → key ∈ b.db.2 := by
  obtain ⟨b, r, hsteps⟩ := Config.exists_returns
    (loadClients (LockStlDB (.newestFirst _)).recording (exampleProperties 4 0 true) default 2
      (Store.empty, []))
  exact ⟨b, r, hsteps, (transaction_keys_loaded (LockStlDB (.newestFirst _))
    ⟨by decide, by decide, by decide⟩ default (n := 4) rfl (by decide) (by decide) Store.empty
    hsteps).2 (.inl rfl)⟩

/-- With three records and two threads the last record is not loaded. With hashed keys and a start
at 255, and with ordered keys and a negative start, some keys are loaded twice and others not at
all. In each case a transaction can ask for a key that no loader thread has passed to `Insert`. -/
theorem transaction_keys_not_loaded :
    let missed (p : Properties) (numThreads : ℕ) : Prop :=
      ∃ (b : Bench (Store × List Str)) (r : Fin numThreads → Option ℕ),
        Config.Steps (loadClients (LockStlDB (.newestFirst _)).recording p default numThreads
          (Store.empty, [])) ⟨b, fun i => pure (r i)⟩ ∧
        ∃ w fuel key, Configured p w ∧ ((nextTransactionKey fuel).run w).1 = some key ∧
          key ∉ b.db.2
    missed (exampleProperties 3 0 true) 2 ∧ missed (exampleProperties 2 255 false) 1 ∧
      missed (exampleProperties 3 (-1) true) 1 :=
  ⟨exists_key_not_loaded _ _ 2 _ 2 (by decide) (by decide),
    exists_key_not_loaded _ _ 1 _ 0 (by decide) (by decide),
    exists_key_not_loaded _ _ 1 _ 2 (by decide) (by decide)⟩

end YcsbC
