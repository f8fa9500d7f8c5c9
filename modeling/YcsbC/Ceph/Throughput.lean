import YcsbC.Ceph.MmapBlocks
import YcsbC.Ceph.RealCounters

/-!
# The throughput of the Ceph back ends

`HandleAllData` reports the throughput from `ops` and the vectors of durations. Both back ends count
each call of a transaction thread once, under its kind, and no call of a load thread. With keys from
`BuildKeyName` every call returns, so at any time the counters are those of the calls made so far.

## Main definitions

* `ThroughputExact`: the counters are those of some calls.
* `BuiltKeys`: the keys of the calls come from `BuildKeyName`.

## Main results

* `counters_exact`: the counters of both back ends.
-/

namespace YcsbC

open CoreWorkload

variable {ι : Type}

/-- `ops` and the vectors of durations are those of the calls of the transaction threads. -/
def ThroughputExact [Fintype ι] (calls : ι → List CephCall) (ops : ℕ) (times : TimeVector → ℕ) :
    Prop :=
  ops = ∑ i, (calls i).length ∧
    ops = times .readTime + times .scanTime + times .updateTime + times .insertTime +
      times .deleteTime ∧
    ∀ v, times v = ∑ i, (calls i).countP fun c => c.timeVector = v

theorem throughputExact_of_owingAll [Fintype ι] {calls : ι → List CephCall} {ops : ℕ}
    {times : TimeVector → ℕ}
    (hops : ops = owingAll (fun i => transactionRequests (calls i)) .ops)
    (htimes : ∀ v, times v = owingAll (fun i => transactionRequests (calls i)) (.time v)) :
    ThroughputExact calls ops times := by
  obtain ⟨hlength, hcount⟩ := owingAll_transactions calls
  refine ⟨hops.trans hlength, ?_, fun v => (htimes v).trans (hcount v)⟩
  simp only [hops, htimes, hlength, hcount, ← Finset.sum_add_distrib]
  exact Finset.sum_congr rfl fun i _ => length_eq_sum_countP (calls i)

/-- The keys of the calls come from `BuildKeyName`; the number of records is a positive `int`. -/
structure BuiltKeys (w : CoreWorkload) (calls : ι → List CephCall) : Prop where
  pos : 1 ≤ w.recordCount
  range : w.recordCount.toNat < 2 ^ 31
  key : ∀ i, ∀ c ∈ calls i, ∃ keyNum, c.key = w.buildKeyName keyNum

section BuiltKeys

variable {w : CoreWorkload} {calls : ι → List CephCall}

theorem BuiltKeys.number (h : BuiltKeys w calls) (i : ι) (c : CephCall) (hc : c ∈ calls i) :
    ∃ n < w.recordCount, c.key = userKey n := by
  obtain ⟨keyNum, hkey⟩ := h.key i c hc
  exact ⟨_, keyNumber_lt h.pos keyNum, hkey⟩

theorem BuiltKeys.realKey_ne_none (h : BuiltKeys w calls) (i : ι) (c : CephCall)
    (hc : c ∈ calls i) : realKey c.key ≠ none := by
  obtain ⟨n, hn, hkey⟩ := h.number i c hc
  rw [hkey, realKey_userKey ((UInt64.lt_iff_toNat_lt.1 hn).trans h.range)]
  exact Option.some_ne_none _

end BuiltKeys

/-- **The throughput counters of both back ends are exact.** While the load threads run, no `Insert`
has changed anything. When `HandleAllData` runs, `ops` is the number of calls of the transaction
threads, and each vector of durations has one entry for each call of its kind. With keys from
`BuildKeyName`, and a mapping that has room for all records, no thread ever fails; and from the
start of the transaction threads on the counters are those of the calls made so far, in `RealCephDB`
up to what the call that holds `mutex_` is still to add. -/
theorem counters_exact [Fintype ι] [DecidableEq ι] (file : Bytes) (keys : ι → List Str)
    (calls : ι → List CephCall) :
    (∀ s : CephSystem ι, Runs (CephSystem.Step fun i => transactionRequests (calls i))
        (fun _ _ => True) (.new file fun i => loadRequests (keys i)) s →
      (s.stage = .loading → s.db = { CephDB.new file with phase := s.db.phase }) ∧
        (s.stage = .handling → ThroughputExact calls s.db.ops s.db.times) ∧
        ∀ w, BuiltKeys w calls → w.recordCount.toNat * 4096 ≤ file.length →
          (∀ i f, s.client i ≠ .failed f) ∧
            (s.stage ≠ .loading → ∃ made : ι → List CephCall,
              (∀ i, calls i = made i ++ callsOf (s.client i).requests) ∧
                ThroughputExact made s.db.ops s.db.times)) ∧
      ∀ s : RealCephSystem ι, Runs (RealCephSystem.Step fun i => transactionRequests (calls i))
          (fun _ _ => True) (.new fun i => loadRequests (keys i)) s →
        (s.main = .loading → s.db = { RealCephDB.new with phase := s.db.phase }) ∧
          (s.main = .handling → ThroughputExact calls s.db.ops s.db.times) ∧
          ∀ w, BuiltKeys w calls →
            (∀ i, s.client i ≠ .failed) ∧
              (s.main ≠ .loading → ∃ (made : ι → List CephCall) (due : Due),
                (∀ i, calls i = made i ++ callsOf (s.client i).requests) ∧
                  (s.mutex = none → due = .nothing) ∧
                  ThroughputExact made (s.db.ops + due.amount .ops)
                    fun v => s.db.times v + due.amount (.time v)) := by
  refine ⟨fun s h => ?_, fun s h => ?_⟩
  · obtain ⟨hload, hhandle, hmade⟩ := CephSystem.counters h
    refine ⟨fun hs => (hload hs).1, fun hs => ?_, fun w hkeys hfile => ?_⟩
    · exact throughputExact_of_owingAll (hhandle hs .ops) fun v => hhandle hs (.time v)
    have hnone : ∀ i f, s.client i ≠ .failed f := by
      by_cases hs : s.stage = .loading
      · exact (hload hs).2
      · intro i f hf
        obtain ⟨rs, hrs, -⟩ := (CephSystem.kept hfile hkeys.range hkeys.number h hs).client i
        cases hrs.symm.trans hf
    refine ⟨hnone, fun hs => ?_⟩
    obtain ⟨made, hcalls, htally⟩ := hmade hs hnone
    exact ⟨made, hcalls, throughputExact_of_owingAll (htally .ops) fun v => htally (.time v)⟩
  · obtain ⟨hload, hhandle, hmade⟩ := RealCephSystem.counters h
    refine ⟨hload, fun hs => ?_, fun w hkeys => ?_⟩
    · exact throughputExact_of_owingAll (hhandle hs .ops) fun v => hhandle hs (.time v)
    obtain ⟨hnone, hmade⟩ := hmade hkeys.realKey_ne_none
    refine ⟨hnone, fun hs => ?_⟩
    obtain ⟨made, due, hcalls, hdue, htally⟩ := hmade hs
    exact ⟨made, due, hcalls, hdue,
      throughputExact_of_owingAll (htally .ops) fun v => htally (.time v)⟩

/-! ### A run with one call of each kind -/

/-- A call of each kind. -/
def fiveCalls : List CephCall :=
  [.read (userKey 0), .update (userKey 0), .insert (userKey 0), .scan (userKey 0),
    .delete (userKey 0)]

theorem builtKeys_fiveCalls : BuiltKeys oneRecord fun _ : Unit => fiveCalls where
  pos := by decide
  range := by decide
  key _ c hc := by
    have hkey : c.key = userKey 0 := by
      simp only [fiveCalls, List.mem_cons, List.not_mem_nil, or_false] at hc
      rcases hc with rfl | rfl | rfl | rfl | rfl <;> rfl
    exact ⟨0, hkey⟩

/-- The mapped back end, when two calls have been served, and when `HandleAllData` runs. -/
theorem CephSystem.runs_fiveCalls {file : Bytes}
    (hfile : oneRecord.recordCount.toNat * 4096 ≤ file.length) :
    (∃ s : CephSystem Unit, Runs (Step fun _ => transactionRequests fiveCalls) (fun _ _ => True)
        (new file fun _ => loadRequests [userKey 0]) s ∧ s.stage = .transacting ∧
        callsOf (s.client ()).requests = fiveCalls.drop 2) ∧
      ∃ s : CephSystem Unit, Runs (Step fun _ => transactionRequests fiveCalls) (fun _ _ => True)
        (new file fun _ => loadRequests [userKey 0]) s ∧ s.stage = .handling := by
  have hserve {s : CephSystem Unit}
      (h : Runs (Step fun _ => transactionRequests fiveCalls) (fun _ _ => True)
        (new file fun _ => loadRequests [userKey 0]) s) (hs : s.stage ≠ .loading)
      {r : CephRequest} {rs : List CephRequest} (hi : s.client () = .idle (r :: rs)) :=
    exists_serve (i := ()) hfile builtKeys_fiveCalls.range builtKeys_fiveCalls.number
      (fun _ _ => trivial) h hs hi
  have hnew : Runs (Step fun _ : Unit => transactionRequests fiveCalls) (fun _ _ => True)
    (new file fun _ => loadRequests [userKey 0]) (new file fun _ => loadRequests [userKey 0]) :=
    .start
  have hinit := hnew.step trivial (.serve (i := ()) rfl rfl)
  have hinsert := hinit.step trivial (.serve (i := ()) rfl rfl)
  have hjoin := hinsert.step trivial (.joinLoad rfl fun _ => rfl)
  obtain ⟨db₀, h₀⟩ := hserve hjoin (by simp) rfl
  obtain ⟨db₁, h₁⟩ := hserve h₀ (by simp) rfl
  obtain ⟨db₂, h₂⟩ := hserve h₁ (by simp) rfl
  obtain ⟨db₃, h₃⟩ := hserve h₂ (by simp) rfl
  obtain ⟨db₄, h₄⟩ := hserve h₃ (by simp) rfl
  obtain ⟨db₅, h₅⟩ := hserve h₄ (by simp) rfl
  exact ⟨⟨_, h₂, rfl, rfl⟩, _, h₅.step trivial (.handleAllData rfl fun _ => rfl), rfl⟩

/-- The asynchronous back end, when two calls have returned, and when `HandleAllData` runs. -/
theorem RealCephSystem.runs_fiveCalls :
    (∃ s : RealCephSystem Unit, Runs (Step fun _ => transactionRequests fiveCalls)
        (fun _ _ => True) (new fun _ => loadRequests [userKey 0]) s ∧ s.main = .transacting ∧
        s.mutex = none ∧ callsOf (s.client ()).requests = fiveCalls.drop 2) ∧
      ∃ s : RealCephSystem Unit, Runs (Step fun _ => transactionRequests fiveCalls)
        (fun _ _ => True) (new fun _ => loadRequests [userKey 0]) s ∧ s.main = .handling := by
  have hok : ∀ _ : RealCephSystem Unit, True ∧ True ∧ True := fun _ => ⟨trivial, trivial, trivial⟩
  have hnew : Runs (Step fun _ : Unit => transactionRequests fiveCalls) (fun _ _ => True)
    (new fun _ => loadRequests [userKey 0]) (new fun _ => loadRequests [userKey 0]) := .start
  have hload := runs_request hok hnew rfl rfl (i := ()) rfl rfl
  have hloaded := runs_request hok hload rfl rfl (i := ()) rfl rfl
  have hjoin := runs_main hloaded trivial rfl (.joinLoad rfl fun _ => rfl)
  have hinit := runs_request hok hjoin rfl rfl (i := ()) rfl rfl
  have hread := runs_request hok hinit rfl rfl (i := ()) rfl rfl
  have hupdate := runs_request hok hread rfl rfl (i := ()) rfl rfl
  have hinsert := runs_request hok hupdate rfl rfl (i := ()) rfl rfl
  have hscan := runs_request hok hinsert rfl rfl (i := ()) rfl rfl
  have hdelete := runs_request hok hscan rfl rfl (i := ()) rfl rfl
  -- the callbacks of the read and of the two writes
  have hstart₀ := runs_callback hdelete trivial rfl (.start (n := 0) rfl rfl)
  have hfree₀ := runs_callback hstart₀ trivial rfl (.free (n := 0) rfl rfl rfl)
  have hdone₀ := runs_callback hfree₀ trivial rfl (.decrement (n := 0) rfl rfl)
  have hstart₁ := runs_callback hdone₀ trivial rfl (.start (n := 1) rfl rfl)
  have hdone₁ := runs_callback hstart₁ trivial rfl (.decrement (n := 1) rfl rfl)
  have hstart₂ := runs_callback hdone₁ trivial rfl (.start (n := 2) rfl rfl)
  have hdone₂ := runs_callback hstart₂ trivial rfl (.decrement (n := 2) rfl rfl)
  have hclose := runs_main hdone₂ trivial rfl (.joinTransactions rfl fun _ => rfl)
  have hwait := runs_main hclose trivial rfl (.lockAsync (.inl rfl))
  have htest := runs_main hwait trivial rfl (.test rfl)
  have hdrained := runs_main htest trivial rfl (.rbdClose rfl)
  have hhandle := runs_main hdrained trivial rfl (.handleAllData rfl)
  exact ⟨⟨_, hupdate, rfl, rfl, rfl⟩, _, hhandle, rfl⟩

/-- The counters in these runs, on a file of zeros: no thread has failed when two calls have been
made, and they have been counted; at the end all five have been. -/
theorem counters_exact_five_calls :
    (∃ s : CephSystem Unit,
        Runs (CephSystem.Step fun _ => transactionRequests fiveCalls) (fun _ _ => True)
          (.new (List.replicate 4096 0) fun _ => loadRequests [userKey 0]) s ∧
        s.stage = .transacting ∧ (∀ f, s.client () ≠ .failed f) ∧
        ∃ made : Unit → List CephCall, fiveCalls = made () ++ fiveCalls.drop 2 ∧
          ThroughputExact made s.db.ops s.db.times) ∧
      (∃ s : CephSystem Unit,
        Runs (CephSystem.Step fun _ => transactionRequests fiveCalls) (fun _ _ => True)
          (.new (List.replicate 4096 0) fun _ => loadRequests [userKey 0]) s ∧
        s.stage = .handling ∧ s.db.ops = 5 ∧ s.db.times .insertTime = 1) ∧
      (∃ s : RealCephSystem Unit,
        Runs (RealCephSystem.Step fun _ => transactionRequests fiveCalls) (fun _ _ => True)
          (.new fun _ => loadRequests [userKey 0]) s ∧
        s.main = .transacting ∧ s.client () ≠ .failed ∧
        ∃ (made : Unit → List CephCall) (due : Due), fiveCalls = made () ++ fiveCalls.drop 2 ∧
          due = .nothing ∧ ThroughputExact made (s.db.ops + due.amount .ops)
            fun v => s.db.times v + due.amount (.time v)) ∧
      ∃ s : RealCephSystem Unit,
        Runs (RealCephSystem.Step fun _ => transactionRequests fiveCalls) (fun _ _ => True)
          (.new fun _ => loadRequests [userKey 0]) s ∧
        s.main = .handling ∧ s.db.ops = 5 ∧ s.db.times .insertTime = 1 := by
  have hfile : oneRecord.recordCount.toNat * 4096 ≤ (List.replicate 4096 (0 : UInt8)).length := by
    rw [List.length_replicate]
    exact le_rfl
  generalize List.replicate 4096 (0 : UInt8) = file at hfile ⊢
  obtain ⟨⟨s, hrun, hstage, hleft⟩, s', hrun', hstage'⟩ := CephSystem.runs_fiveCalls hfile
  obtain ⟨⟨t, hreal, hmain, hmutex, hleft'⟩, t', hreal', hmain'⟩ := RealCephSystem.runs_fiveCalls
  refine ⟨⟨s, hrun, hstage, ?_⟩, ⟨s', hrun', hstage', ?_⟩, ⟨t, hreal, hmain, ?_⟩,
    t', hreal', hmain', ?_⟩
  · obtain ⟨hnone, hmade⟩ := ((counters_exact file (fun _ => [userKey 0]) fun _ => fiveCalls).1 s
      hrun).2.2 oneRecord builtKeys_fiveCalls hfile
    obtain ⟨made, hcalls, hexact⟩ := hmade (by simp [hstage])
    exact ⟨hnone (), made, hleft ▸ hcalls (), hexact⟩
  · obtain ⟨hops, -, htimes⟩ := ((counters_exact file (fun _ => [userKey 0]) fun _ => fiveCalls).1
      s' hrun').2.1 hstage'
    exact ⟨hops, htimes .insertTime⟩
  · obtain ⟨hnone, hmade⟩ := ((counters_exact [] (fun _ => [userKey 0]) fun _ => fiveCalls).2 t
      hreal).2.2 oneRecord builtKeys_fiveCalls
    obtain ⟨made, due, hcalls, hdue, hexact⟩ := hmade (by simp [hmain])
    exact ⟨hnone (), made, due, hleft' ▸ hcalls (), hdue hmutex, hexact⟩
  · obtain ⟨hops, -, htimes⟩ := ((counters_exact [] (fun _ => [userKey 0]) fun _ => fiveCalls).2
      t' hreal').2.1 hmain'
    exact ⟨hops, htimes .insertTime⟩

end YcsbC
