import YcsbC.Ceph.CephSystem
import YcsbC.Ceph.Dues

/-!
# The counters of the mapped Ceph back end

`HandleAllData` computes the throughput from `ops` and the vectors of durations. The phase is one
field that every `Init` writes and only `Insert` reads, but `main` joins the load threads before it
starts the transaction threads: while the load threads run, the phase is not `TRANSACTION`, and no
transaction call is made before its own thread has set it. So each call of a transaction thread adds
what is due for it, and a load thread adds nothing.

## Main definitions

* `CephDB.tally`: the counters.
* `CephSystem.Loading`, `CephSystem.Transacting`: the invariants of the two stages.
* `CephSystem.InOrder`: one of them holds, or a thread has failed.

## Main results

* `MmapCephDB.serve_ok`: what one request adds.
* `CephSystem.counters`: the counters during the load, when `HandleAllData` runs, and in between.
-/

namespace YcsbC

variable {ι : Type}

/-! ### The calls of the mapped back end -/

namespace CephDB

variable {F : Type}

/-- The counters. -/
def tally (s : CephDB F) : Counter → ℕ
  | .ops => s.ops
  | .time v => s.times v

/-- A call that counts and takes its time, whatever it does to the file. -/
theorem tally_pushTime_countOp (s s' : CephDB F) (v : TimeVector) (k : Counter)
    (hs : s' = { s.countOp with file := s'.file }) :
    (s'.pushTime v).tally k = s.tally k + (Due.call v).amount k := by
  rw [hs]
  cases k with
  | ops => rfl
  | time w => exact grow_apply s.times v w

end CephDB

namespace MmapCephDB

/-- What a request that returns has added, and to which phase it leads. A request that owes nothing
changes the phase at most. -/
theorem serve_ok {r : CephRequest} {s s' : MmapCephDB} {st : Status}
    (h : serve r s = (.ok st, s')) :
    (∀ k, s'.tally k = s.tally k + (r.dueIn s.phase).amount k) ∧
      s'.phase = r.phaseAfter s.phase ∧
      (r.dueIn s.phase = .nothing → s' = { s with phase := s'.phase }) := by
  have hpaid : ∀ {t : MmapCephDB} {v : TimeVector}, t = { s.countOp with file := t.file } →
      s' = t.pushTime v → (∀ k, s'.tally k = s.tally k + (Due.call v).amount k) ∧
        s'.phase = s.phase ∧ (Due.call v = .nothing → s' = { s with phase := s'.phase }) := by
    rintro t v ht rfl
    refine ⟨fun k => CephDB.tally_pushTime_countOp s t v k ht, ?_, fun hd => by cases hd⟩
    rw [ht]
    rfl
  cases r with
  | init flag =>
    cases h
    exact ⟨fun k => by cases k <;> rfl, rfl, fun _ => rfl⟩
  | call c =>
    cases c with
    | read key =>
      simp only [serve, perform, read] at h
      split at h
      · exact hpaid rfl (Prod.mk.inj h).2.symm
      · cases (Prod.mk.inj h).1
    | update key =>
      simp only [serve, perform, update] at h
      split at h
      · rename_i hwrite
        exact hpaid (writeBlock_eq hwrite) (Prod.mk.inj h).2.symm
      · cases (Prod.mk.inj h).1
    | insert key =>
      simp only [serve, perform, insert] at h
      cases hphase : s.phase with
      | transaction =>
        simp only [hphase, reduceCtorEq, or_self, if_false, if_true] at h
        split at h
        · rename_i t hwrite
          have ht := writeBlock_eq hwrite
          have htime : t.phase = .transaction := by
            rw [ht]
            exact hphase
          rw [htime, if_pos rfl] at h
          have hdone := hpaid ht (Prod.mk.inj h).2.symm
          rwa [hphase] at hdone
        · cases (Prod.mk.inj h).1
      | _ =>
        simp only [hphase, true_or, or_true, if_true] at h
        cases h
        exact ⟨fun k => by cases k <;> rfl, hphase, fun _ => rfl⟩
    | scan key => exact hpaid rfl (Prod.mk.inj h).2.symm
    | delete key => exact hpaid rfl (Prod.mk.inj h).2.symm

/-- A request that owes nothing returns. -/
theorem serve_of_due_nothing {r : CephRequest} {s s' : MmapCephDB} {e : CephFailure}
    (hdue : r.dueIn s.phase = .nothing) : serve r s ≠ (.error e, s') := by
  intro h
  cases r with
  | init flag => cases (Prod.mk.inj h).1
  | call c =>
    cases c with
    | insert key =>
      have hphase : s.phase ≠ .transaction := fun hphase => by
        simp only [CephRequest.dueIn, hphase, if_true, reduceCtorEq] at hdue
      have hload : s.phase = .invalid ∨ s.phase = .load := by
        cases hp : s.phase with
        | transaction => exact absurd hp hphase
        | invalid => exact .inl rfl
        | load => exact .inr rfl
      simp only [serve, perform, insert, hload, if_true] at h
      cases (Prod.mk.inj h).1
    | _ => cases hdue

end MmapCephDB

/-! ### The mapped back end in a run -/

/-- What a thread has left. -/
def CephThread.requests : CephThread → List CephRequest
  | idle requests => requests
  | failed _ => []

namespace CephSystem

/-- While the load threads run, only the phase has changed. -/
structure Loading (file : Bytes) (s : CephSystem ι) : Prop where
  stage : s.stage = .loading
  db : s.db = { CephDB.new file with phase := s.db.phase }
  phase : s.db.phase ≠ .transaction
  client : ∀ i, ∃ rs, s.client i = .idle rs ∧ ∀ r ∈ rs, r.IsLoading

/-- From then on, what has been counted and what the threads owe make up the debt of all calls, as
long as every call has returned. -/
structure Transacting [Fintype ι] (calls : ι → List CephCall) (s : CephSystem ι) : Prop where
  stage : s.stage ≠ .loading
  client : ∀ i, ∃ rs, s.client i = .idle rs ∧ Ahead (calls i) s.db.phase rs
  tally : ∀ k, s.db.tally k + owingAll (fun i => (s.client i).requests) k =
    owingAll (fun i => transactionRequests (calls i)) k
  joined : s.stage = .handling → ∀ i, s.client i = .idle []

/-- A thread has failed, which `main` is never to join. -/
def SomeFailed (s : CephSystem ι) : Prop := s.stage = .transacting ∧ ∃ i f, s.client i = .failed f

/-- The counters are in order, or a thread has failed. -/
def InOrder [Fintype ι] (file : Bytes) (calls : ι → List CephCall) (s : CephSystem ι) : Prop :=
  Loading file s ∨ Transacting calls s ∨ SomeFailed s

variable {s s' : CephSystem ι} {e : CephMove ι}

theorem loading_new (file : Bytes) (keys : ι → List Str) :
    Loading file (new file fun i => loadRequests (keys i)) where
  stage := rfl
  db := rfl
  phase := by simp [new, CephDB.new]
  client i := ⟨_, rfl, fun _ => isLoading_of_mem_loadRequests⟩

variable [DecidableEq ι]

theorem requests_update (client : ι → CephThread) (i : ι) (c : CephThread) :
    (fun j => (Function.update client i c j).requests) =
      Function.update (fun j => (client j).requests) i c.requests := by
  funext j
  exact Function.apply_update (fun _ c => CephThread.requests c) client i c j

theorem Loading.step [Fintype ι] {file : Bytes} {calls : ι → List CephCall} (h : Loading file s)
    (hstep : Step (fun i => transactionRequests (calls i)) s e s') :
    Loading file s' ∨ Transacting calls s' := by
  have hnext : ∀ {i r rs}, s.client i = .idle (r :: rs) →
      r.IsLoading ∧ ∀ r' ∈ rs, r'.IsLoading := fun {i r rs} hi => by
    obtain ⟨rs', hrs', hloading⟩ := h.client i
    obtain rfl : r :: rs = rs' := CephThread.idle.inj (hi.symm.trans hrs')
    exact List.forall_mem_cons.1 hloading
  cases hstep with
  | @serve i r rs st db hi hr =>
    obtain ⟨hr', hrs⟩ := hnext hi
    obtain ⟨hdue, hafter⟩ := hr'.dueIn h.phase
    obtain ⟨-, hphase, hsame⟩ := MmapCephDB.serve_ok hr
    refine .inl ⟨h.stage, ?_, ?_, fun j => ?_⟩
    · show db = { CephDB.new file with phase := db.phase }
      rw [hsame hdue, h.db]
    · show db.phase ≠ .transaction
      rwa [hphase]
    · show ∃ rs', Function.update s.client i (.idle rs) j = .idle rs' ∧ _
      by_cases hj : j = i
      · rw [hj, Function.update_self]
        exact ⟨rs, rfl, hrs⟩
      · rw [Function.update_of_ne hj]
        exact h.client j
  | fail hi hr =>
    exact absurd hr (MmapCephDB.serve_of_due_nothing ((hnext hi).1.dueIn h.phase).1)
  | joinLoad hstage hi =>
    refine .inr ⟨by simp, fun i => ⟨_, rfl, .inl rfl⟩, fun k => ?_, fun hd => by cases hd⟩
    have hzero : s.db.tally k = 0 := by
      rw [h.db]
      cases k <;> rfl
    show s.db.tally k + owingAll (fun i => transactionRequests (calls i)) k = _
    rw [hzero, Nat.zero_add]
  | handleAllData hstage hi => cases h.stage.symm.trans hstage

theorem Transacting.step [Fintype ι] {calls : ι → List CephCall}
    {transactions : ι → List CephRequest} (h : Transacting calls s)
    (hstep : Step transactions s e s') :
    Transacting calls s' ∨ SomeFailed s' := by
  have hrunning : ∀ {i r rs}, s.client i = .idle (r :: rs) → s.stage = .transacting :=
    fun {i r rs} hi => by
    cases hs : s.stage with
    | loading => exact absurd hs h.stage
    | transacting => rfl
    | handling => cases (h.joined hs i).symm.trans hi
  cases hstep with
  | @serve i r rs st db hi hr =>
    have hstage := hrunning hi
    obtain ⟨rs', hrs', hahead⟩ := h.client i
    obtain rfl : r :: rs = rs' := CephThread.idle.inj (hi.symm.trans hrs')
    obtain ⟨hdue, hafter, hahead'⟩ := hahead.cons
    obtain ⟨htally, hphase, -⟩ := MmapCephDB.serve_ok hr
    refine .inl ⟨h.stage, fun j => ?_, fun k => ?_, fun hd => ?_⟩
    · show ∃ rs', Function.update s.client i (.idle rs) j = .idle rs' ∧ Ahead (calls j) db.phase rs'
      rw [hphase, hafter]
      by_cases hj : j = i
      · rw [hj, Function.update_self]
        exact ⟨rs, rfl, hahead'⟩
      · rw [Function.update_of_ne hj]
        obtain ⟨rs', hrs', hahead⟩ := h.client j
        exact ⟨rs', hrs', hahead.of_transaction⟩
    · -- the request has paid what its thread owed for it
      show db.tally k + owingAll (fun j => (Function.update s.client i (.idle rs) j).requests) k = _
      have hupdate := owingAll_update (fun j => (s.client j).requests) i rs k
      have hown : (s.client i).requests = r :: rs := by
        rw [hi]
        rfl
      have htotal := h.tally k
      rw [hown, owing_cons] at hupdate
      rw [requests_update, htally k, hdue]
      show s.db.tally k + r.due.amount k +
        owingAll (Function.update (fun j => (s.client j).requests) i rs) k = _
      omega
    · cases hstage.symm.trans hd
  | @fail i r rs f db hi hr =>
    exact .inr ⟨hrunning hi, i, f, Function.update_self ..⟩
  | joinLoad hstage hi => exact absurd hstage h.stage
  | handleAllData hstage hi => exact .inl ⟨by simp, h.client, h.tally, fun _ => hi⟩

/-- A thread that has failed stays so. -/
theorem SomeFailed.step {transactions : ι → List CephRequest} (h : SomeFailed s)
    (hstep : Step transactions s e s') : SomeFailed s' := by
  obtain ⟨hstage, i, f, hfailed⟩ := h
  have hother : ∀ {j r rs}, s.client j = .idle (r :: rs) → i ≠ j := by
    rintro j r rs hj rfl
    cases hj.symm.trans hfailed
  cases hstep with
  | serve hi hr => exact ⟨hstage, i, f, (Function.update_of_ne (hother hi) ..).trans hfailed⟩
  | fail hi hr => exact ⟨hstage, i, f, (Function.update_of_ne (hother hi) ..).trans hfailed⟩
  | joinLoad hload hi => cases hstage.symm.trans hload
  | handleAllData _ hi => cases (hi i).symm.trans hfailed

theorem InOrder.step [Fintype ι] {file : Bytes} {calls : ι → List CephCall}
    (h : InOrder file calls s) (hstep : Step (fun i => transactionRequests (calls i)) s e s') :
    InOrder file calls s' := by
  rcases h with hload | htransacting | hfailed
  · exact (hload.step hstep).imp_right .inl
  · exact .inr (htransacting.step hstep)
  · exact .inr (.inr (hfailed.step hstep))

/-- The order of the counters in a run. -/
theorem inOrder [Fintype ι] {file : Bytes} {keys : ι → List Str} {calls : ι → List CephCall}
    {ok : CephSystem ι → CephMove ι → Prop}
    (h : Runs (Step fun i => transactionRequests (calls i)) ok
      (new file fun i => loadRequests (keys i)) s) : InOrder file calls s :=
  h.invariant (.inl (loading_new file keys)) fun _ _ _ _ hs _ hstep => hs.step hstep

omit [DecidableEq ι] in
/-- What has been counted is what the calls that have been made owed. -/
theorem Transacting.made [Fintype ι] {calls : ι → List CephCall} (h : Transacting calls s) :
    ∃ made : ι → List CephCall, (∀ i, calls i = made i ++ callsOf (s.client i).requests) ∧
      ∀ k, s.db.tally k = owingAll (fun i => transactionRequests (made i)) k := by
  have hmade : ∀ i, ∃ made, calls i = made ++ callsOf (s.client i).requests := fun i => by
    obtain ⟨rs, hrs, hahead⟩ := h.client i
    rw [hrs]
    exact hahead.exists_made
  choose made hmade using hmade
  refine ⟨made, hmade, fun k => ?_⟩
  have htally := h.tally k
  rw [owingAll_made hmade] at htally
  omega

/-- **The counters of the mapped back end.** While the load threads run, nothing but the phase has
changed, and no thread has failed. When `HandleAllData` runs, the counters are those of the calls of
the transaction threads; before, as long as no thread has failed, those of the calls made so far. -/
theorem counters [Fintype ι] {file : Bytes} {keys : ι → List Str} {calls : ι → List CephCall}
    {ok : CephSystem ι → CephMove ι → Prop}
    (h : Runs (Step fun i => transactionRequests (calls i)) ok
      (new file fun i => loadRequests (keys i)) s) :
    (s.stage = .loading → s.db = { CephDB.new file with phase := s.db.phase } ∧
        ∀ i f, s.client i ≠ .failed f) ∧
      (s.stage = .handling → ∀ k, s.db.tally k =
        owingAll (fun i => transactionRequests (calls i)) k) ∧
      (s.stage ≠ .loading → (∀ i f, s.client i ≠ .failed f) →
        ∃ made : ι → List CephCall, (∀ i, calls i = made i ++ callsOf (s.client i).requests) ∧
          ∀ k, s.db.tally k = owingAll (fun i => transactionRequests (made i)) k) := by
  rcases inOrder h with hload | htransacting | ⟨hstage, i, f, hfailed⟩
  · refine ⟨fun _ => ⟨hload.db, fun i f hf => ?_⟩, fun hs => ?_, fun hs => absurd hload.stage hs⟩
    · obtain ⟨rs, hrs, -⟩ := hload.client i
      cases hrs.symm.trans hf
    · cases hload.stage.symm.trans hs
  · refine ⟨fun hs => absurd hs htransacting.stage, fun hs k => ?_, fun _ _ => htransacting.made⟩
    have hnone : (fun i => (s.client i).requests) = fun _ : ι => [] := by
      funext i
      rw [htransacting.joined hs i]
      rfl
    have htally := htransacting.tally k
    rwa [hnone, owingAll_nil, Nat.add_zero] at htally
  · rw [hstage]
    exact ⟨nofun, nofun, fun _ hnone => absurd hfailed (hnone i f)⟩

end CephSystem

end YcsbC
