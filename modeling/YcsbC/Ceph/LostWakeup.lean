import YcsbC.Ceph.AsyncOps

/-!
# The wake-up that `Close` may miss

`Close` tests `async_op_count == 0` and, when the test fails, blocks on `async_op_cv`. The callbacks
neither decrement the counter nor call `notify_all` under `async_op_mutex`, so the last `notify_all`
may come between the failed test and the block, where it wakes nobody. Then `Close` sleeps although
nothing is left that could wake it. It does so only then.

## Main definitions

* `RealCephSystem.Stuck`: `Close` sleeps on a finished workload.
* `RealCephSystem.Punctual`: a step that is no such `notify_all`.

## Main results

* `RealCephSystem.close_wakes`: a run of punctual steps does not end stuck, and any other step is
  followed by a step that does.
* `RealCephSystem.close_sleeps_forever`: a run with one `Read` that ends stuck.
-/

namespace YcsbC

namespace RealCephSystem

variable {ι : Type} {s s' : RealCephSystem ι} {e : CephEvent ι}

/-- Every callback has finished. -/
def AllFinished (s : RealCephSystem ι) : Prop := ∀ a ∈ s.db.aios, a.completion = .finished

/-- `Close` is blocked on `async_op_cv`, no callback is left to notify it, and the counter is 0. -/
def Stuck (s : RealCephSystem ι) : Prop :=
  s.main = .blocked ∧ s.AllFinished ∧ s.db.asyncOpCount = 0

/-- The step is not the `notify_all` of the last unfinished callback between the failed test of
`Close` and its block. -/
def Punctual (s : RealCephSystem ι) (e : CephEvent ι) : Prop :=
  ∀ n, e = .notify n → s.main = .blocking →
    ∃ (m : ℕ) (a : Aio ι), m ≠ n ∧ s.db.aios[m]? = some a ∧ a.completion ≠ .finished

theorem Counted.asyncOpCount_eq_zero (h : Counted s 0) (hs : s.AllFinished) :
    s.db.asyncOpCount = 0 := by
  have hdec : s.db.decrements = s.db.aios.length := by
    refine List.countP_eq_length.2 fun a ha => ?_
    rw [hs a ha]
    rfl
  have hbalance := h.balance
  have hdiff : (s.db.increments : ℤ) - s.db.decrements = 0 := by omega
  rw [h.asyncOpCount, hdiff]
  rfl

/-- An operation stays unfinished in the steps of its callback up to `notify_all`. -/
theorem CallbackMove.exists_unfinished (h : CallbackMove s e s')
    (hs : ∃ a ∈ s.db.aios, a.completion ≠ .finished)
    (hn : ∀ n, e = .notify n →
      ∃ (m : ℕ) (a : Aio ι), m ≠ n ∧ s.db.aios[m]? = some a ∧ a.completion ≠ .finished) :
    ∃ a ∈ s'.db.aios, a.completion ≠ .finished := by
  have hset : ∀ {db : RealCephDB ι} {n : ℕ} {a : Aio ι} {c : Completion},
      db.aios[n]? = some a → c ≠ .finished →
      ∃ a' ∈ (db.complete n a c).aios, a'.completion ≠ .finished := fun ha hc =>
    ⟨_, List.mem_set (List.getElem?_eq_some_iff.1 ha).1 _, hc⟩
  cases h with
  | start ha hc => exact hset ha (by simp)
  | exit ha hk hc => exact hs
  | @free n a p ha hk hc => exact hset (show (s.db.free p).aios[n]? = some a from ha) (by simp)
  | @decrement n a ha hc =>
    exact hset (show s.db.uncountAsyncOp.aios[n]? = some a from ha) (by simp)
  | @notify n a ha hc =>
    obtain ⟨m, b, hm, hb, hunfinished⟩ := hn n rfl
    refine ⟨b, List.mem_of_getElem? (i := m) ?_, hunfinished⟩
    show (s.db.aios.set n _)[m]? = some b
    rw [List.getElem?_set_ne (Ne.symm hm), hb]

variable [DecidableEq ι] {ok : RealCephSystem ι → CephEvent ι → Prop}
  {load transactions : ι → List CephRequest}

theorem counted_of_joined (h : Runs (Step transactions) ok (new load) s) (hs : s.main.joined) :
    Counted s 0 := by
  obtain ⟨g, hcounted, htracks⟩ := counted h
  rwa [htracks.idle (htracks.mutex_eq_none (hcounted.joined hs))] at hcounted

/-- While `Close` is about to block or is blocked, some callback has not finished. -/
theorem exists_unfinished (h : Runs (Step transactions) Punctual (new load) s)
    (hs : s.main = .blocking ∨ s.main = .blocked) :
    ∃ a ∈ s.db.aios, a.completion ≠ .finished := by
  revert hs
  refine h.invariant (I := fun s => s.main = .blocking ∨ s.main = .blocked →
    ∃ a ∈ s.db.aios, a.completion ≠ .finished) (fun hs => by rcases hs with hs | hs <;> cases hs) ?_
  rintro s e s' hrun ih hok ⟨-, hclient | hback | hmove⟩ hs'
  · -- the clients have ended
    have hidle : s.main = .blocking ∨ s.main = .blocked → ∀ i, s.client i = .idle [] := by
      rintro (hs | hs) <;> exact (counted_of_joined hrun (by rw [hs]; rfl)).joined (by rw [hs]; rfl)
    cases hclient with
    | lock _ hi => cases (hidle hs' _).symm.trans hi
    | run hi => cases (hidle hs' _).symm.trans hi
    | ret hi => cases (hidle hs' _).symm.trans hi
    | throw hi => cases (hidle hs' _).symm.trans hi
  · have hs : s.main = .blocking ∨ s.main = .blocked := by
      cases hback with
      | notify ha hc =>
        by_cases hblocked : s.main = .blocked
        · exact .inr hblocked
        · simpa only [if_neg hblocked] using hs'
      | _ => exact hs'
    refine hback.exists_unfinished (ih hs) fun n hn => ?_
    rcases hs with hblocking | hblocked
    · exact hok n hn hblocking
    · -- a blocked `Close` is woken by the notification
      subst hn
      cases hback with
      | notify ha hc =>
        simp only [if_pos hblocked] at hs'
        rcases hs' with hs' | hs' <;> cases hs'
  · cases hmove with
    | joinLoad _ _ => rcases hs' with hs' | hs' <;> cases hs'
    | joinTransactions _ _ => rcases hs' with hs' | hs' <;> cases hs'
    | lockAsync _ => rcases hs' with hs' | hs' <;> cases hs'
    | rbdClose _ => rcases hs' with hs' | hs' <;> cases hs'
    | handleAllData _ => rcases hs' with hs' | hs' <;> cases hs'
    | block hmain => exact ih (.inl hmain)
    | test hmain =>
      by_contra hall
      push Not at hall
      have hzero := (counted_of_joined hrun (by rw [hmain]; rfl)).asyncOpCount_eq_zero hall
      simp only [if_pos hzero] at hs'
      rcases hs' with hs' | hs' <;> cases hs'

/-- A `notify_all` that comes too early for `Close` leaves it stuck once it blocks. -/
theorem exists_stuck (h : Runs (Step transactions) ok (new load) s)
    (hstep : Step transactions s e s') (he : ¬ Punctual s e) :
    ∃ s'', Step transactions s' .block s'' ∧ Stuck s'' := by
  simp only [Punctual, not_forall, not_exists, not_and, not_not] at he
  obtain ⟨n, rfl, hmain, hothers⟩ := he
  obtain ⟨hexited, hclient | hback | hmove⟩ := hstep
  · cases hclient
  · cases hback with
    | @notify n a ha hc =>
      have hnot : s.main ≠ .blocked := by
        rw [hmain]
        simp
      have hfinished : ∀ b ∈ (s.db.complete n a .finished).aios, b.completion = .finished := by
        intro b hb
        obtain ⟨m, hm⟩ := List.mem_iff_getElem?.1 hb
        by_cases hmn : m = n
        · subst hmn
          have hself : (s.db.aios.set m { a with completion := .finished })[m]? = _ :=
            List.getElem?_set_self (List.getElem?_eq_some_iff.1 ha).1
          cases hself.symm.trans hm
          rfl
        · have hother : (s.db.aios.set n { a with completion := .finished })[m]? = some b := hm
          rw [List.getElem?_set_ne (Ne.symm hmn)] at hother
          exact hothers m b hmn hother
      refine ⟨_, ⟨hexited, .inr (.inr (.block ?_))⟩, rfl, hfinished, ?_⟩
      · exact (if_neg hnot).trans hmain
      · have hrun' : Runs (Step transactions) (fun _ _ => True) (new load) s :=
          h.mono fun _ _ _ => trivial
        have hnotify := runs_callback hrun' trivial hexited (.notify ha hc)
        have hjoined : (if s.main = .blocked then MainThread.woken else s.main).joined := by
          rw [if_neg hnot, hmain]
          rfl
        exact (counted_of_joined hnotify hjoined).asyncOpCount_eq_zero hfinished
  · cases hmove

/-- **When `Close` does not sleep forever.** In a run in which no `notify_all` of the last
unfinished callback comes between the failed test and the block, `Close` is never stuck. Any such
`notify_all` is followed by a step that leaves it stuck. -/
theorem close_wakes (h : Runs (Step transactions) Punctual (new load) s) :
    ¬ Stuck s ∧ ∀ e s', Step transactions s e s' → ¬ Punctual s e →
      ∃ s'', Step transactions s' .block s'' ∧ Stuck s'' := by
  refine ⟨fun hs => ?_, fun e s' hstep he => exists_stuck h hstep he⟩
  obtain ⟨a, ha, hunfinished⟩ := exists_unfinished h (.inr hs.1)
  exact hunfinished (hs.2.1 a ha)

/-- One `Read`, up to the test of `Close`. -/
theorem runs_one_read {p : RealCephSystem Unit → CephEvent Unit → Prop}
    (hok : ∀ s e, (∀ n, e ≠ .notify n) → p s e) :
    ∃ s : RealCephSystem Unit,
      Runs (Step fun _ => transactionRequests [.read "user0".toList]) p
        (new fun _ => loadRequests []) s ∧
      s.main = .testing ∧ s.exited = false ∧ s.db.asyncOpCount = 1 ∧
      s.db.aios = [⟨.read 0, 0, .pending⟩] := by
  have hclient : ∀ s, p s (.lock ()) ∧ p s (.run ()) ∧ p s (.ret ()) := fun s =>
    ⟨hok _ _ (by simp), hok _ _ (by simp), hok _ _ (by simp)⟩
  have hnew : Runs (Step fun _ : Unit => transactionRequests [.read "user0".toList]) p
    (new fun _ => loadRequests []) (new fun _ => loadRequests []) := .start
  have hinit := runs_request hclient hnew rfl rfl (i := ()) rfl rfl
  have hjoin := runs_main hinit (hok _ _ (by simp)) rfl (.joinLoad rfl fun _ => rfl)
  have hinit' := runs_request hclient hjoin rfl rfl (i := ()) rfl rfl
  have hend := runs_request hclient hinit' rfl rfl (i := ()) rfl rfl
  have hclose := runs_main hend (hok _ _ (by simp)) rfl (.joinTransactions rfl fun _ => rfl)
  have hwait := runs_main hclose (hok _ _ (by simp)) rfl (.lockAsync (.inl rfl))
  exact ⟨_, hwait, rfl, rfl, rfl, rfl⟩

/-- The callback of the only operation, a read, may run up to its `notify_all`. -/
theorem runs_to_notify {load : ι → List CephRequest}
    (hok : ∀ s e, (∀ n, e ≠ .notify n) → ok s e) (h : Runs (Step transactions) ok (new load) s)
    (hexited : s.exited = false) {p : ℕ} {offset : ℤ}
    (haios : s.db.aios = [⟨.read p, offset, .pending⟩]) :
    ∃ s', Runs (Step transactions) ok (new load) s' ∧ s'.main = s.main ∧ s'.exited = false ∧
      s'.db.asyncOpCount = s.db.asyncOpCount - 1 ∧
      s'.db.aios = [⟨.read p, offset, .decremented⟩] := by
  have hstart := runs_callback h (hok _ _ (by simp)) hexited
    (.start (n := 0) (a := ⟨.read p, offset, .pending⟩) (by rw [haios]; rfl) rfl)
  have hfree := runs_callback hstart (hok _ _ (by simp)) hexited
    (.free (n := 0) (a := ⟨.read p, offset, .started⟩)
      (by simp only [RealCephDB.complete, haios]; rfl) rfl rfl)
  have hdecrement := runs_callback hfree (hok _ _ (by simp)) hexited
    (.decrement (n := 0) (a := ⟨.read p, offset, .freed⟩)
      (by simp only [RealCephDB.complete, RealCephDB.free, haios]; rfl) rfl)
  refine ⟨_, hdecrement, rfl, hexited, rfl, ?_⟩
  simp only [RealCephDB.complete, RealCephDB.free, RealCephDB.uncountAsyncOp, haios]
  rfl

/-- One `Read` whose callback runs while `Close` is blocked: `Close` is not stuck. -/
theorem close_wakes_one_read :
    ∃ s : RealCephSystem Unit,
      Runs (Step fun _ => transactionRequests [.read "user0".toList]) Punctual
        (new fun _ => loadRequests []) s ∧
      s.main = .woken ∧ s.db.asyncOpCount = 0 ∧ ¬ Stuck s := by
  have hok : ∀ (s : RealCephSystem Unit) e, (∀ n, e ≠ .notify n) → Punctual s e :=
    fun s e he n hn => absurd hn (he n)
  obtain ⟨s, hrun, hmain, hexited, hcount, haios⟩ := runs_one_read hok
  have htest := runs_main hrun (hok _ _ (by simp)) hexited (.test hmain)
  have hfails : (if s.db.asyncOpCount = 0 then MainThread.drained else .blocking) = .blocking := by
    rw [hcount]
    rfl
  have hblock := runs_main htest (hok _ _ (by simp)) hexited (.block hfails)
  obtain ⟨s', hrun', hmain', hexited', hcount', haios'⟩ := runs_to_notify hok hblock hexited haios
  have hmain'' : s'.main = .blocked := hmain'
  have hnotify := runs_callback hrun' (fun n hn hm => by rw [hmain''] at hm; cases hm) hexited'
    (.notify (n := 0) (a := ⟨.read 0, 0, .decremented⟩) (by rw [haios']; rfl) rfl)
  refine ⟨_, hnotify, if_pos hmain'', ?_, (close_wakes hnotify).1⟩
  show s'.db.asyncOpCount = 0
  rw [hcount']
  show s.db.asyncOpCount - 1 = 0
  rw [hcount]
  rfl

/-- One `Read` whose callback runs between the failed test of `Close` and its block: `Close` sleeps
forever. -/
theorem close_sleeps_forever :
    ∃ s : RealCephSystem Unit,
      Runs (Step fun _ => transactionRequests [.read "user0".toList]) (fun _ _ => True)
        (new fun _ => loadRequests []) s ∧ Stuck s := by
  have hok : ∀ (s : RealCephSystem Unit) (e : CephEvent Unit), (∀ n, e ≠ .notify n) → True :=
    fun _ _ _ => trivial
  obtain ⟨s, hrun, hmain, hexited, hcount, haios⟩ := runs_one_read hok
  have htest := runs_main hrun trivial hexited (.test hmain)
  have hfails : (if s.db.asyncOpCount = 0 then MainThread.drained else .blocking) = .blocking := by
    rw [hcount]
    rfl
  obtain ⟨s', hrun', hmain', hexited', hcount', haios'⟩ := runs_to_notify hok htest hexited haios
  have hmain'' : s'.main = .blocking := hmain'.trans hfails
  have hnotify := runs_callback hrun' trivial hexited'
    (.notify (n := 0) (a := ⟨.read 0, 0, .decremented⟩) (by rw [haios']; rfl) rfl)
  have hblocking : (if s'.main = .blocked then MainThread.woken else s'.main) = .blocking := by
    rw [hmain'']
    rfl
  have hblock := runs_main hnotify trivial hexited' (.block hblocking)
  refine ⟨_, hblock, rfl, fun a ha => ?_, ?_⟩
  · simp only [RealCephDB.complete, haios', List.set_cons_zero, List.mem_singleton] at ha
    rw [ha]
  · show s'.db.asyncOpCount = 0
    rw [hcount']
    show s.db.asyncOpCount - 1 = 0
    rw [hcount]
    rfl

end RealCephSystem

end YcsbC
